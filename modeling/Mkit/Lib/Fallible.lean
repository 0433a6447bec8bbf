import Mathlib.Data.Option.Basic

/-!
# Computations that Fail or Panic

Code that returns an error or panics is a value of `ExceptT ε Option α`: the outer `none` is
the panic, the inner `error` the returned error. The rules below take a successful
computation apart into its successful steps.
-/

namespace Fallible

universe u

variable {ε α β : Type u}

/-- The computation returns `a`: it neither panics nor fails. -/
def Returns (x : ExceptT ε Option α) (a : α) : Prop :=
  x.run = some (.ok a)

instance [DecidableEq α] (x : ExceptT ε Option α) (a : α) : Decidable (Returns x a) :=
  match h : x.run with
  | some (.ok b) =>
    decidable_of_iff (b = a) (by rw [Returns, h]; simp)
  | some (.error e) => isFalse (by rw [Returns, h]; simp)
  | none => isFalse (by rw [Returns, h]; simp)

/-- A computation returns at most one value. -/
theorem Returns.unique {x : ExceptT ε Option α} {a a' : α} (h : Returns x a)
    (h' : Returns x a') : a = a' := by
  rw [Returns, h] at h'
  simpa using h'

@[simp] theorem returns_pure {a b : α} : Returns (pure a : ExceptT ε Option α) b ↔ a = b := by
  simp [Returns, pure, ExceptT.pure, ExceptT.run, ExceptT.mk]

@[simp] theorem returns_throw {e : ε} {b : α} : ¬ Returns (throw e : ExceptT ε Option α) b := by
  simp [Returns]

/-- A sequence returns when its first step does and the rest does on that result. -/
theorem returns_bind {x : ExceptT ε Option α} {f : α → ExceptT ε Option β} {b : β} :
    Returns (x >>= f) b ↔ ∃ a, Returns x a ∧ Returns (f a) b := by
  have hbind : (x >>= f).run = x.run.bind fun r =>
      match r with
      | .ok a => (f a).run
      | .error e => some (.error e) := by
    rw [ExceptT.run_bind]
    rfl
  unfold Returns
  rw [hbind]
  match x.run with
  | none => simp
  | some (.error e) => simp
  | some (.ok a) => simp

/-- Lifting a computation that can only panic. -/
@[simp] theorem returns_liftOption {o : Option α} {a : α} :
    Returns (liftM o : ExceptT ε Option α) a ↔ o = some a := by
  cases o <;> simp [Returns, liftM, monadLift, MonadLift.monadLift, ExceptT.lift, ExceptT.mk,
    ExceptT.run]

/-- Lifting a computation that can only fail. -/
@[simp] theorem returns_liftExcept {r : Except ε α} {a : α} :
    Returns (liftM r : ExceptT ε Option α) a ↔ r = .ok a := by
  cases r <;> simp [Returns, liftM, monadLift, MonadLift.monadLift, ExceptT.mk, ExceptT.run]

end Fallible
