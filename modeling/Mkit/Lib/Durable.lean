import Mathlib.Data.List.Basic

/-!
# Programs over Durable State

A program that changes durable state through a list of operations and may die between any
two of them. A process holds the durable state, the log of the operations it has performed,
and how many checkpoints it has left to live; reaching a checkpoint with none left is a
crash. A program ends with a value, an error of its own, or a crash, and in each case with
the process it left behind.

`Triple` is the crash form of a Hoare triple: besides the postcondition for a normal end it
has one for the state left behind by an error or a crash.
-/

namespace Durable

variable {σ ω ε α β : Type}

/-- What keeps a program from its value: an error of its own, or the death of the process. -/
inductive Stop (ε : Type) where
  | failed (e : ε)
  | crashed
deriving DecidableEq

/-- A running process. -/
structure Proc (σ ω : Type) where
  /-- The durable state. -/
  disk : σ
  /-- The operations performed so far. -/
  log : List ω
  /-- The checkpoints left to pass before the process dies; `none` when it never does. -/
  life : Option ℕ

/-- A program over durable state `σ` with operations `ω` and errors `ε`. -/
abbrev Prog (σ ω ε : Type) := ExceptT (Stop ε) (StateM (Proc σ ω))

/-- Run a program on a process. -/
def exec (x : Prog σ ω ε α) (p : Proc σ ω) : Except (Stop ε) α × Proc σ ω :=
  x p

/-- Perform one durable operation. -/
def perform (apply : σ → ω → σ) (op : ω) : Prog σ ω ε Unit :=
  modify fun p => { p with disk := apply p.disk op, log := p.log ++ [op] }

/-- A point where the process may die. -/
def checkpoint : Prog σ ω ε Unit := do
  match (← get).life with
  | none => pure ()
  | some 0 => throw .crashed
  | some (n + 1) => modify fun p => { p with life := some n }

/-- Look at the durable state. -/
def observe (f : σ → Except ε α) : Prog σ ω ε α := do
  match f (← get).disk with
  | .ok a => pure a
  | .error e => throw (.failed e)

/-- Perform operations in order, with a checkpoint after each. -/
def steps (apply : σ → ω → σ) : List ω → Prog σ ω ε Unit
  | [] => pure ()
  | op :: ops => do
    perform apply op
    checkpoint
    steps apply ops

/-! ### Running programs -/

section Exec

variable {apply : σ → ω → σ} {p : Proc σ ω}

@[simp] theorem exec_pure (a : α) : exec (pure a : Prog σ ω ε α) p = (.ok a, p) := rfl

theorem exec_bind (x : Prog σ ω ε α) (f : α → Prog σ ω ε β) : exec (x >>= f) p = match exec x p with
      | (.ok a, q) => exec (f a) q
      | (.error e, q) => (.error e, q) := by
  change (ExceptT.bindCont f (exec x p).1) (exec x p).2 = _
  rcases exec x p with ⟨_ | _, q⟩ <;> rfl

variable {x : Prog σ ω ε α} {f : α → Prog σ ω ε β} {q : Proc σ ω}

/-- A sequence whose first part has a value goes on with it. -/
theorem exec_bind_of_ok {a : α} (h : exec x p = (.ok a, q)) : exec (x >>= f) p = exec (f a) q := by
  rw [exec_bind, h]

/-- A sequence whose first part stops, stops there. -/
theorem exec_bind_of_error {e : Stop ε}
    (h : exec x p = (.error e, q)) : exec (x >>= f) p = (.error e, q) := by
  rw [exec_bind, h]

@[simp] theorem exec_perform (op : ω) : exec (perform apply op : Prog σ ω ε Unit) p =
      (.ok (), { p with disk := apply p.disk op, log := p.log ++ [op] }) := rfl

theorem exec_observe (f : σ → Except ε α) : exec (observe f : Prog σ ω ε α) p = match f p.disk with
      | .ok a => (.ok a, p)
      | .error e => (.error (.failed e), p) := by
  change exec (match f p.disk with
    | .ok a => pure a
    | .error e => throw (.failed e) : Prog σ ω ε α) p = _
  cases f p.disk <;> rfl

/-- Looking at the state and going on with what is seen. -/
theorem exec_observe_bind (f : σ → Except ε α) (g : α → Prog σ ω ε β) :
    exec (observe f >>= g) p = match f p.disk with
      | .ok a => exec (g a) p
      | .error e => (.error (.failed e), p) := by
  rw [exec_bind, exec_observe]
  cases f p.disk <;> rfl

@[simp] theorem exec_checkpoint_of_none (h : p.life = none) :
    exec (checkpoint : Prog σ ω ε Unit) p = (.ok (), p) := by
  change exec (match p.life with
    | none => pure ()
    | some 0 => throw .crashed
    | some (n + 1) => modify fun p => { p with life := some n } : Prog σ ω ε Unit) p = _
  rw [h]
  rfl

theorem exec_checkpoint_cases (p : Proc σ ω) :
    exec (checkpoint : Prog σ ω ε Unit) p = (.error .crashed, p) ∨
      ∃ life, exec (checkpoint : Prog σ ω ε Unit) p = (.ok (), { p with life := life }) := by
  obtain ⟨disk, log, _ | _ | n⟩ := p
  · exact .inr ⟨none, rfl⟩
  · exact .inl rfl
  · exact .inr ⟨some n, rfl⟩

end Exec

/-! ### Crash triples -/

/-- From every process with `P`, the program ends in a value with `Q`, or is stopped and
leaves a process with `C`. -/
def Triple (P : Proc σ ω → Prop) (x : Prog σ ω ε α) (Q : α → Proc σ ω → Prop)
    (C : Stop ε → Proc σ ω → Prop) : Prop :=
  ∀ p, P p → match exec x p with
    | (.ok a, q) => Q a q
    | (.error e, q) => C e q

section Rules

variable {P : Proc σ ω → Prop} {x : Prog σ ω ε α} {Q : α → Proc σ ω → Prop}
  {C : Stop ε → Proc σ ω → Prop} {apply : σ → ω → σ}

variable {p q : Proc σ ω}

theorem Triple.of_ok (h : Triple P x Q C) {a : α} (hp : P p)
    (hx : exec x p = (.ok a, q)) : Q a q := by
  have h := h p hp
  rwa [hx] at h

theorem Triple.of_error (h : Triple P x Q C) {e : Stop ε} (hp : P p)
    (hx : exec x p = (.error e, q)) : C e q := by
  have h := h p hp
  rwa [hx] at h

theorem Triple.pure (a : α) (h : ∀ p, P p → Q a p) : Triple P (pure a : Prog σ ω ε α) Q C :=
  fun p hp => h p hp

/-- Performing operations in order leaves some beginning of them performed, all of them when
it ends; only a crash stops it, and only after the first of them. -/
theorem Triple.steps {ops : List ω} {Q : Unit → Proc σ ω → Prop}
    (hok : ∀ p life, P p → Q () ⟨ops.foldl apply p.disk, p.log ++ ops, life⟩)
    (hcrash : ∀ p k life, P p → 0 < k → k ≤ ops.length →
      C .crashed ⟨(ops.take k).foldl apply p.disk, p.log ++ ops.take k, life⟩) :
    Triple P (steps apply ops : Prog σ ω ε Unit) Q C := by
  -- By induction on the operations, from the process left by those already performed.
  induction ops generalizing P with
  | nil =>
    refine Triple.pure () fun p hp => ?_
    have h := hok p p.life hp
    rwa [List.append_nil] at h
  | cons op ops ih =>
    intro p hp
    rw [Durable.steps, exec_bind_of_ok (exec_perform op)]
    set q : Proc σ ω := ⟨apply p.disk op, p.log ++ [op], p.life⟩ with hq
    rcases exec_checkpoint_cases (ε := ε) q with hc | ⟨life, hc⟩
    · rw [exec_bind_of_error hc]
      exact hcrash p 1 p.life hp Nat.one_pos (by simp)
    · rw [exec_bind_of_ok hc]
      refine ih (P := fun r => r = { q with life := life }) ?_ ?_ _ rfl
      · rintro r life' rfl
        have h := hok p life' hp
        rwa [List.foldl_cons, List.append_cons] at h
      · rintro r k life' rfl hk hle
        have h := hcrash p (k + 1) life' hp k.succ_pos (by simpa using hle)
        rwa [List.take_succ_cons, List.foldl_cons, List.append_cons] at h

end Rules

/-- A process that never dies performs them all. -/
theorem exec_steps_of_none {apply : σ → ω → σ} {ops : List ω} {p : Proc σ ω} (h : p.life = none) :
    exec (steps apply ops : Prog σ ω ε Unit) p =
      (.ok (), ⟨ops.foldl apply p.disk, p.log ++ ops, none⟩) := by
  induction ops generalizing p with
  | nil =>
    obtain ⟨disk, log, life⟩ := p
    obtain rfl : life = none := h
    simp [steps]
  | cons op ops ih =>
    set q : Proc σ ω := ⟨apply p.disk op, p.log ++ [op], p.life⟩ with hq
    have hlife : q.life = none := h
    rw [steps, exec_bind_of_ok (exec_perform op),
      exec_bind_of_ok (exec_checkpoint_of_none hlife), ih hlife, List.foldl_cons,
      List.append_cons]

end Durable
