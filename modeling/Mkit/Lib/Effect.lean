import Mathlib.Data.Option.Basic

/-!
# Computations over a Store

Code that works on a store and may fail is a value of `ExceptT ε (StateM σ) α`: a failure
leaves the store as the steps before it made it. `Yields x s a s'` says that `x`, started in
`s`, ends in `s'` with the result `a`; the rules below take a successful computation apart
into its successful steps. `Returns x s P` says that `x` does succeed when started in `s`, with
a result and a store that satisfy `P`. `Along R x` says that every success of `x` takes the store
along `R`.
-/

namespace Effect

variable {σ ε α β : Type}

/-- Run a computation on a store. -/
def exec (x : ExceptT ε (StateM σ) α) (s : σ) : Except ε α × σ :=
  StateT.run x.run s

theorem exec_pure (a : α) (s : σ) : exec (pure a : ExceptT ε (StateM σ) α) s = (.ok a, s) := rfl

theorem exec_throw (e : ε) (s : σ) :
    exec (throw e : ExceptT ε (StateM σ) α) s = (.error e, s) := rfl

theorem exec_bind (x : ExceptT ε (StateM σ) α) (f : α → ExceptT ε (StateM σ) β) (s : σ) :
    exec (x >>= f) s =
      match exec x s with
      | (.ok a, s') => exec (f a) s'
      | (.error e, s') => (.error e, s') := by
  change StateT.run (x >>= f).run s = _
  rw [ExceptT.run_bind, StateT.run_bind]
  unfold exec
  rcases StateT.run x.run s with ⟨_ | a, s'⟩ <;> rfl

theorem exec_get_bind (f : σ → ExceptT ε (StateM σ) β) (s : σ) :
    exec (get >>= f) s = exec (f s) s := rfl

theorem exec_set_bind (t : σ) (f : PUnit → ExceptT ε (StateM σ) β) (s : σ) :
    exec (set t >>= f) s = exec (f ⟨⟩) t := rfl

/-- A computation without effect goes on with its result, or fails at once. -/
theorem exec_liftExcept_bind (r : Except ε α) (f : α → ExceptT ε (StateM σ) β) (s : σ) :
    exec (liftM r >>= f) s =
      match r with
      | .ok a => exec (f a) s
      | .error e => (.error e, s) := by
  cases r <;> rfl

/-- Started in `s`, the computation succeeds with `a` and leaves `s'`. -/
def Yields (x : ExceptT ε (StateM σ) α) (s : σ) (a : α) (s' : σ) : Prop :=
  exec x s = (.ok a, s')

variable {x : ExceptT ε (StateM σ) α} {s : σ} {a : α}

/-- A computation succeeds in one way only. -/
theorem Yields.unique {s₁ s₂ : σ} {b : α}
    (h : Yields x s a s₁) (h' : Yields x s b s₂) : a = b ∧ s₁ = s₂ := by
  obtain ⟨hab, hs⟩ := Prod.mk.inj (Eq.trans (Eq.symm h) h')
  exact ⟨Except.ok.inj hab, hs⟩

variable {s' : σ}

@[simp] theorem yields_pure {b : α} :
    Yields (pure a : ExceptT ε (StateM σ) α) s b s' ↔ a = b ∧ s = s' := by
  simp [Yields, exec_pure]

variable {e : ε}

@[simp] theorem yields_throw {b : α} : ¬ Yields (throw e : ExceptT ε (StateM σ) α) s b s' := by
  simp [Yields, exec_throw]

variable {f : α → ExceptT ε (StateM σ) β} {b : β}

/-- A sequence yields what its second part yields on the yield of the first. -/
theorem yields_bind {s'' : σ} :
    Yields (x >>= f) s b s'' ↔ ∃ a s', Yields x s a s' ∧ Yields (f a) s' b s'' := by
  unfold Yields
  rw [exec_bind]
  rcases exec x s with ⟨e | a, s'⟩
  · simp
  · constructor
    · intro h
      exact ⟨a, s', rfl, h⟩
    · rintro ⟨a', t, ha, h⟩
      simp only [Prod.mk.injEq, Except.ok.injEq] at ha
      obtain ⟨rfl, rfl⟩ := ha
      exact h

variable {t : σ}

@[simp] theorem yields_get : Yields (get : ExceptT ε (StateM σ) σ) s t s' ↔ s = t ∧ s = s' := by
  have hrun : exec (get : ExceptT ε (StateM σ) σ) s = (.ok s, s) := rfl
  simp [Yields, hrun]

/-- A sequence that starts by reading goes on from what it read. -/
theorem yields_get_bind {f : σ → ExceptT ε (StateM σ) β} :
    Yields (get >>= f) s b s' ↔ Yields (f s) s b s' := by
  rw [Yields, exec_get_bind, Yields]

/-- A sequence that starts by writing goes on from what it wrote. -/
theorem yields_set_bind {f : PUnit → ExceptT ε (StateM σ) β} :
    Yields (set t >>= f) s b s' ↔ Yields (f ⟨⟩) t b s' := by
  rw [Yields, exec_set_bind, Yields]

@[simp] theorem yields_set {u : PUnit} :
    Yields (set t : ExceptT ε (StateM σ) PUnit) s u s' ↔ t = s' := by
  have hrun : exec (set t : ExceptT ε (StateM σ) PUnit) s = (.ok u, t) := rfl
  simp [Yields, hrun]

variable {r : Except ε α}

@[simp] theorem yields_liftExcept :
    Yields (liftM r : ExceptT ε (StateM σ) α) s a s' ↔ r = .ok a ∧ s = s' := by
  cases r with
  | error e => exact ⟨fun h => absurd h yields_throw, fun h => nomatch h.1⟩
  | ok b => exact yields_pure.trans (by simp)

/-- A sequence that starts without effect goes on with its result. -/
theorem yields_liftExcept_bind :
    Yields (liftM r >>= f) s b s' ↔ ∃ a, r = .ok a ∧ Yields (f a) s b s' := by
  rw [yields_bind]
  constructor
  · rintro ⟨a, t, ha, hb⟩
    obtain ⟨hr, rfl⟩ := yields_liftExcept.1 ha
    exact ⟨a, hr, hb⟩
  · rintro ⟨a, ha, hb⟩
    exact ⟨a, s, yields_liftExcept.2 ⟨ha, rfl⟩, hb⟩

variable {c : Prop}

/-- A sequence that starts with a check goes on when the check passes. -/
theorem yields_check [Decidable c] {f : PUnit → ExceptT ε (StateM σ) β}
     : Yields (if c then throw e >>= f else f ⟨⟩) s b s' ↔ ¬ c ∧ Yields (f ⟨⟩) s b s' := by
  by_cases hc : c
  · rw [if_pos hc, yields_bind]
    simp [hc]
  · rw [if_neg hc]
    exact (and_iff_right hc).symm

variable {y : ExceptT ε (StateM σ) α}

theorem yields_ite [Decidable c] :
    Yields (if c then x else y) s a s' ↔ (c ∧ Yields x s a s') ∨ (¬ c ∧ Yields y s a s') := by
  by_cases hc : c <;> simp [hc]

/-- What every round of a loop keeps, the loop keeps. -/
theorem Yields.forM {f : α → ExceptT ε (StateM σ) PUnit} {l : List α} {u : PUnit}
    {P : σ → Prop} (h : Yields (l.forM f) s u s') (hs : P s)
    (hstep : ∀ a ∈ l, ∀ t t', P t → Yields (f a) t ⟨⟩ t' → P t') : P s' := by
  induction l generalizing s with
  | nil => exact (yields_pure.1 h).2 ▸ hs
  | cons a l ih =>
    change Yields (f a >>= fun _ => l.forM f) s u s' at h
    obtain ⟨⟨⟩, t, ha, hl⟩ := yields_bind.1 h
    rw [List.forall_mem_cons] at hstep
    exact ih hl (hstep.1 s t hs ha) hstep.2

/-- Started in `s`, the computation succeeds, and what it yields satisfies `P`. -/
def Returns (x : ExceptT ε (StateM σ) α) (s : σ) (P : α → σ → Prop) : Prop :=
  ∃ a s', Yields x s a s' ∧ P a s'

variable {P : α → σ → Prop}

theorem returns_pure (h : P a s) : Returns (pure a : ExceptT ε (StateM σ) α) s P :=
  ⟨a, s, yields_pure.2 ⟨rfl, rfl⟩, h⟩

/-- A sequence returns when its second part does on whatever the first returns. -/
theorem Returns.bind {Q : β → σ → Prop} (hx : Returns x s P)
    (hf : ∀ a s', P a s' → Returns (f a) s' Q) : Returns (x >>= f) s Q := by
  obtain ⟨a, s', ha, hp⟩ := hx
  obtain ⟨b, s'', hb, hq⟩ := hf a s' hp
  exact ⟨b, s'', yields_bind.2 ⟨a, s', ha, hb⟩, hq⟩

variable {Q : α → σ → Prop}

theorem Returns.imp (hx : Returns x s P) (h : ∀ a s', P a s' → Q a s') : Returns x s Q := by
  obtain ⟨a, s', ha, hp⟩ := hx
  exact ⟨a, s', ha, h a s' hp⟩

/-- What returns does so with whatever its successes have in common. -/
theorem Returns.and_yields (hx : Returns x s P) (h : ∀ a s', Yields x s a s' → Q a s') :
    Returns x s fun a s' => P a s' ∧ Q a s' := by
  obtain ⟨a, s', ha, hp⟩ := hx
  exact ⟨a, s', ha, hp, h a s' ha⟩

/-- Every success takes the store along `R`. -/
def Along (R : σ → σ → Prop) (x : ExceptT ε (StateM σ) α) : Prop :=
  ∀ s a s', Yields x s a s' → R s s'

variable {R : σ → σ → Prop}

theorem along_pure [Std.Refl R] (a : α) : Along R (pure a : ExceptT ε (StateM σ) α) := by
  intro s b s' h
  obtain ⟨-, rfl⟩ := yields_pure.1 h
  exact Std.Refl.refl s

theorem along_throw (e : ε) : Along R (throw e : ExceptT ε (StateM σ) α) :=
  fun _ _ _ h => absurd h yields_throw

/-- A sequence goes along what both its parts go along. -/
theorem Along.bind [IsTrans σ R] {x : ExceptT ε (StateM σ) α} {f : α → ExceptT ε (StateM σ) β}
    (hx : Along R x) (hf : ∀ a, Along R (f a)) : Along R (x >>= f) := by
  intro s b s'' h
  obtain ⟨a, s', ha, hb⟩ := yields_bind.1 h
  exact IsTrans.trans _ _ _ (hx s a s' ha) (hf a s' b s'' hb)

theorem Along.ite [Decidable c] (hx : Along R x)
    (hy : Along R y) : Along R (if c then x else y) := by
  split
  · exact hx
  · exact hy

/-- A failure leaves the store as it was. -/
def Atomic (x : ExceptT ε (StateM σ) α) : Prop :=
  ∀ s s' e, exec x s = (.error e, s') → s' = s

theorem atomic_set (t : σ) : Atomic (set t : ExceptT ε (StateM σ) PUnit) := by
  intro s s' e h
  have hrun : exec (set t : ExceptT ε (StateM σ) PUnit) s = (.ok ⟨⟩, t) := rfl
  rw [hrun] at h
  cases h

/-- A sequence that starts by reading is atomic when what follows is. -/
theorem Atomic.get_bind {f : σ → ExceptT ε (StateM σ) β} (h : ∀ s, Atomic (f s)) :
    Atomic (get >>= f) := fun s s' e hs => h s s s' e (by rwa [exec_get_bind] at hs)

/-- A sequence that starts without effect is atomic when what follows is. -/
theorem Atomic.liftExcept_bind (h : ∀ a, Atomic (f a)) : Atomic (liftM r >>= f) := by
  intro s s' e hs
  rw [exec_liftExcept_bind] at hs
  cases r with
  | ok a => exact h a s s' e hs
  | error e' => exact (Prod.mk.inj hs).2.symm

/-- A sequence that starts with a check is atomic when what follows is. -/
theorem Atomic.check [Decidable c] {f : PUnit → ExceptT ε (StateM σ) β}
    (h : Atomic (f ⟨⟩)) : Atomic (if c then throw e >>= f else f ⟨⟩) := by
  by_cases hc : c
  · rw [if_pos hc]
    intro s s' e' hs
    rw [exec_bind, exec_throw] at hs
    exact (Prod.mk.inj hs).2.symm
  · rwa [if_neg hc]

/-- What a pure operation comes to in place: its new store on success, the old one on
failure. -/
def settle (r : Except ε (α × σ)) (s : σ) : Except ε α × σ :=
  match r with
  | .ok (a, s') => (.ok a, s')
  | .error e => (.error e, s)

/-- The computation is a pure operation carried out in place. -/
def Implements (x : ExceptT ε (StateM σ) α) (f : σ → Except ε (α × σ)) : Prop :=
  ∀ s, exec x s = settle (f s) s

section Implements

variable {x : ExceptT ε (StateM σ) α} {f : σ → Except ε (α × σ)}

theorem Implements.atomic (h : Implements x f) : Atomic x := by
  intro s s' e hs
  rw [h s] at hs
  unfold settle at hs
  split at hs
  · cases hs
  · exact (Prod.mk.inj hs).2.symm

/-- Going on without effect is the same on both sides. -/
theorem Implements.map (h : Implements x f) (g : α → β) :
    Implements (x >>= fun a => pure (g a)) fun s => (f s).map (Prod.map g id) := by
  intro s
  rw [exec_bind, h s]
  change _ = settle ((f s).map (Prod.map g id)) s
  rcases f s with e | ⟨a, t⟩
  · rfl
  · rfl

/-- What every success of the operation keeps, the computation keeps, failing or not. -/
theorem Implements.preserves (h : Implements x f) {P : σ → Prop}
    (hf : ∀ s a s', P s → f s = .ok (a, s') → P s') {s : σ} (hs : P s) : P (exec x s).2 := by
  rw [h s]
  cases hr : f s with
  | error e => exact hs
  | ok r => exact hf s r.1 r.2 hs hr

end Implements

/-- The computation ends in `r` and appends `l` to the log that is its store. -/
def Logs {ι : Type} (x : ExceptT ε (StateM (List ι)) α) (r : Except ε α) (l : List ι) : Prop :=
  ∀ log, exec x log = (r, log ++ l)

section Logs

variable {ι : Type} {l l' : List ι}

theorem logs_pure (a : α) : Logs (pure a : ExceptT ε (StateM (List ι)) α) (.ok a) [] :=
  fun log => by rw [exec_pure, List.append_nil]

theorem logs_throw (e : ε) : Logs (throw e : ExceptT ε (StateM (List ι)) α) (.error e) [] :=
  fun log => by rw [exec_throw, List.append_nil]

variable {x : ExceptT ε (StateM (List ι)) α} {f : α → ExceptT ε (StateM (List ι)) β}

/-- A sequence appends what its parts append. -/
theorem Logs.bind {a : α} {r : Except ε β} (hx : Logs x (.ok a) l) (hf : Logs (f a) r l') :
    Logs (x >>= f) r (l ++ l') := by
  intro log
  rw [exec_bind, hx log]
  simp only
  rw [hf, List.append_assoc]

/-- A sequence that fails in its first part appends what that part appends. -/
theorem Logs.bind_error {e : ε} (hx : Logs x (.error e) l) : Logs (x >>= f) (.error e) l := by
  intro log
  rw [exec_bind, hx log]

/-- What a computation ends in and appends is determined. -/
theorem Logs.exec_eq {r : Except ε α} (hx : Logs x r l) : exec x [] = (r, l) :=
  hx []

end Logs

end Effect
