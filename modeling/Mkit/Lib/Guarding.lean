import Mkit.Lib.Wire

/-!
# Decisions that Collect Guards

A decision reads facts from a snapshot and collects guards, the comparisons that must hold
wherever the decision is used later. It is safe to use when it is *stable* under them
(`Stable`): on any other snapshot where the collected guards hold, the same computation, if it
succeeds, returns the same value and collects the same guards. The rules below establish this
piece by piece: a read is stable when the rest of the computation leaves a guard behind that
pins the value read (`Stable.read`), or when the guards collected before already determine it
(`Stable.recall`).
-/

namespace Guarding

variable {σ γ ε α β ο : Type}

/-- A computation that reads a snapshot, collects guards and may fail. -/
abbrev Decide (σ γ ε : Type) := ReaderT σ (StateT (List γ) (Except ε))

/-- Read from the snapshot. -/
def fetch (get : σ → Except ε α) : Decide σ γ ε α := fun s gs =>
  get s >>= fun a => .ok (a, gs)

/-- A value or a failure that does not depend on the snapshot. -/
def lift (x : Except ε α) : Decide σ γ ε α :=
  fetch fun _ => x

/-- Collect a guard. -/
def collect (push : List γ → γ → Except ε (List γ)) (g : γ) : Decide σ γ ε Unit := fun _ gs =>
  push gs g >>= fun out => .ok ((), out)

/-- Every guard collected before is kept. -/
def Keeps (m : Decide σ γ ε α) : Prop :=
  ∀ s gs a out, m s gs = .ok (a, out) → gs ⊆ out

/-- The computation leaves a guard behind whenever it succeeds. -/
def Leaves (m : Decide σ γ ε α) (g : γ) : Prop :=
  ∀ s gs a out, m s gs = .ok (a, out) → g ∈ out

/-- The guards left behind are reached by pushing one guard after the other. -/
def Grows (push : List γ → γ → Except ε (List γ)) (m : Decide σ γ ε α) : Prop :=
  ∀ s gs a out, m s gs = .ok (a, out) →
    Relation.ReflTransGen (fun gs gs' => ∃ g, push gs g = .ok gs') gs out

/-- From every start that satisfies `P`, the outcome is determined by the guards collected. -/
structure Stable (holds : γ → σ → Prop) (P : σ → List γ → Prop) (m : Decide σ γ ε α) : Prop where
  keeps : Keeps m
  same : ∀ s s' gs a out a' out', P s gs → m s gs = .ok (a, out) → (∀ g ∈ out, holds g s') →
    m s' gs = .ok (a', out') → a' = a ∧ out' = out

/-- A condition that more guards do not spoil. -/
def Persistent (P : σ → List γ → Prop) : Prop :=
  ∀ s gs out, gs ⊆ out → P s gs → P s out

/-- A guard that pins what is read from a snapshot. -/
def Pins (holds : γ → σ → Prop) (get : σ → Except ε ο) (o : ο) (g : γ) : Prop :=
  ∀ s' o', holds g s' → get s' = .ok o' → o' = o

section Runs

variable {s : σ} {gs out : List γ} {a : α} {b : β}

@[simp] theorem pure_run (a b : α) : (pure a : Decide σ γ ε α) s gs = .ok (b, out) ↔
    a = b ∧ gs = out := by
  change Except.ok (a, gs) = Except.ok (b, out) ↔ _
  simp only [Except.ok.injEq, Prod.mk.injEq]

theorem bind_run {m : Decide σ γ ε α} {f : α → Decide σ γ ε β} :
    (m >>= f) s gs = .ok (b, out) ↔ ∃ a mid, m s gs = .ok (a, mid) ∧ f a s mid = .ok (b, out) := by
  change (m s gs >>= fun x => f x.1 s x.2) = .ok (b, out) ↔ _
  rw [Wire.bind_eq_ok, Prod.exists]

theorem fetch_run {get : σ → Except ε α} :
    (fetch get : Decide σ γ ε α) s gs = .ok (a, out) ↔ get s = .ok a ∧ gs = out := by
  rw [fetch, Wire.bind_eq_ok]
  simp only [Except.ok.injEq, Prod.mk.injEq]
  exact ⟨fun ⟨_, h, rfl, hgs⟩ => ⟨h, hgs⟩, fun ⟨h, hgs⟩ => ⟨a, h, rfl, hgs⟩⟩

theorem lift_run {x : Except ε α} :
    (lift x : Decide σ γ ε α) s gs = .ok (a, out) ↔ x = .ok a ∧ gs = out :=
  fetch_run

theorem collect_run {push : List γ → γ → Except ε (List γ)} {g : γ} {u : Unit} :
    (collect push g : Decide σ γ ε Unit) s gs = .ok (u, out) ↔ push gs g = .ok out := by
  rw [collect, Wire.bind_eq_ok]
  simp only [Except.ok.injEq, Prod.mk.injEq, true_and, exists_eq_right]

end Runs

section Rules

variable {holds : γ → σ → Prop} {P : σ → List γ → Prop}
variable {m : Decide σ γ ε α} {f : α → Decide σ γ ε β} {g : γ}

theorem Keeps.fetch (get : σ → Except ε α) : Keeps (fetch get : Decide σ γ ε α) := by
  intro s gs a out h
  rw [(fetch_run.1 h).2]
  exact List.Subset.refl out

theorem Keeps.bind (hm : Keeps m) (hf : ∀ a, Keeps (f a)) : Keeps (m >>= f) := by
  intro s gs b out h
  obtain ⟨a, mid, ha, hb⟩ := bind_run.1 h
  exact List.Subset.trans (hm s gs a mid ha) (hf a s mid b out hb)

section Grows

variable {push : List γ → γ → Except ε (List γ)}

theorem Grows.fetch (get : σ → Except ε α) : Grows push (fetch get : Decide σ γ ε α) := by
  intro s gs a out h
  rw [(fetch_run.1 h).2]

theorem Grows.pure (a : α) : Grows push (pure a : Decide σ γ ε α) := by
  intro s gs b out h
  rw [((pure_run a b).1 h).2]

theorem Grows.collect (g : γ) : Grows push (collect push g : Decide σ γ ε Unit) :=
  fun _ _ _ _ h => .single ⟨g, collect_run.1 h⟩

theorem Grows.bind (hm : Grows push m) (hf : ∀ a, Grows push (f a)) : Grows push (m >>= f) := by
  intro s gs b out h
  obtain ⟨a, mid, ha, hb⟩ := bind_run.1 h
  exact (hm s gs a mid ha).trans (hf a s mid b out hb)

/-- What a push preserves, a computation preserves. -/
theorem Grows.preserves (hm : Grows push m) {I : List γ → Prop}
    (hpush : ∀ gs g out, I gs → push gs g = .ok out → I out) {s : σ} {gs out : List γ} {a : α}
    (h : m s gs = .ok (a, out)) (hI : I gs) : I out := by
  have hreach := hm s gs a out h
  clear h
  induction hreach with
  | refl => exact hI
  | tail _ hlast ih =>
    obtain ⟨g, hg⟩ := hlast
    exact hpush _ g _ ih hg

end Grows

theorem Leaves.bind_left (hm : Leaves m g) (hf : ∀ a, Keeps (f a)) : Leaves (m >>= f) g := by
  intro s gs b out h
  obtain ⟨a, mid, ha, hb⟩ := bind_run.1 h
  exact hf a s mid b out hb (hm s gs a mid ha)

theorem Leaves.bind_right (hf : ∀ a, Leaves (f a) g) : Leaves (m >>= f) g := by
  intro s gs b out h
  obtain ⟨a, mid, -, hb⟩ := bind_run.1 h
  exact hf a s mid b out hb

theorem Leaves.collect {push : List γ → γ → Except ε (List γ)}
    (hpush : ∀ gs g out, push gs g = .ok out → g ∈ out) (g : γ) :
    Leaves (collect push g : Decide σ γ ε Unit) g :=
  fun _ gs _ out h => hpush gs g out (collect_run.1 h)

/-- Computations that do not look at the snapshot are stable. -/
theorem Stable.lift (x : Except ε α) : Stable holds P (lift x : Decide σ γ ε α) := by
  refine ⟨Keeps.fetch _, fun s s' gs a out a' out' _ h _ h' => ?_⟩
  obtain ⟨hx, rfl⟩ := lift_run.1 h
  obtain ⟨hx', rfl⟩ := lift_run.1 h'
  rw [hx, Except.ok.injEq] at hx'
  exact ⟨hx'.symm, rfl⟩

theorem Stable.pure (a : α) : Stable holds P (pure a : Decide σ γ ε α) := by
  refine ⟨fun s gs b out h => ?_, fun s s' gs b out b' out' _ h _ h' => ?_⟩
  · rw [((pure_run a b).1 h).2]
    exact List.Subset.refl out
  · obtain ⟨rfl, rfl⟩ := (pure_run a b).1 h
    obtain ⟨rfl, rfl⟩ := (pure_run a b').1 h'
    exact ⟨rfl, rfl⟩

theorem Stable.collect {push : List γ → γ → Except ε (List γ)}
    (hpush : ∀ gs g out, push gs g = .ok out → gs ⊆ out) (g : γ) :
    Stable holds P (collect push g : Decide σ γ ε Unit) := by
  refine ⟨fun s gs u out h => hpush gs g out (collect_run.1 h), ?_⟩
  intro s s' gs u out u' out' _ h _ h'
  have hout := collect_run.1 h
  rw [collect_run.1 h', Except.ok.injEq] at hout
  exact ⟨rfl, hout⟩

/-- Fewer starts. -/
theorem Stable.weaken {Q : σ → List γ → Prop} (hm : Stable holds Q m)
    (hQ : ∀ s gs, P s gs → Q s gs) : Stable holds P m :=
  ⟨hm.keeps, fun s s' gs a out a' out' h => hm.same s s' gs a out a' out' (hQ s gs h)⟩

/-- Stable computations compose; the second may rely on what the first establishes. -/
theorem Stable.bind_of {Q : α → σ → List γ → Prop} (hm : Stable holds P m)
    (hQ : ∀ s gs a out, P s gs → m s gs = .ok (a, out) → Q a s out)
    (hf : ∀ a, Stable holds (Q a) (f a)) : Stable holds P (m >>= f) := by
  refine ⟨hm.keeps.bind fun a => (hf a).keeps, ?_⟩
  intro s s' gs b out b' out' hP h hholds h'
  obtain ⟨a, mid, ha, hb⟩ := bind_run.1 h
  obtain ⟨a', mid', ha', hb'⟩ := bind_run.1 h'
  have hmid := (hf a).keeps s mid b out hb
  obtain ⟨rfl, rfl⟩ := hm.same s s' gs a mid a' mid' hP ha (fun g hg => hholds g (hmid hg)) ha'
  exact (hf a').same s s' mid' b out b' out' (hQ s gs a' mid' hP ha) hb hholds hb'

theorem Stable.bind (hP : Persistent P) (hm : Stable holds P m) (hf : ∀ a, Stable holds P (f a)) :
    Stable holds P (m >>= f) :=
  hm.bind_of (Q := fun _ => P)
    (fun s gs a out h hrun => hP s gs out (hm.keeps s gs a out hrun) h) hf

/-- **Guarded reads.** A read is stable when what follows leaves a guard that pins it. -/
theorem Stable.read {get : σ → Except ε ο} {k : ο → Decide σ γ ε β}
    (hpins : ∀ o s gs b out, k o s gs = .ok (b, out) → ∃ g ∈ out, Pins holds get o g)
    (hk : ∀ o, Stable holds P (k o)) : Stable holds P (fetch get >>= k) := by
  refine ⟨(Keeps.fetch get).bind fun o => (hk o).keeps, ?_⟩
  intro s s' gs b out b' out' hP h hholds h'
  obtain ⟨o, mid, hfetch, hb⟩ := bind_run.1 h
  obtain ⟨o', mid', hfetch', hb'⟩ := bind_run.1 h'
  obtain ⟨ho, rfl⟩ := fetch_run.1 hfetch
  obtain ⟨ho', rfl⟩ := fetch_run.1 hfetch'
  obtain ⟨g, hg, hpin⟩ := hpins o s gs b out hb
  obtain rfl := hpin s' o' (hholds g hg) ho'
  exact (hk o').same s s' gs b out b' out' hP hb hholds hb'

/-- **Recalled reads.** A read of something the guards collected so far determine is stable. -/
theorem Stable.recall {get : σ → Except ε ο} {k : ο → Decide σ γ ε β}
    (hknown : ∀ s s' gs, P s gs → (∀ g ∈ gs, holds g s') → get s' = get s)
    (hk : ∀ o, Stable holds P (k o)) : Stable holds P (fetch get >>= k) := by
  refine ⟨(Keeps.fetch get).bind fun o => (hk o).keeps, ?_⟩
  intro s s' gs b out b' out' hP h hholds h'
  obtain ⟨o, mid, hfetch, hb⟩ := bind_run.1 h
  obtain ⟨o', mid', hfetch', hb'⟩ := bind_run.1 h'
  obtain ⟨ho, rfl⟩ := fetch_run.1 hfetch
  obtain ⟨ho', rfl⟩ := fetch_run.1 hfetch'
  have hsub := (hk o).keeps s gs b out hb
  rw [hknown s s' gs hP fun g hg => hholds g (hsub hg), ho, Except.ok.injEq] at ho'
  obtain rfl := ho'
  exact (hk o).same s s' gs b out b' out' hP hb hholds hb'

end Rules

end Guarding
