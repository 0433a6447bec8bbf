import Mathlib.Data.List.Basic
import Mathlib.Tactic.Linarith

/-!
# Edit Graphs

The grid that a shortest-edit-script search walks. `M x y` says that row `x` of one sequence
matches row `y` of another; a path keeps matching rows along a diagonal, deletes a row of the
first or inserts a row of the second. `Reach M d x y` says that `(x, y)` is reached from the
origin with exactly `d` deletions and insertions.

The greedy search keeps for every diagonal the furthest point reached with `d` edits
(`Frontier`). A point that an edit arrives at is `Foremost` when no other edit arrives further
on its diagonal. A path whose edits all arrive foremost is `Traced`, and it puts its edits as
late as it can: a run of deletions cannot be moved down by one row (`Traced.old_run`), nor can
a run of insertions (`Traced.new_run`).
-/

namespace EditGraph

/-- One move through the grid. -/
inductive Move
  | keep
  | del
  | ins
  deriving DecidableEq

/-- `(x, y)` is reached from the origin with exactly `d` edits. -/
inductive Reach (M : ℤ → ℤ → Prop) : ℕ → ℤ → ℤ → Prop
  | origin : Reach M 0 0 0
  | keep {d : ℕ} {x y : ℤ} (h : Reach M d x y) (hm : M x y) : Reach M d (x + 1) (y + 1)
  | del {d : ℕ} {x y : ℤ} (h : Reach M d x y) : Reach M (d + 1) (x + 1) y
  | ins {d : ℕ} {x y : ℤ} (h : Reach M d x y) : Reach M (d + 1) x (y + 1)

/-- `(x, y)` is where the `d`-th edit of a path arrives, or the origin of a path without. -/
inductive Arrives (M : ℤ → ℤ → Prop) : ℕ → ℤ → ℤ → Prop
  | origin : Arrives M 0 0 0
  | del {d : ℕ} {x y : ℤ} (h : Reach M d x y) : Arrives M (d + 1) (x + 1) y
  | ins {d : ℕ} {x y : ℤ} (h : Reach M d x y) : Arrives M (d + 1) x (y + 1)

/-- No edit arrives further on this diagonal. -/
def Foremost (M : ℤ → ℤ → Prop) (d : ℕ) (x y : ℤ) : Prop :=
  ∀ x' y', Arrives M d x' y' → x' - y' = x - y → x' ≤ x

/-- `x` is the furthest row reached with `d` edits on diagonal `k`. -/
def Frontier (M : ℤ → ℤ → Prop) (d : ℕ) (k x : ℤ) : Prop :=
  Reach M d x (x - k) ∧ ∀ x' y', Reach M d x' y' → x' - y' = k → x' ≤ x

/-- The diagonals that `d` edits can lead to. -/
def OnRound (d : ℕ) (k : ℤ) : Prop := -d ≤ k ∧ k ≤ d ∧ (d - k) % 2 = 0

variable {M : ℤ → ℤ → Prop} {d : ℕ} {x y : ℤ}

theorem Arrives.reach (h : Arrives M d x y) : Reach M d x y := by
  cases h with
  | origin => exact .origin
  | del h => exact h.del
  | ins h => exact h.ins

theorem Reach.nonneg (h : Reach M d x y) : 0 ≤ x ∧ 0 ≤ y := by
  induction h <;> omega

theorem Reach.onRound (h : Reach M d x y) : OnRound d (x - y) := by
  induction h <;> simp only [OnRound] at * <;> omega

/-- Deleting and inserting without keeping anything. -/
theorem Reach.dels (h : Reach M d x y) (n : ℕ) : Reach M (d + n) (x + n) y := by
  induction n with
  | zero => simpa using h
  | succ n ih =>
    have := ih.del
    rwa [Nat.add_assoc, add_assoc] at this

theorem Reach.inss (h : Reach M d x y) (n : ℕ) : Reach M (d + n) x (y + n) := by
  induction n with
  | zero => simpa using h
  | succ n ih =>
    have := ih.ins
    rwa [Nat.add_assoc, add_assoc] at this

/-- Keeping matching rows. -/
theorem Reach.keeps (h : Reach M d x y) (n : ℕ) (hm : ∀ i : ℕ, i < n → M (x + i) (y + i)) :
    Reach M d (x + n) (y + n) := by
  induction n with
  | zero => simpa using h
  | succ n ih =>
    have := (ih fun i hi => hm i (by omega)).keep (hm n (by omega))
    rwa [add_assoc, add_assoc] at this

variable {k X : ℤ}

/-- Where every arrival stops short of `X` and `X` itself does not match, no path passes `X`. -/
theorem Reach.le_of_stuck (h : Reach M d x y)
    (harrive : ∀ x' y', Arrives M d x' y' → x' - y' = k → x' ≤ X) (hstuck : ¬ M X (X - k))
    (hk : x - y = k) : x ≤ X := by
  induction h with
  | origin => exact harrive _ _ .origin hk
  | @keep d x y h hm ih =>
    have hle := ih harrive (by omega)
    rcases hle.lt_or_eq with hlt | rfl
    · omega
    · have hy : y = x - k := by omega
      exact absurd (hy ▸ hm) hstuck
  | del h => exact harrive _ _ (.del h) hk
  | ins h => exact harrive _ _ (.ins h) hk

variable {n m : ℤ}

/-- On a finite grid, a path that leaves it has spent edits to do so: cut off at the edge, it is
a path with fewer. -/
theorem Reach.clip (hM : ∀ x y, M x y → x < n ∧ y < m) (hn : 0 ≤ n) (hm : 0 ≤ m)
    (h : Reach M d x y) :
    ∃ d' : ℕ, Reach M d' (min x n) (min y m) ∧ d' + (x - min x n) + (y - min y m) ≤ d := by
  induction h with
  | origin =>
    refine ⟨0, ?_, ?_⟩
    · rw [min_eq_left hn, min_eq_left hm]
      exact .origin
    · rw [min_eq_left hn, min_eq_left hm]
      rfl
  | @keep d x y _ hxy ih =>
    obtain ⟨d', hd', hle⟩ := ih
    have := hM x y hxy
    rw [min_eq_left (by omega), min_eq_left (by omega)] at hd'
    refine ⟨d', ?_, by omega⟩
    rw [min_eq_left (by omega), min_eq_left (by omega)]
    exact hd'.keep hxy
  | @del d x y _ ih =>
    obtain ⟨d', hd', hle⟩ := ih
    by_cases hx : x < n
    · refine ⟨d' + 1, ?_, by omega⟩
      rw [min_eq_left (by omega)] at hd' ⊢
      exact hd'.del
    · refine ⟨d', ?_, by omega⟩
      rw [min_eq_right (by omega)] at hd' ⊢
      exact hd'
  | @ins d x y _ ih =>
    obtain ⟨d', hd', hle⟩ := ih
    by_cases hy : y < m
    · refine ⟨d' + 1, ?_, by omega⟩
      rw [min_eq_left (b := m) (by omega)] at hd' ⊢
      exact hd'.ins
    · refine ⟨d', ?_, by omega⟩
      rw [min_eq_right (b := m) (by omega)] at hd' ⊢
      exact hd'

/-- A shortest way to the far corner ends there, not beyond it. -/
theorem Reach.eq_corner (hM : ∀ x y, M x y → x < n ∧ y < m) (hn : 0 ≤ n)
    (hm : 0 ≤ m) (h : Reach M d x y) (hx : n ≤ x) (hy : m ≤ y)
    (hleast : ∀ d' < d, ¬ Reach M d' n m) : x = n ∧ y = m := by
  obtain ⟨d', hd', hle⟩ := h.clip hM hn hm
  rw [min_eq_right hx, min_eq_right hy] at hd' hle
  have hge : ¬ d' < d := fun hlt => hleast d' hlt hd'
  omega

theorem Frontier.unique {x x' : ℤ} (h : Frontier M d k x) (h' : Frontier M d k x') : x = x' :=
  le_antisymm (h'.2 _ _ h.1 (by omega)) (h.2 _ _ h'.1 (by omega))

/-- From a foremost arrival, keeping until rows differ leads to the frontier. -/
theorem frontier_of_foremost (harrive : Arrives M d x (x - k))
    (hforemost : Foremost M d x (x - k)) (hle : x ≤ X)
    (hkept : ∀ i, x ≤ i → i < X → M i (i - k)) (hstuck : ¬ M X (X - k)) : Frontier M d k X := by
  constructor
  · have := harrive.reach.keeps (X - x).toNat fun i hi => by
      have := hkept (x + i) (by omega) (by omega)
      rwa [add_sub_right_comm] at this
    convert this using 1 <;> omega
  · intro x' y' h hk
    refine h.le_of_stuck (fun x'' y'' h' hk' => ?_) hstuck hk
    exact (hforemost x'' y'' h' (by omega)).trans hle

/-! ### The greedy step -/

/-- Where the greedy search arrives with its next edit on diagonal `k`, given the frontier `v`:
with an insertion from the diagonal above or a deletion from the one below. -/
def GoesDown (v : ℤ → ℤ) (d : ℕ) (k : ℤ) : Prop :=
  k = -d ∨ (k ≠ d ∧ v (k - 1) < v (k + 1))

instance (v : ℤ → ℤ) (d : ℕ) (k : ℤ) : Decidable (GoesDown v d k) := by
  unfold GoesDown
  infer_instance

variable {v : ℤ → ℤ} {k : ℤ}

/-- An edit to diagonal `k` starts on one of its neighbours, from at most the frontier. -/
theorem Arrives.from_neighbour (hv : ∀ k, OnRound d k → Frontier M d k (v k))
    (h : Arrives M (d + 1) x y) (hk : x - y = k) :
    (OnRound d (k - 1) ∧ x ≤ v (k - 1) + 1) ∨ (OnRound d (k + 1) ∧ x ≤ v (k + 1)) := by
  cases h with
  | @del _ x _ h =>
    have hround : OnRound d (k - 1) := by
      have := h.onRound
      rwa [show x - y = k - 1 by omega] at this
    have := (hv _ hround).2 _ _ h (by omega)
    exact .inl ⟨hround, by omega⟩
  | @ins _ _ y h =>
    have hround : OnRound d (k + 1) := by
      have := h.onRound
      rwa [show x - y = k + 1 by omega] at this
    exact .inr ⟨hround, (hv _ hround).2 _ _ h (by omega)⟩

/-- Going down, the greedy step arrives foremost. -/
theorem foremost_down (hv : ∀ k, OnRound d k → Frontier M d k (v k)) (hk : OnRound (d + 1) k)
    (hdown : GoesDown v (d + 1) k) :
    OnRound d (k + 1) ∧ Foremost M (d + 1) (v (k + 1)) (v (k + 1) - k) := by
  have hround : OnRound d (k + 1) := by
    simp only [OnRound, GoesDown] at *
    omega
  refine ⟨hround, fun x' y' h hdiag => ?_⟩
  rcases h.from_neighbour hv (k := k) (by omega) with ⟨hbelow, hle⟩ | ⟨-, hle⟩
  · rcases hdown with hlow | ⟨-, hlt⟩
    · simp only [OnRound] at hbelow
      omega
    · omega
  · exact hle

/-- Otherwise it deletes, and arrives foremost too. -/
theorem foremost_right (hv : ∀ k, OnRound d k → Frontier M d k (v k)) (hk : OnRound (d + 1) k)
    (hright : ¬ GoesDown v (d + 1) k) :
    OnRound d (k - 1) ∧ Foremost M (d + 1) (v (k - 1) + 1) (v (k - 1) + 1 - k) := by
  have hround : OnRound d (k - 1) := by
    simp only [OnRound, GoesDown] at *
    omega
  refine ⟨hround, fun x' y' h hdiag => ?_⟩
  rcases h.from_neighbour hv (k := k) (by omega) with ⟨-, hle⟩ | ⟨habove, hle⟩
  · exact hle
  · have hlt : ¬ v (k - 1) < v (k + 1) := by
      intro hlt
      refine hright (.inr ⟨?_, hlt⟩)
      simp only [OnRound] at habove
      omega
    omega

/-- Then no insertion arrives at the same point. -/
theorem not_reach_of_right (hv : ∀ k, OnRound d k → Frontier M d k (v k))
    (hright : ¬ GoesDown v (d + 1) k) : ¬ Reach M d (v (k - 1) + 1) (v (k - 1) + 1 - k - 1) := by
  intro h
  have hround : OnRound d (k + 1) := by
    have := h.onRound
    rwa [show v (k - 1) + 1 - (v (k - 1) + 1 - k - 1) = k + 1 by omega] at this
  have hle := (hv _ hround).2 _ _ h (by omega)
  refine hright (.inr ⟨?_, by omega⟩)
  simp only [OnRound] at hround
  omega

/-- Where nothing matches, a point is as many edits away as it has rows before it. -/
theorem Reach.add_eq (hM : ∀ x y, ¬ M x y) (h : Reach M d x y) : x + y = d := by
  induction h with
  | origin => rfl
  | keep _ hm => exact absurd hm (hM _ _)
  | del | ins => push_cast; omega

/-! ### Traced paths -/

/-- Which rows of the first sequence a path deletes. -/
def oldFlags (ms : List Move) : List Bool :=
  ms.filterMap fun
    | .keep => some false
    | .del => some true
    | .ins => none

/-- Which rows of the second sequence it inserts. -/
def newFlags (ms : List Move) : List Bool :=
  ms.filterMap fun
    | .keep => some false
    | .del => none
    | .ins => some true

/-- A path from the origin to `(x, y)` with `d` edits, each of which arrives foremost. -/
inductive Traced (M : ℤ → ℤ → Prop) : ℕ → ℤ → ℤ → List Move → Prop
  | nil : Traced M 0 0 0 []
  | keep {d : ℕ} {x y : ℤ} {ms : List Move} (h : Traced M d x y ms) (hm : M x y) :
      Traced M d (x + 1) (y + 1) (ms ++ [.keep])
  | del {d : ℕ} {x y : ℤ} {ms : List Move} (h : Traced M d x y ms)
      (hf : Foremost M (d + 1) (x + 1) y) : Traced M (d + 1) (x + 1) y (ms ++ [.del])
  | ins {d : ℕ} {x y : ℤ} {ms : List Move} (h : Traced M d x y ms)
      (hf : Foremost M (d + 1) x (y + 1)) : Traced M (d + 1) x (y + 1) (ms ++ [.ins])

variable {ms : List Move}

theorem Traced.reach (h : Traced M d x y ms) : Reach M d x y := by
  induction h with
  | nil => exact .origin
  | keep _ hm ih => exact ih.keep hm
  | del _ _ ih => exact ih.del
  | ins _ _ ih => exact ih.ins

theorem oldFlags_append (ms ms' : List Move) : oldFlags (ms ++ ms') = oldFlags ms ++ oldFlags ms' :=
  List.filterMap_append

theorem newFlags_append (ms ms' : List Move) : newFlags (ms ++ ms') = newFlags ms ++ newFlags ms' :=
  List.filterMap_append

/-- A path ends behind as many rows as it has flags for. -/
theorem Traced.length_flags (h : Traced M d x y ms) :
    x = (oldFlags ms).length ∧ y = (newFlags ms).length := by
  induction h with
  | nil => exact ⟨rfl, rfl⟩
  | keep _ _ ih | del _ _ ih | ins _ _ ih =>
    obtain ⟨rfl, rfl⟩ := ih
    simp [oldFlags, newFlags]

/-- A path has a flag set for each of its edits. -/
theorem Traced.count_flags (h : Traced M d x y ms) :
    (oldFlags ms).count true + (newFlags ms).count true = d := by
  induction h with
  | nil => rfl
  | keep _ _ ih =>
    rw [oldFlags_append, newFlags_append, List.count_append, List.count_append, ← ih]
    rfl
  | del _ _ ih =>
    rw [oldFlags_append, newFlags_append, List.count_append, List.count_append, ← ih]
    exact Nat.add_right_comm _ 1 _
  | ins _ _ ih =>
    rw [oldFlags_append, newFlags_append, List.count_append, List.count_append, ← ih]
    exact (Nat.add_assoc _ _ 1).symm

variable {s : ℕ}

/-- Before a run of deletions the path stood at the run's first row, and made only edits
since. -/
theorem Traced.before_dels (h : Traced M d x y ms) (hs : s ≤ x)
    (hrun : ∀ j, s ≤ j → j < (oldFlags ms).length → (oldFlags ms)[j]? = some true) :
    ∃ (c : ℕ) (p : ℤ), Reach M c s p ∧ p ≤ y ∧ c + (x - s) + (y - p) = d := by
  induction h with
  | nil =>
    obtain rfl : s = 0 := by omega
    exact ⟨0, 0, .origin, le_rfl, by simp⟩
  | @keep d x y ms h hm ih =>
    have hlen := h.length_flags.1
    rcases hs.lt_or_eq with hlt | heq
    · -- the row just kept would be in the run
      have hlast := hrun (oldFlags ms).length (by omega) (by simp [oldFlags])
      simp [oldFlags] at hlast
    · exact ⟨d, y + 1, heq ▸ h.reach.keep hm, le_rfl, by omega⟩
  | @del d x y ms h hf ih =>
    have hlen := h.length_flags.1
    rcases hs.lt_or_eq with hlt | heq
    · obtain ⟨c, p, hc, hp, hsum⟩ := ih (by omega) fun j hj hjlt => by
        have := hrun j hj (by rw [oldFlags_append, List.length_append]; omega)
        rwa [oldFlags_append, List.getElem?_append_left hjlt] at this
      exact ⟨c, p, hc, hp, by push_cast; omega⟩
    · exact ⟨d + 1, y, heq ▸ h.reach.del, le_rfl, by push_cast; omega⟩
  | @ins d x y ms h hf ih =>
    obtain ⟨c, p, hc, hp, hsum⟩ := ih hs fun j hj hjlt => by
      have := hrun j hj (by rw [oldFlags_append, List.length_append]; omega)
      rwa [oldFlags_append, List.getElem?_append_left hjlt] at this
    exact ⟨c, p, hc, by omega, by push_cast; omega⟩

/-- Before a run of insertions likewise. -/
theorem Traced.before_inss (h : Traced M d x y ms) {q : ℕ} (hq : q ≤ y)
    (hrun : ∀ j, q ≤ j → j < (newFlags ms).length → (newFlags ms)[j]? = some true) :
    ∃ (c : ℕ) (s : ℤ), Reach M c s q ∧ s ≤ x ∧ c + (x - s) + (y - q) = d := by
  induction h with
  | nil =>
    obtain rfl : q = 0 := by omega
    exact ⟨0, 0, .origin, le_rfl, by simp⟩
  | @keep d x y ms h hm ih =>
    have hlen := h.length_flags.2
    rcases hq.lt_or_eq with hlt | heq
    · have hlast := hrun (newFlags ms).length (by omega) (by simp [newFlags])
      simp [newFlags] at hlast
    · exact ⟨d, x + 1, heq ▸ h.reach.keep hm, le_rfl, by omega⟩
  | @del d x y ms h hf ih =>
    obtain ⟨c, s, hc, hs, hsum⟩ := ih hq fun j hj hjlt => by
      have := hrun j hj (by rw [newFlags_append, List.length_append]; omega)
      rwa [newFlags_append, List.getElem?_append_left hjlt] at this
    exact ⟨c, s, hc, by omega, by push_cast; omega⟩
  | @ins d x y ms h hf ih =>
    have hlen := h.length_flags.2
    rcases hq.lt_or_eq with hlt | heq
    · obtain ⟨c, s, hc, hs, hsum⟩ := ih (by omega) fun j hj hjlt => by
        have := hrun j hj (by rw [newFlags_append, List.length_append]; omega)
        rwa [newFlags_append, List.getElem?_append_left hjlt] at this
      exact ⟨c, s, hc, hs, by push_cast; omega⟩
    · exact ⟨d + 1, x, heq ▸ h.reach.ins, le_rfl, by push_cast; omega⟩

/-- A path is empty, ends by keeping a row, or ends where an edit arrives foremost. -/
theorem Traced.end_cases (h : Traced M d x y ms) :
    ms = [] ∨ (∃ ms', ms = ms' ++ [.keep]) ∨ ∃ c, d = c + 1 ∧ Foremost M d x y := by
  cases h with
  | nil => exact .inl rfl
  | keep => exact .inr (.inl ⟨_, rfl⟩)
  | del _ hf => exact .inr (.inr ⟨_, rfl, hf⟩)
  | ins _ hf => exact .inr (.inr ⟨_, rfl, hf⟩)

/-- A run of deletions that ends a path cannot start one row later: its first row does not match
what comes next in the second sequence. -/
theorem Traced.not_match_del (h : Traced M d x y ms) (hs : s < x)
    (hrun : ∀ j, s ≤ j → j < (oldFlags ms).length → (oldFlags ms)[j]? = some true) : ¬ M s y := by
  intro hm
  obtain ⟨c, p, hc, hp, hsum⟩ := h.before_dels hs.le hrun
  have hlen := h.length_flags.1
  rcases h.end_cases with rfl | ⟨ms', rfl⟩ | ⟨d, rfl, hf⟩
  · simp [oldFlags] at hlen
    omega
  · have hlast := hrun (oldFlags ms').length (by simp [oldFlags] at hlen ⊢; omega)
      (by simp [oldFlags])
    simp [oldFlags] at hlast
  -- insert first, keep row `s` instead, and delete the rest of the run
  obtain ⟨b, hb⟩ : ∃ b : ℕ, y = p + b := ⟨(y - p).toNat, by omega⟩
  obtain ⟨l, hl⟩ : ∃ l : ℕ, x = s + 1 + l := ⟨(x - s - 1).toNat, by omega⟩
  subst hb hl
  have hearly := ((hc.inss b).keep hm).dels l
  rw [show c + b + l = d by omega] at hearly
  have := hf _ _ (.del hearly) (by omega)
  omega

/-- Nor can a run of insertions. -/
theorem Traced.not_match_ins (h : Traced M d x y ms) {q : ℕ} (hq : q < y)
    (hrun : ∀ j, q ≤ j → j < (newFlags ms).length → (newFlags ms)[j]? = some true) : ¬ M x q := by
  intro hm
  obtain ⟨c, s, hc, hs, hsum⟩ := h.before_inss hq.le hrun
  have hlen := h.length_flags.2
  rcases h.end_cases with rfl | ⟨ms', rfl⟩ | ⟨d, rfl, hf⟩
  · simp [newFlags] at hlen
    omega
  · have hlast := hrun (newFlags ms').length (by simp [newFlags] at hlen ⊢; omega)
      (by simp [newFlags])
    simp [newFlags] at hlast
  -- delete first, keep row `q` instead, and insert the rest of the run
  obtain ⟨l, hl⟩ : ∃ l : ℕ, x = s + l := ⟨(x - s).toNat, by omega⟩
  obtain ⟨b, hb⟩ : ∃ b : ℕ, y = q + 1 + b := ⟨(y - q - 1).toNat, by omega⟩
  subst hl hb
  have hearly := ((hc.dels l).keep hm).inss b
  rw [show c + l + b = d by omega] at hearly
  have := hf _ _ (.ins hearly) (by omega)
  omega

/-- The flags from `s` up to `e` are set, and the one at `e` is not. -/
structure RunTo (flags : List Bool) (s e : ℕ) : Prop where
  lt : s < e
  set : ∀ j, s ≤ j → j < e → flags[j]? = some true
  unset : flags[e]? = some false

variable {e : ℕ}

/-- A run ends within the flags before the last, or at the last. -/
theorem RunTo.of_concat {flags : List Bool} {b : Bool} (h : RunTo (flags ++ [b]) s e) :
    RunTo flags s e ∨
      (e = flags.length ∧ b = false ∧ s < e ∧
        ∀ j, s ≤ j → j < flags.length → flags[j]? = some true) := by
  have hin : ∀ j, j < flags.length → (flags ++ [b])[j]? = flags[j]? := fun j hj =>
    List.getElem?_append_left hj
  rcases lt_trichotomy e flags.length with hlt | rfl | hgt
  · exact .inl ⟨h.lt, fun j hj hje => hin j (by omega) ▸ h.set j hj hje, hin e hlt ▸ h.unset⟩
  · have hunset := h.unset
    rw [List.getElem?_concat_length, Option.some.injEq] at hunset
    exact .inr ⟨rfl, hunset, h.lt, fun j hj hje => hin j hje ▸ h.set j hj hje⟩
  · have hunset := h.unset
    rw [List.getElem?_eq_none (by rw [List.length_append, List.length_singleton]; omega)] at hunset
    cases hunset

/-- Along a traced path the row after a run of deletions matches something that the run's first
row does not match. -/
theorem Traced.old_run (h : Traced M d x y ms)
    (hrun : RunTo (oldFlags ms) s e) : ∃ w, M e w ∧ ¬ M s w := by
  induction h with
  | nil => cases hrun.unset
  | @keep d x y ms h hm ih =>
    have hlen := h.length_flags.1
    rw [oldFlags_append] at hrun
    rcases hrun.of_concat with hrun | ⟨rfl, -, hlt, hrun⟩
    · exact ih hrun
    · exact ⟨y, hlen ▸ hm, h.not_match_del (by omega) hrun⟩
  | @del d x y ms h hf ih =>
    rw [oldFlags_append] at hrun
    rcases hrun.of_concat with hrun | ⟨-, hb, -⟩
    · exact ih hrun
    · cases hb
  | @ins d x y ms h hf ih =>
    rw [oldFlags_append, show oldFlags [.ins] = [] from rfl, List.append_nil] at hrun
    exact ih hrun

/-- The same for a run of insertions. -/
theorem Traced.new_run (h : Traced M d x y ms)
    (hrun : RunTo (newFlags ms) s e) : ∃ w, M w e ∧ ¬ M w s := by
  induction h with
  | nil => cases hrun.unset
  | @keep d x y ms h hm ih =>
    have hlen := h.length_flags.2
    rw [newFlags_append] at hrun
    rcases hrun.of_concat with hrun | ⟨rfl, -, hlt, hrun⟩
    · exact ih hrun
    · exact ⟨x, hlen ▸ hm, h.not_match_ins (by omega) hrun⟩
  | @del d x y ms h hf ih =>
    rw [newFlags_append, show newFlags [.del] = [] from rfl, List.append_nil] at hrun
    exact ih hrun
  | @ins d x y ms h hf ih =>
    rw [newFlags_append] at hrun
    rcases hrun.of_concat with hrun | ⟨-, hb, -⟩
    · exact ih hrun
    · cases hb

/-! ### The path that is chosen -/

/-- A traced path that inserts where a deletion arrives at the same point. -/
inductive Chosen (M : ℤ → ℤ → Prop) : ℕ → ℤ → ℤ → List Move → Prop
  | nil : Chosen M 0 0 0 []
  | keep {d : ℕ} {x y : ℤ} {ms : List Move} (h : Chosen M d x y ms) (hm : M x y) :
      Chosen M d (x + 1) (y + 1) (ms ++ [.keep])
  | del {d : ℕ} {x y : ℤ} {ms : List Move} (h : Chosen M d x y ms)
      (hf : Foremost M (d + 1) (x + 1) y) (hins : ¬ Reach M d (x + 1) (y - 1)) :
      Chosen M (d + 1) (x + 1) y (ms ++ [.del])
  | ins {d : ℕ} {x y : ℤ} {ms : List Move} (h : Chosen M d x y ms)
      (hf : Foremost M (d + 1) x (y + 1)) : Chosen M (d + 1) x (y + 1) (ms ++ [.ins])

theorem Chosen.traced (h : Chosen M d x y ms) : Traced M d x y ms := by
  induction h with
  | nil => exact .nil
  | keep _ hm ih => exact ih.keep hm
  | del _ hf _ ih => exact ih.del hf
  | ins _ hf ih => exact ih.ins hf

/-- No edit arrives beyond the end of a traced path. -/
theorem Traced.arrival_le (h : Traced M d x y ms) {x' y' : ℤ}
    (harrive : Arrives M d x' y') (hk : x' - y' = x - y) : x' ≤ x := by
  induction h with
  | nil =>
    cases harrive
    exact le_rfl
  | keep _ _ ih => exact (ih harrive (by omega)).trans (by omega)
  | del _ hf _ => exact hf _ _ harrive hk
  | ins _ hf _ => exact hf _ _ harrive hk

/-- Past the rows of an empty sequence, everything is inserted. -/
theorem chosen_inss (hM : ∀ x y, ¬ M x y) (m : ℕ) : Chosen M m 0 m (List.replicate m .ins) := by
  induction m with
  | zero => exact .nil
  | succ m ih =>
    rw [List.replicate_succ', Nat.cast_add, Nat.cast_one]
    refine ih.ins fun x' y' harrive hk => ?_
    have := harrive.reach.add_eq hM
    push_cast at this
    omega

/-- And everything before it is deleted. -/
theorem chosen_dels (hM : ∀ x y, ¬ M x y) (n : ℕ) : Chosen M n n 0 (List.replicate n .del) := by
  induction n with
  | zero => exact .nil
  | succ n ih =>
    rw [List.replicate_succ', Nat.cast_add, Nat.cast_one]
    refine ih.del (fun x' y' harrive hk => ?_) fun hreach => ?_
    · have := harrive.reach.add_eq hM
      push_cast at this
      omega
    · have := hreach.nonneg.2
      omega

theorem Chosen.eq_nil (h : Chosen M d x y ms) (hd : d = 0) (hx : x = 0) : ms = [] := by
  cases h with
  | nil => rfl
  | keep h =>
    have := h.traced.reach.nonneg.1
    omega
  | del => omega
  | ins => omega

/-- **There is one chosen path to a point.** -/
theorem Chosen.unique {ms' : List Move} (h : Chosen M d x y ms) (h' : Chosen M d x y ms') :
    ms = ms' := by
  induction h generalizing ms' with
  | nil => exact (h'.eq_nil rfl rfl).symm
  | @keep d x y ms h hm ih =>
    generalize hx : x + 1 = x₁, hy : y + 1 = y₁ at h'
    cases h' with
    | nil =>
      have := h.traced.reach.nonneg.1
      omega
    | @keep _ x' y' _ h' =>
      obtain rfl : x = x' := by omega
      obtain rfl : y = y' := by omega
      rw [ih h']
    | del h' =>
      have := h.traced.arrival_le (.del h'.traced.reach) (by omega)
      omega
    | ins h' =>
      have := h.traced.arrival_le (.ins h'.traced.reach) (by omega)
      omega
  | @del d x y ms h hf hins ih =>
    generalize hx : x + 1 = x₁, hd : d + 1 = d₁ at h'
    cases h' with
    | nil => omega
    | @keep _ x' y' _ h' =>
      subst hd
      have := h'.traced.arrival_le (.del h.traced.reach) (by omega)
      omega
    | @del _ x' _ _ h' =>
      obtain rfl : x = x' := by omega
      obtain rfl := Nat.succ.inj hd
      rw [ih h']
    | @ins _ _ y' _ h' =>
      obtain rfl := Nat.succ.inj hd
      refine absurd h'.traced.reach ?_
      rwa [← hx, show y' = y' + 1 - 1 by omega]
  | @ins d x y ms h hf ih =>
    generalize hy : y + 1 = y₁, hd : d + 1 = d₁ at h'
    cases h' with
    | nil => omega
    | @keep _ x' y' _ h' =>
      subst hd
      have := h'.traced.arrival_le (.ins h.traced.reach) (by omega)
      omega
    | @del _ x' _ _ h' _ hins =>
      obtain rfl := Nat.succ.inj hd
      refine absurd h.traced.reach ?_
      rwa [← hy, show y + 1 - 1 = y by omega] at hins
    | @ins _ _ y' _ h' =>
      obtain rfl : y = y' := by omega
      obtain rfl := Nat.succ.inj hd
      rw [ih h']

/-! ### A first row in common -/

section Shift

variable {M' : ℤ → ℤ → Prop} (hM : ∀ x y, 0 ≤ x → 0 ≤ y → (M' x y ↔ M (x + 1) (y + 1)))

include hM

/-- Whatever is reached is reached behind the rows that match, or a point beyond it. -/
theorem Reach.ahead (h : Reach M d x y) :
    ∃ x' y', Reach M' d x' y' ∧ x' - y' = x - y ∧ x ≤ x' + 1 := by
  induction h with
  | origin => exact ⟨0, 0, .origin, rfl, by omega⟩
  | @keep d x y h hm ih =>
    obtain ⟨x', y', h', hk, hle⟩ := ih
    rcases hle.lt_or_eq with hlt | rfl
    · exact ⟨x', y', h', by omega, by omega⟩
    · obtain rfl : y = y' + 1 := by omega
      exact ⟨x' + 1, y' + 1, h'.keep ((hM _ _ h'.nonneg.1 h'.nonneg.2).2 hm), by omega, le_rfl⟩
  | del _ ih =>
    obtain ⟨x', y', h', hk, hle⟩ := ih
    exact ⟨x' + 1, y', h'.del, by omega, by omega⟩
  | ins _ ih =>
    obtain ⟨x', y', h', hk, hle⟩ := ih
    exact ⟨x', y' + 1, h'.ins, by omega, by omega⟩

theorem Foremost.behind (h : Foremost M' (d + 1) x y) : Foremost M (d + 1) (x + 1) (y + 1) := by
  intro x' y' harrive hk
  cases harrive with
  | del hreach =>
    obtain ⟨x'', y'', h', hk', hle⟩ := hreach.ahead hM
    have := h _ _ (.del h') (by omega)
    omega
  | ins hreach =>
    obtain ⟨x'', y'', h', hk', hle⟩ := hreach.ahead hM
    have := h _ _ (.ins h') (by omega)
    omega

/-- **Rows that match are kept first.** -/
theorem Chosen.behind (hzero : M 0 0) {ms : List Move} (h : Chosen M' d x y ms) :
    Chosen M d (x + 1) (y + 1) (.keep :: ms) := by
  induction h with
  | nil => exact Chosen.nil.keep hzero
  | keep h hm ih =>
    have hnonneg := h.traced.reach.nonneg
    exact ih.keep ((hM _ _ hnonneg.1 hnonneg.2).1 hm)
  | @del d x y ms h hf hins ih =>
    refine ih.del (hf.behind hM) fun hreach => ?_
    obtain ⟨x', y', h', hk, hle⟩ := hreach.ahead hM
    -- an insertion from beyond the point would arrive beyond it
    have := hf _ _ (.ins h') (by omega)
    obtain rfl : x' = x + 1 := by omega
    obtain rfl : y' = y - 1 := by omega
    exact hins h'
  | ins _ hf ih => exact ih.ins (hf.behind hM)

/-- The least number of edits to the corner stays the same. -/
theorem least_behind {n m : ℤ} (hbound : ∀ x y, M' x y → x < n ∧ y < m) (hn : 0 ≤ n) (hm : 0 ≤ m)
    (h : ∀ d' < d, ¬ Reach M' d' n m) : ∀ d' < d, ¬ Reach M d' (n + 1) (m + 1) := by
  intro d' hd' hreach
  obtain ⟨x', y', h', hk, hle⟩ := hreach.ahead hM
  obtain ⟨d'', h'', hle'⟩ := h'.clip hbound hn hm
  rw [min_eq_right (by omega), min_eq_right (by omega)] at h'' hle'
  exact h d'' (by omega) h''

end Shift

/-! ### Alignments -/

/-- From `(x, y)` on, the moves keep only rows that match. -/
def Follows (M : ℤ → ℤ → Prop) : ℤ → ℤ → List Move → Prop
  | _, _, [] => True
  | x, y, .keep :: ms => M x y ∧ Follows M (x + 1) (y + 1) ms
  | x, y, .del :: ms => Follows M (x + 1) y ms
  | x, y, .ins :: ms => Follows M x (y + 1) ms

theorem follows_append (ms ms' : List Move) : Follows M x y (ms ++ ms') ↔
    Follows M x y ms ∧
      Follows M (x + (oldFlags ms).length) (y + (newFlags ms).length) ms' := by
  induction ms generalizing x y with
  | nil => simp [Follows, oldFlags, newFlags]
  | cons m ms ih =>
    cases m <;>
      simp only [List.cons_append, Follows, ih, oldFlags, newFlags, List.filterMap_cons,
        List.length_cons, Nat.cast_add, Nat.cast_one, and_assoc, add_assoc,
        add_comm (1 : ℤ)]

theorem Traced.follows (h : Traced M d x y ms) : Follows M 0 0 ms := by
  induction h with
  | nil => exact trivial
  | keep h hm ih =>
    obtain ⟨rfl, rfl⟩ := h.length_flags
    rw [follows_append]
    exact ⟨ih, by rwa [zero_add, zero_add], trivial⟩
  | del _ _ ih | ins _ _ ih =>
    rw [follows_append]
    exact ⟨ih, trivial⟩

/-- Past rows `i` and `j`, the flags of the two sequences leave rows unset that pair up in order
and match. -/
inductive Aligned (M : ℤ → ℤ → Prop) : ℕ → ℕ → List Bool → List Bool → Prop
  | nil (i j : ℕ) : Aligned M i j [] []
  | del {i j : ℕ} {F G : List Bool} (h : Aligned M (i + 1) j F G) :
      Aligned M i j (true :: F) G
  | ins {i j : ℕ} {F G : List Bool} (h : Aligned M i (j + 1) F G) :
      Aligned M i j F (true :: G)
  | keep {i j : ℕ} {F G : List Bool} (hm : M i j) (h : Aligned M (i + 1) (j + 1) F G) :
      Aligned M i j (false :: F) (false :: G)

/-- A path's flags are aligned. -/
theorem Follows.aligned {i j : ℕ} (h : Follows M i j ms) :
    Aligned M i j (oldFlags ms) (newFlags ms) := by
  induction ms generalizing i j with
  | nil => exact .nil i j
  | cons m ms ih =>
    cases m with
    | keep => exact .keep h.1 (ih (by exact_mod_cast h.2))
    | del => exact .del (ih (by exact_mod_cast (h : Follows M (i + 1) j ms)))
    | ins => exact .ins (ih (by exact_mod_cast (h : Follows M i (j + 1) ms)))

variable {i j : ℕ} {F G : List Bool}

theorem Aligned.of_del (h : Aligned M i j (true :: F) G) : Aligned M (i + 1) j F G := by
  generalize hF : true :: F = F' at h
  induction h with
  | nil => cases hF
  | del h =>
    obtain rfl := (List.cons.inj hF).2
    exact h
  | ins _ ih => exact .ins (ih hF)
  | keep => cases hF

theorem Aligned.of_ins (h : Aligned M i j F (true :: G)) : Aligned M i (j + 1) F G := by
  generalize hG : true :: G = G' at h
  induction h with
  | nil => cases hG
  | del _ ih => exact .del (ih hG)
  | ins h =>
    obtain rfl := (List.cons.inj hG).2
    exact h
  | keep => cases hG

/-- All leading flags of the first sequence can be passed. -/
theorem Aligned.drop_dels (h : Aligned M i j F G) :
    Aligned M (i + (F.takeWhile id).length) j (F.dropWhile id) G := by
  induction F generalizing i with
  | nil => exact h
  | cons f F ih =>
    cases f with
    | false => exact h
    | true =>
      have := ih h.of_del
      rwa [add_assoc, add_comm 1] at this

theorem Aligned.drop_inss (h : Aligned M i j F G) :
    Aligned M i (j + (G.takeWhile id).length) F (G.dropWhile id) := by
  induction G generalizing j with
  | nil => exact h
  | cons g G ih =>
    cases g with
    | false => exact h
    | true =>
      have := ih h.of_ins
      rwa [add_assoc, add_comm 1] at this

/-- As many rows are left unset on one side as on the other. -/
theorem Aligned.not_nil_right (h : Aligned M i j (false :: F) G) : G ≠ [] := by
  rintro rfl
  cases h

theorem Aligned.not_nil_left (h : Aligned M i j F (false :: G)) : F ≠ [] := by
  rintro rfl
  cases h

end EditGraph
