import Mathlib.Data.Nat.Size
import Mathlib.Data.Set.Function

/-!
# Binary Merkle Trees with Odd-Node Duplication

A binary Merkle tree over an arbitrary type of nodes `N` with an arbitrary combining
function `f`. A level is paired up left to right, the last node of an odd level being paired
with itself (`pairs`), and the parents of the pairs form the next level (`up`), until at most
one node is left (`levels`, `topLevel`).

Injectivity of `f` is only ever used on the pairs that are really combined: `nodePairs` of a
tree, `climbPairs` of a verification.

## Main results

* `topLevel_inj` — trees of one size with the same top have the same leaves;
* `climb_sound` — a multi-leaf verification that reaches the top of a tree of the announced
  size started from that tree's own leaves, whatever siblings it was given.
-/

namespace Bmt

variable {N : Type*}

/-! ### Levels -/

/-- The nodes of a level two by two; an odd last node is its own partner. -/
def pairs : List N → List (N × N)
  | [] => []
  | [x] => [(x, x)]
  | x :: y :: l => (x, y) :: pairs l

@[simp] theorem length_pairs (l : List N) : (pairs l).length = (l.length + 1) / 2 := by
  fun_induction pairs l with
  | case1 => simp
  | case2 x => simp
  | case3 x y l ih =>
    simp only [List.length_cons, ih]
    omega

variable {l : List N} {i : ℕ} {p : N × N}

/-- The left component of the `i`-th pair is the node at `2 * i`. -/
theorem getElem?_pairs_left (h : (pairs l)[i]? = some p) : l[2 * i]? = some p.1 := by
  fun_induction pairs l generalizing i with
  | case1 => simp at h
  | case2 x =>
    obtain ⟨hi, rfl⟩ := List.getElem?_eq_some_iff.1 h
    obtain rfl : i = 0 := by simpa using hi
    rfl
  | case3 x y l ih =>
    cases i with
    | zero =>
      obtain rfl : (x, y) = p := by simpa using h
      rfl
    | succ i =>
      have := ih (i := i) (by simpa using h)
      simpa [Nat.mul_add] using this

/-- The right component of the `i`-th pair is the node at `2 * i + 1`, when there is one. -/
theorem getElem?_pairs_right (h : (pairs l)[i]? = some p)
    (hi : 2 * i + 1 < l.length) : l[2 * i + 1]? = some p.2 := by
  fun_induction pairs l generalizing i with
  | case1 => simp at h
  | case2 x =>
    simp only [List.length_singleton] at hi
    omega
  | case3 x y l ih =>
    cases i with
    | zero =>
      obtain rfl : (x, y) = p := by simpa using h
      rfl
    | succ i =>
      have := ih (i := i) (by simpa using h) (by simp only [List.length_cons] at hi; omega)
      simpa [Nat.mul_add] using this

/-- Levels of one size with the same pairs are equal. -/
theorem pairs_inj {l' : List N} (hlen : l.length = l'.length) (h : pairs l = pairs l') :
    l = l' := by
  fun_induction pairs l generalizing l' with
  | case1 => exact (List.length_eq_zero_iff.1 hlen.symm).symm
  | case2 x =>
    obtain ⟨y, rfl⟩ := List.length_eq_one_iff.1 hlen.symm
    simpa [pairs] using h
  | case3 x y l ih =>
    match l', hlen with
    | x' :: y' :: l', hlen =>
      simp only [pairs, List.cons.injEq, Prod.mk.injEq] at h
      obtain ⟨⟨rfl, rfl⟩, h⟩ := h
      rw [ih (by simpa using hlen) h]

/-- The parent of a pair. -/
def parent (f : N → N → N) (p : N × N) : N :=
  f p.1 p.2

/-- The next level: the parents of the pairs. -/
def up (f : N → N → N) (l : List N) : List N :=
  (pairs l).map (parent f)

@[simp] theorem length_up (f : N → N → N) (l : List N) : (up f l).length = (l.length + 1) / 2 := by
  rw [up, List.length_map, length_pairs]

/-- Every level of the tree, from the leaves to the level of at most one node. -/
def levels (f : N → N → N) (l : List N) : List (List N) :=
  if 1 < l.length then l :: levels f (up f l) else [l]
termination_by l.length
decreasing_by
  rw [length_up]
  omega

/-- The level of at most one node the tree ends in. -/
def topLevel (f : N → N → N) (l : List N) : List N :=
  if 1 < l.length then topLevel f (up f l) else l
termination_by l.length
decreasing_by
  rw [length_up]
  omega

/-- The pairs that are combined when the tree is built. -/
def nodePairs (f : N → N → N) (l : List N) : List (N × N) :=
  if 1 < l.length then pairs l ++ nodePairs f (up f l) else []
termination_by l.length
decreasing_by
  rw [length_up]
  omega

variable {f : N → N → N}

theorem topLevel_of_one_lt (h : 1 < l.length) : topLevel f l = topLevel f (up f l) := by
  rw [topLevel, if_pos h]

theorem topLevel_of_le_one (h : ¬ 1 < l.length) : topLevel f l = l := by
  rw [topLevel, if_neg h]

theorem nodePairs_of_one_lt (h : 1 < l.length) :
    nodePairs f l = pairs l ++ nodePairs f (up f l) := by
  rw [nodePairs, if_pos h]

/-- The last of the levels is the top. -/
theorem getLast?_levels (f : N → N → N) (l : List N) :
    (levels f l).getLast? = some (topLevel f l) := by
  fun_induction levels f l with
  | case1 l h ih =>
    rw [topLevel_of_one_lt h, List.getLast?_cons, ih]
    rfl
  | case2 l h =>
    rw [topLevel_of_le_one h]
    rfl

/-- A tree with leaves ends in exactly one node. -/
theorem length_topLevel (hl : l ≠ []) : (topLevel f l).length = 1 := by
  have hpos := List.length_pos_iff.2 hl
  fun_induction topLevel f l with
  | case1 l h ih =>
    have hup : 0 < (up f l).length := by rw [length_up]; omega
    exact ih (List.length_pos_iff.1 hup) hup
  | case2 l h => omega

/-! ### The top determines the leaves -/

section Injectivity

variable {f : N → N → N} {S : Set (N × N)}

/-- A function that is injective on a set is injective on the lists over that set. -/
theorem map_injOn {α β : Type*} {g : α → β} {S : Set α} (hS : Set.InjOn g S) {l l' : List α}
    (hl : ∀ a ∈ l, a ∈ S) (hl' : ∀ a ∈ l', a ∈ S) (h : l.map g = l'.map g) : l = l' := by
  induction l generalizing l' with
  | nil => simpa using h.symm
  | cons a l ih =>
    cases l' with
    | nil => simp at h
    | cons a' l' =>
      obtain ⟨ha, h⟩ := List.cons.inj h
      obtain ⟨hal, hl⟩ := List.forall_mem_cons.1 hl
      obtain ⟨hal', hl'⟩ := List.forall_mem_cons.1 hl'
      rw [hS hal hal' ha, ih hl hl' h]

variable {l l' : List N}

/-- One level up is injective on levels of one size. -/
theorem up_inj (hS : Set.InjOn (parent f) S) (hlen : l.length = l'.length)
    (hl : ∀ p ∈ pairs l, p ∈ S) (hl' : ∀ p ∈ pairs l', p ∈ S) (h : up f l = up f l') : l = l' :=
  pairs_inj hlen (map_injOn hS hl hl' h)

/-- Trees of one size with the same top have the same leaves. -/
theorem topLevel_inj (hS : Set.InjOn (parent f) S)
    (hlen : l.length = l'.length) (hl : ∀ p ∈ nodePairs f l, p ∈ S)
    (hl' : ∀ p ∈ nodePairs f l', p ∈ S) (h : topLevel f l = topLevel f l') : l = l' := by
  fun_induction topLevel f l generalizing l' with
  | case1 l h₁ ih =>
    have h₁' : 1 < l'.length := hlen ▸ h₁
    rw [nodePairs_of_one_lt h₁] at hl
    rw [nodePairs_of_one_lt h₁'] at hl'
    rw [topLevel_of_one_lt h₁'] at h
    have hup : up f l = up f l' :=
      ih (by rw [length_up, length_up, hlen])
        (fun p hp => hl p (List.mem_append_right _ hp))
        (fun p hp => hl' p (List.mem_append_right _ hp)) h
    exact up_inj hS hlen (fun p hp => hl p (List.mem_append_left _ hp))
      (fun p hp => hl' p (List.mem_append_left _ hp)) hup
  | case2 l h₁ =>
    rw [h, topLevel_of_le_one (hlen ▸ h₁)]

end Injectivity

/-! ### Verification of many leaves at once

A verifier holds some nodes of a level, each with its index, in ascending order. A node whose
partner is held too is paired with it, an odd last node is paired with itself, and any other
partner is the next of the supplied siblings. -/

/-- Pair a node whose partner is not held. `none`: the siblings have run out. -/
def partner (size pos : ℕ) (d : N) (sibs : List N) : Option ((N × N) × List N) :=
  if pos % 2 = 0 then
    if size ≤ pos + 1 then some ((d, d), sibs)
    else
      match sibs with
      | [] => none
      | s :: sibs => some ((d, s), sibs)
  else
    match sibs with
    | [] => none
    | s :: sibs => some ((s, d), sibs)

/-- Pair up the held nodes of a level of `size` nodes: the pairs, with the index of their
parents, and the siblings left over. -/
def pairLevel (size : ℕ) : List (ℕ × N) → List N → Option (List (ℕ × (N × N)) × List N)
  | [], sibs => some ([], sibs)
  | [(pos, d)], sibs => do
    let (lr, sibs) ← partner size pos d sibs
    some ([(pos / 2, lr)], sibs)
  | (pos, d) :: (q, e) :: cur, sibs =>
    if pos % 2 = 0 ∧ q = pos + 1 then do
      let (t, sibs) ← pairLevel size cur sibs
      some ((pos / 2, (d, e)) :: t, sibs)
    else do
      let (lr, sibs) ← partner size pos d sibs
      let (t, sibs) ← pairLevel size ((q, e) :: cur) sibs
      some ((pos / 2, lr) :: t, sibs)

/-- The held nodes of the next level. -/
def parents (f : N → N → N) (t : List (ℕ × (N × N))) : List (ℕ × N) :=
  t.map fun x => (x.1, parent f x.2)

/-- Climb `k` levels. -/
def climb (f : N → N → N) : ℕ → ℕ → List (ℕ × N) → List N → Option (List (ℕ × N) × List N)
  | 0, _, cur, sibs => some (cur, sibs)
  | k + 1, size, cur, sibs => do
    let (t, sibs) ← pairLevel size cur sibs
    climb f k ((size + 1) / 2) (parents f t) sibs

/-- The pairs that are combined on a climb. -/
def climbPairs (f : N → N → N) : ℕ → ℕ → List (ℕ × N) → List N → List (N × N)
  | 0, _, _, _ => []
  | k + 1, size, cur, sibs =>
    match pairLevel size cur sibs with
    | none => []
    | some (t, sibs) => t.map (·.2) ++ climbPairs f k ((size + 1) / 2) (parents f t) sibs

/-- A node is a component of the pair it is put into: the left one at an even index, the
right one at an odd index. -/
def OnItsSide (pos : ℕ) (d : N) (p : N × N) : Prop :=
  (pos % 2 = 0 ∧ p.1 = d) ∨ (pos % 2 = 1 ∧ p.2 = d)

variable {sibs sibs' : List N}

theorem partner_onItsSide {size pos : ℕ} {d : N}
    (h : partner size pos d sibs = some (p, sibs')) : OnItsSide pos d p := by
  unfold partner at h
  by_cases h2 : pos % 2 = 0
  · rw [if_pos h2] at h
    refine .inl ⟨h2, ?_⟩
    split at h
    · obtain ⟨rfl, -⟩ := Prod.mk.inj (Option.some.inj h)
      rfl
    · cases sibs with
      | nil => simp at h
      | cons s sibs =>
        obtain ⟨rfl, -⟩ := Prod.mk.inj (Option.some.inj h)
        rfl
  · rw [if_neg h2] at h
    refine .inr ⟨by omega, ?_⟩
    cases sibs with
    | nil => simp at h
    | cons s sibs =>
      obtain ⟨rfl, -⟩ := Prod.mk.inj (Option.some.inj h)
      rfl

variable {cur : List (ℕ × N)} {t : List (ℕ × (N × N))}

/-- Every held node ends up, on its side, in a pair whose parent sits above it, and every
parent sits above a held node. -/
theorem pairLevel_spec {size : ℕ} (h : pairLevel size cur sibs = some (t, sibs')) :
    (∀ x ∈ cur, ∃ p, (x.1 / 2, p) ∈ t ∧ OnItsSide x.1 x.2 p) ∧
      ∀ y ∈ t, ∃ x ∈ cur, y.1 = x.1 / 2 := by
  fun_induction pairLevel size cur sibs generalizing t sibs' with
  | case1 sibs =>
    obtain ⟨rfl, -⟩ := Prod.mk.inj (Option.some.inj h)
    simp
  | case2 pos d sibs =>
    obtain ⟨⟨p, s⟩, hp, h⟩ := Option.bind_eq_some_iff.1 h
    obtain ⟨rfl, -⟩ := Prod.mk.inj (Option.some.inj h)
    refine ⟨fun x hx => ?_, fun y hy => ?_⟩
    · obtain rfl := List.mem_singleton.1 hx
      exact ⟨p, List.mem_singleton.2 rfl, partner_onItsSide hp⟩
    · obtain rfl := List.mem_singleton.1 hy
      exact ⟨(pos, d), List.mem_singleton.2 rfl, rfl⟩
  | case3 pos d q e cur sibs hq ih =>
    obtain ⟨⟨t, s⟩, ht, h⟩ := Option.bind_eq_some_iff.1 h
    obtain ⟨rfl, -⟩ := Prod.mk.inj (Option.some.inj h)
    obtain ⟨hpos, rfl⟩ := hq
    obtain ⟨ihcur, iht⟩ := ih ht
    refine ⟨fun x hx => ?_, fun y hy => ?_⟩
    · rcases List.mem_cons.1 hx with rfl | hx
      · exact ⟨(d, e), List.mem_cons_self, .inl ⟨hpos, rfl⟩⟩
      rcases List.mem_cons.1 hx with rfl | hx
      · refine ⟨(d, e), ?_, .inr ⟨by dsimp only; omega, rfl⟩⟩
        rw [show (pos + 1) / 2 = pos / 2 by omega]
        exact List.mem_cons_self
      · obtain ⟨p, hp, hside⟩ := ihcur x hx
        exact ⟨p, List.mem_cons_of_mem _ hp, hside⟩
    · rcases List.mem_cons.1 hy with rfl | hy
      · exact ⟨(pos, d), List.mem_cons_self, rfl⟩
      · obtain ⟨x, hx, hxy⟩ := iht y hy
        exact ⟨x, List.mem_cons_of_mem _ (List.mem_cons_of_mem _ hx), hxy⟩
  | case4 pos d q e cur sibs hq ih =>
    obtain ⟨⟨p, s⟩, hp, h⟩ := Option.bind_eq_some_iff.1 h
    obtain ⟨⟨t, s'⟩, ht, h⟩ := Option.bind_eq_some_iff.1 h
    obtain ⟨rfl, -⟩ := Prod.mk.inj (Option.some.inj h)
    obtain ⟨ihcur, iht⟩ := ih s ht
    refine ⟨fun x hx => ?_, fun y hy => ?_⟩
    · rcases List.mem_cons.1 hx with rfl | hx
      · exact ⟨p, List.mem_cons_self, partner_onItsSide hp⟩
      · obtain ⟨p', hp', hside⟩ := ihcur x hx
        exact ⟨p', List.mem_cons_of_mem _ hp', hside⟩
    · rcases List.mem_cons.1 hy with rfl | hy
      · exact ⟨(pos, d), List.mem_cons_self, rfl⟩
      · obtain ⟨x, hx, hxy⟩ := iht y hy
        exact ⟨x, List.mem_cons_of_mem _ hx, hxy⟩

/-- Held nodes in range have parents in range. -/
theorem parents_lt_of_pairLevel {size n : ℕ} 
    (h : pairLevel size cur sibs = some (t, sibs')) (hcur : ∀ x ∈ cur, x.1 < n) :
    ∀ y ∈ parents f t, y.1 < (n + 1) / 2 := by
  intro y hy
  obtain ⟨z, hz, rfl⟩ := List.mem_map.1 hy
  obtain ⟨x, hx, hzx⟩ := (pairLevel_spec h).2 z hz
  have := hcur x hx
  dsimp only
  omega

/-- The held nodes are nodes of the level `l`. -/
def Held (l : List N) (cur : List (ℕ × N)) : Prop :=
  ∀ x ∈ cur, l[x.1]? = some x.2

section Soundness

variable {f : N → N → N} {S : Set (N × N)}

variable {l : List N} {cur : List (ℕ × N)} {sibs sibs' : List N}

/-- **One level.** When the parents are nodes of the next level, the held nodes are nodes of
this one: the pair above a held node is the level's own pair at that place. -/
theorem held_of_pairLevel (hS : Set.InjOn (parent f) S) {t : List (ℕ × (N × N))}
    (h : pairLevel l.length cur sibs = some (t, sibs')) (hcur : ∀ x ∈ cur, x.1 < l.length)
    (hl : ∀ p ∈ pairs l, p ∈ S) (ht : ∀ y ∈ t, y.2 ∈ S) (hup : Held (up f l) (parents f t)) :
    Held l cur := by
  intro x hx
  obtain ⟨p, hp, hside⟩ := (pairLevel_spec h).1 x hx
  have hxl := hcur x hx
  -- The level's own pair above `x` has the same parent, so it is `p`.
  have hpar : (up f l)[x.1 / 2]? = some (parent f p) :=
    hup (x.1 / 2, parent f p) (List.mem_map.2 ⟨_, hp, rfl⟩)
  rw [up, List.getElem?_map, Option.map_eq_some_iff] at hpar
  obtain ⟨p', hp', hpp⟩ := hpar
  obtain rfl : p' = p := hS (hl p' (List.mem_of_getElem? hp')) (ht _ hp) hpp
  rcases hside with ⟨h2, hd⟩ | ⟨h2, hd⟩
  · have hleft := getElem?_pairs_left hp'
    rwa [show 2 * (x.1 / 2) = x.1 by omega, hd] at hleft
  · have hright := getElem?_pairs_right hp' (by omega)
    rwa [show 2 * (x.1 / 2) + 1 = x.1 by omega, hd] at hright

/-- The number of levels above the leaves, halved. -/
theorem size_pred_of_one_lt {n : ℕ} (h : 1 < n) :
    Nat.size (n - 1) = Nat.size ((n + 1) / 2 - 1) + 1 := by
  have hbit : Nat.bit (Nat.bodd (n - 1)) (Nat.div2 (n - 1)) = n - 1 := Nat.bit_bodd_div2 _
  rw [show (n + 1) / 2 - 1 = Nat.div2 (n - 1) by rw [Nat.div2_val]; omega]
  conv_lhs => rw [← hbit]
  exact Nat.size_bit (by rw [hbit]; omega)

variable {cur' : List (ℕ × N)}

/-- A climb of a whole tree ends at index 0. -/
theorem climb_index {n : ℕ}
    (hn : 0 < n) (h : climb f (Nat.size (n - 1)) n cur sibs = some (cur', sibs'))
    (hcur : ∀ x ∈ cur, x.1 < n) : ∀ x ∈ cur', x.1 = 0 := by
  induction n using Nat.strong_induction_on generalizing cur sibs with
  | _ n ih =>
    by_cases h1 : 1 < n
    · rw [size_pred_of_one_lt h1, climb] at h
      simp only [Option.bind_eq_bind, Option.bind_eq_some_iff, Prod.exists] at h
      obtain ⟨t, s, ht, h⟩ := h
      exact ih ((n + 1) / 2) (by omega) (by omega) h (parents_lt_of_pairLevel ht hcur)
    · obtain rfl : n = 1 := by omega
      simp only [Nat.sub_self, Nat.size_zero, climb, Option.some.injEq, Prod.mk.injEq] at h
      obtain ⟨rfl, -⟩ := h
      intro x hx
      have := hcur x hx
      omega

/-- **Soundness of a climb.** If the nodes held at the end of a climb of a tree of
`l.length` leaves are nodes of the top of the tree over `l`, then the nodes held at the start
are leaves of `l`, each at its index. -/
theorem climb_sound (hS : Set.InjOn (parent f) S)
    (h : climb f (Nat.size (l.length - 1)) l.length cur sibs = some (cur', sibs'))
    (hcur : ∀ x ∈ cur, x.1 < l.length) (hl : ∀ p ∈ nodePairs f l, p ∈ S)
    (hc : ∀ p ∈ climbPairs f (Nat.size (l.length - 1)) l.length cur sibs, p ∈ S)
    (htop : Held (topLevel f l) cur') : Held l cur := by
  fun_induction topLevel f l generalizing cur sibs with
  | case1 l h1 ih =>
    rw [size_pred_of_one_lt h1, climb] at h
    simp only [Option.bind_eq_bind, Option.bind_eq_some_iff, Prod.exists] at h
    obtain ⟨t, s, ht, h⟩ := h
    rw [size_pred_of_one_lt h1, climbPairs, ht] at hc
    rw [nodePairs_of_one_lt h1] at hl
    rw [← length_up f l] at h hc
    have hup : Held (up f l) (parents f t) := by
      refine ih h ?_ (fun p hp => hl p (List.mem_append_right _ hp))
        (fun p hp => hc p (List.mem_append_right _ hp)) htop
      rw [length_up]
      exact parents_lt_of_pairLevel ht hcur
    exact held_of_pairLevel hS ht hcur (fun p hp => hl p (List.mem_append_left _ hp))
      (fun y hy => hc _ (List.mem_append_left _ (List.mem_map_of_mem hy))) hup
  | case2 l h1 =>
    rw [show l.length - 1 = 0 by omega, Nat.size_zero, climb] at h
    obtain ⟨rfl, -⟩ := Prod.mk.inj (Option.some.inj h)
    exact htop

end Soundness

end Bmt
