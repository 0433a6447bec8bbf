import Mathlib.Data.Finset.Card
import Mathlib.Data.List.Lex
import Mkit.Lib.Bmt

/-!
# Complete Multi-Leaf Proofs

Which nodes of a tree a verifier of many leaves has to be given. In a level of `size` nodes of
which some are held, a node needs its `siblingIndex` unless it is its own sibling or the sibling
is held too; these are the `missing` indices of the level, in ascending order. `proofNodes` are
the nodes at the missing indices of every level, from the leaves up.

## Main results

* `mem_missing` — the missing indices are exactly the siblings that are not held;
* `climb_complete` — a climb that is given `proofNodes` uses all of them and reaches the top;
* `length_missing_le`, `length_missing_le_half` — how many nodes a level needs.
-/

namespace Bmt

variable {N : Type*}

/-! ### Siblings -/

/-- The index of the sibling in a level of `size` nodes; an odd last node is its own. -/
def siblingIndex (size index : ℕ) : ℕ :=
  if index % 2 = 0 then
    if index + 1 < size then index + 1 else index
  else index - 1

theorem siblingIndex_half (size index : ℕ) : siblingIndex size index / 2 = index / 2 := by
  rw [siblingIndex]
  split_ifs <;> omega

theorem siblingIndex_lt {size index : ℕ} (h : index < size) : siblingIndex size index < size := by
  rw [siblingIndex]
  split_ifs <;> omega

/-- What a node needs whose partner is not held. -/
def lone (size index : ℕ) : List ℕ :=
  if siblingIndex size index = index then [] else [siblingIndex size index]

variable {i : ℕ}

theorem mem_lone {size index : ℕ} :
    i ∈ lone size index ↔ i = siblingIndex size index ∧ i ≠ index := by
  rw [lone]
  split_ifs with h
  · rw [h]
    simp
  · rw [List.mem_singleton]
    exact ⟨fun hi => ⟨hi, fun hne => h (hi ▸ hne)⟩, And.left⟩

/-- The siblings that the held nodes of a level need, in ascending order. -/
def missing (size : ℕ) : List ℕ → List ℕ
  | [] => []
  | [p] => lone size p
  | p :: q :: cur =>
    if p % 2 = 0 ∧ q = p + 1 then missing size cur
    else lone size p ++ missing size (q :: cur)

/-- The indices of the parents of the held nodes. -/
def halves : List ℕ → List ℕ
  | [] => []
  | [p] => [p / 2]
  | p :: q :: cur =>
    if p % 2 = 0 ∧ q = p + 1 then p / 2 :: halves cur
    else p / 2 :: halves (q :: cur)

variable {p q : ℕ} {cur : List ℕ}

/-- Behind a held pair the parents are further right. -/
theorem half_lt_of_pair (h : (p :: q :: cur).Pairwise (· < ·))
    (hpair : p % 2 = 0 ∧ q = p + 1) : ∀ c ∈ cur, p / 2 < c / 2 := by
  intro c hc
  have hqc := (List.pairwise_cons.1 (List.pairwise_cons.1 h).2).1 c hc
  omega

/-- Behind a node whose partner is not held the parents are further right. -/
theorem half_lt_of_lone (h : (p :: q :: cur).Pairwise (· < ·))
    (hpair : ¬ (p % 2 = 0 ∧ q = p + 1)) : ∀ c ∈ q :: cur, p / 2 < c / 2 := by
  obtain ⟨hp, hq⟩ := List.pairwise_cons.1 h
  have hpq := hp q List.mem_cons_self
  intro c hc
  have hqc : q ≤ c := by
    rcases List.mem_cons.1 hc with rfl | hc
    · exact le_refl _
    · exact le_of_lt ((List.pairwise_cons.1 hq).1 c hc)
  omega

theorem mem_halves : i ∈ halves cur ↔ ∃ p ∈ cur, i = p / 2 := by
  fun_induction halves cur with
  | case1 => simp
  | case2 p => simp
  | case3 p q cur hpair ih =>
    have hq : q / 2 = p / 2 := by omega
    rw [List.mem_cons, ih, List.exists_mem_cons_iff, List.exists_mem_cons_iff, hq, ← or_assoc,
      or_self]
  | case4 p q cur hpair ih =>
    rw [List.mem_cons, ih]
    simp only [List.mem_cons, exists_eq_or_imp]

theorem sorted_halves (h : cur.Pairwise (· < ·)) : (halves cur).Pairwise (· < ·) := by
  fun_induction halves cur with
  | case1 => exact List.Pairwise.nil
  | case2 p => exact List.pairwise_singleton _ _
  | case3 p q cur hpair ih =>
    refine List.pairwise_cons.2 ⟨fun i hi => ?_, ih h.tail.tail⟩
    obtain ⟨c, hc, rfl⟩ := mem_halves.1 hi
    exact half_lt_of_pair h hpair c hc
  | case4 p q cur hpair ih =>
    refine List.pairwise_cons.2 ⟨fun i hi => ?_, ih h.tail⟩
    obtain ⟨c, hc, rfl⟩ := mem_halves.1 hi
    exact half_lt_of_lone h hpair c hc

theorem halves_ne_nil (h : cur ≠ []) : halves cur ≠ [] := by
  obtain ⟨p, hp⟩ := List.exists_mem_of_ne_nil cur h
  exact List.ne_nil_of_mem (mem_halves.2 ⟨p, hp, rfl⟩)

theorem length_halves_le (cur : List ℕ) : (halves cur).length ≤ cur.length := by
  fun_induction halves cur with
  | case1 => simp
  | case2 p => simp
  | case3 p q cur hpair ih =>
    simp only [List.length_cons]
    omega
  | case4 p q cur hpair ih =>
    simp only [List.length_cons] at ih ⊢
    omega

/-- A missing node has a held sibling. -/
theorem exists_of_mem_missing {size : ℕ} (h : i ∈ missing size cur) :
    ∃ p ∈ cur, i = siblingIndex size p ∧ i ≠ p := by
  fun_induction missing size cur with
  | case1 => exact absurd h List.not_mem_nil
  | case2 p => exact ⟨p, List.mem_singleton.2 rfl, mem_lone.1 h⟩
  | case3 p q cur hpair ih =>
    obtain ⟨c, hc, hi⟩ := ih h
    exact ⟨c, List.mem_cons_of_mem _ (List.mem_cons_of_mem _ hc), hi⟩
  | case4 p q cur hpair ih =>
    rcases List.mem_append.1 h with h | h
    · exact ⟨p, List.mem_cons_self, mem_lone.1 h⟩
    · obtain ⟨c, hc, hi⟩ := ih h
      exact ⟨c, List.mem_cons_of_mem _ hc, hi⟩

theorem half_of_mem_missing {size : ℕ} (h : i ∈ missing size cur) : ∃ p ∈ cur, i / 2 = p / 2 := by
  obtain ⟨p, hp, rfl, -⟩ := exists_of_mem_missing h
  exact ⟨p, hp, siblingIndex_half size p⟩

/-- **The missing indices** are the siblings of held nodes that are not held themselves. -/
theorem mem_missing {size : ℕ} (hasc : cur.Pairwise (· < ·)) (hlt : ∀ p ∈ cur, p < size) :
    i ∈ missing size cur ↔ ∃ p ∈ cur, i = siblingIndex size p ∧ i ≠ p ∧ i ∉ cur := by
  fun_induction missing size cur with
  | case1 => simp
  | case2 p => simp [mem_lone]
  | case3 p q cur hpair ih =>
    have hright := half_lt_of_pair hasc hpair
    rw [ih hasc.tail.tail fun c hc => hlt c (List.mem_cons_of_mem _ (List.mem_cons_of_mem _ hc))]
    obtain ⟨heven, rfl⟩ := hpair
    have hsize := hlt (p + 1) (List.mem_cons_of_mem _ List.mem_cons_self)
    constructor
    · rintro ⟨c, hc, rfl, hne, hnot⟩
      have hhalf := siblingIndex_half size c
      have hc' := hright c hc
      refine ⟨c, List.mem_cons_of_mem _ (List.mem_cons_of_mem _ hc), rfl, hne, ?_⟩
      rw [List.mem_cons, List.mem_cons, not_or, not_or]
      exact ⟨by omega, by omega, hnot⟩
    · rintro ⟨c, hc, rfl, hne, hnot⟩
      rw [List.mem_cons, List.mem_cons, not_or, not_or] at hnot
      obtain ⟨hnp, hnq, hnot⟩ := hnot
      -- Neither of the two held partners is a missing one's sibling.
      rcases List.mem_cons.1 hc with rfl | hc
      · rw [siblingIndex, if_pos heven, if_pos hsize] at hnq
        exact absurd rfl hnq
      · rcases List.mem_cons.1 hc with rfl | hc
        · rw [siblingIndex, if_neg (by omega)] at hnp
          exact absurd (by omega) hnp
        · exact ⟨c, hc, rfl, hne, hnot⟩
  | case4 p q cur hpair ih =>
    have hright := half_lt_of_lone hasc hpair
    rw [List.mem_append, mem_lone,
      ih hasc.tail fun c hc => hlt c (List.mem_cons_of_mem _ hc)]
    constructor
    · rintro (⟨rfl, hne⟩ | ⟨c, hc, rfl, hne, hnot⟩)
      · refine ⟨p, List.mem_cons_self, rfl, hne, ?_⟩
        rw [List.mem_cons, not_or]
        refine ⟨hne, fun hmem => ?_⟩
        have hhalf := siblingIndex_half size p
        have hc' := hright _ hmem
        omega
      · refine ⟨c, List.mem_cons_of_mem _ hc, rfl, hne, ?_⟩
        rw [List.mem_cons, not_or]
        have hhalf := siblingIndex_half size c
        have hc' := hright c hc
        exact ⟨by omega, hnot⟩
    · rintro ⟨c, hc, rfl, hne, hnot⟩
      rw [List.mem_cons, not_or] at hnot
      rcases List.mem_cons.1 hc with rfl | hc
      · exact .inl ⟨rfl, hne⟩
      · exact .inr ⟨c, hc, rfl, hne, hnot.2⟩

/-- The parents of the missing nodes ascend. -/
theorem sorted_missing_half (size : ℕ) (h : cur.Pairwise (· < ·)) :
    (missing size cur).Pairwise fun i j => i / 2 < j / 2 := by
  have hlone : ∀ p, (lone size p).Pairwise fun i j => i / 2 < j / 2 := by
    intro p
    rw [lone]
    split_ifs
    · exact List.Pairwise.nil
    · exact List.pairwise_singleton _ _
  fun_induction missing size cur with
  | case1 => exact List.Pairwise.nil
  | case2 p => exact hlone p
  | case3 p q cur hpair ih => exact ih h.tail.tail
  | case4 p q cur hpair ih =>
    refine List.pairwise_append.2 ⟨hlone p, ih h.tail, fun i hi j hj => ?_⟩
    obtain ⟨rfl, -⟩ := mem_lone.1 hi
    obtain ⟨c, hc, hj⟩ := half_of_mem_missing hj
    rw [siblingIndex_half, hj]
    exact half_lt_of_lone h hpair c hc

theorem sorted_missing (size : ℕ) (h : cur.Pairwise (· < ·)) :
    (missing size cur).Pairwise (· < ·) :=
  (sorted_missing_half size h).imp fun hij => by omega

theorem missing_lt {size : ℕ} (hlt : ∀ p ∈ cur, p < size) : ∀ i ∈ missing size cur, i < size := by
  intro i hi
  obtain ⟨p, hp, rfl, -⟩ := exists_of_mem_missing hi
  exact siblingIndex_lt (hlt p hp)

/-! ### How many -/

/-- A level needs no more nodes than are held. -/
theorem length_missing_le (size : ℕ) (cur : List ℕ) : (missing size cur).length ≤ cur.length := by
  have hlone : ∀ p, (lone size p).length ≤ 1 := by
    intro p
    rw [lone]
    split_ifs <;> simp
  fun_induction missing size cur with
  | case1 => simp
  | case2 p => exact hlone p
  | case3 p q cur hpair ih =>
    simp only [List.length_cons]
    omega
  | case4 p q cur hpair ih =>
    have hp := hlone p
    rw [List.length_append, List.length_cons]
    omega

/-- Ascending numbers below a bound are no more than the bound. -/
theorem length_le_of_sorted {l : List ℕ} {n : ℕ} (h : l.Pairwise (· < ·))
    (hlt : ∀ i ∈ l, i < n) : l.length ≤ n := by
  have hnodup : l.Nodup := h.imp fun h => ne_of_lt h
  rw [← List.toFinset_card_of_nodup hnodup, ← Finset.card_range n]
  exact Finset.card_le_card fun i hi => Finset.mem_range.2 (hlt i (List.mem_toFinset.1 hi))

/-- A level needs one node of each full pair at most. -/
theorem length_missing_le_half {size : ℕ} (h : cur.Pairwise (· < ·))
    (hlt : ∀ p ∈ cur, p < size) : (missing size cur).length ≤ size / 2 := by
  rw [← List.length_map (· / 2)]
  refine length_le_of_sorted (List.pairwise_map.2 (sorted_missing_half size h)) fun j hj => ?_
  obtain ⟨i, hi, rfl⟩ := List.mem_map.1 hj
  obtain ⟨p, hp, hip, hne⟩ := exists_of_mem_missing hi
  have hpsize := hlt p hp
  have hisize := missing_lt hlt i hi
  have hhalf := siblingIndex_half size p
  omega

/-! ### Completeness -/

variable {l : List N}

/-- The pair above a node. -/
theorem getElem?_pairs {a : N} (h : l[2 * i]? = some a) :
    (pairs l)[i]? = some (a, (l[2 * i + 1]?).getD a) := by
  fun_induction pairs l generalizing i with
  | case1 => simp at h
  | case2 x =>
    obtain ⟨hi, rfl⟩ := List.getElem?_eq_some_iff.1 h
    obtain rfl : i = 0 := by
      simp only [List.length_singleton] at hi
      omega
    rfl
  | case3 x y l ih =>
    cases i with
    | zero =>
      obtain rfl : x = a := by simpa using h
      rfl
    | succ i =>
      have htail : l[2 * i]? = some a := by simpa [Nat.mul_add] using h
      simpa [Nat.mul_add] using ih htail

/-- The nodes at some indices of a level. -/
def Supplies (l : List N) : List ℕ → List N → Prop :=
  List.Forall₂ fun i s => l[i]? = some s

variable {is : List ℕ} {sibs : List N}

theorem supplies_append {js : List ℕ} (h : Supplies l (is ++ js) sibs) :
    ∃ lead tail, Supplies l is lead ∧ Supplies l js tail ∧ sibs = lead ++ tail := by
  induction is generalizing sibs with
  | nil => exact ⟨[], sibs, List.Forall₂.nil, h, rfl⟩
  | cons i is ih =>
    obtain ⟨s, rest, hs, hrest, rfl⟩ := List.forall₂_cons_left_iff.1 h
    obtain ⟨lead, tail, hlead, htail, rfl⟩ := ih hrest
    exact ⟨s :: lead, tail, List.Forall₂.cons hs hlead, htail, rfl⟩

/-- A node whose partner is not held is paired as in the tree, with what it needs. -/
theorem partner_complete {pos : ℕ} {d : N} (rest : List N)
    (hd : l[pos]? = some d) (hs : Supplies l (lone l.length pos) sibs) :
    ∃ p, partner l.length pos d (sibs ++ rest) = some (p, rest) ∧
      (pairs l)[pos / 2]? = some p := by
  have hlt : pos < l.length := (List.getElem?_eq_some_iff.1 hd).1
  rw [lone, siblingIndex] at hs
  unfold partner
  by_cases heven : pos % 2 = 0
  · have hpos : 2 * (pos / 2) = pos := by omega
    have hpair := getElem?_pairs (l := l) (i := pos / 2) (a := d) (by rw [hpos, hd])
    rw [hpos] at hpair
    rw [if_pos heven] at hs ⊢
    by_cases hlast : l.length ≤ pos + 1
    · rw [if_neg (by omega : ¬ pos + 1 < l.length), if_pos rfl] at hs
      obtain rfl := List.forall₂_nil_left_iff.1 hs
      rw [if_pos hlast]
      rw [List.getElem?_eq_none hlast] at hpair
      exact ⟨_, rfl, hpair⟩
    · rw [if_pos (by omega : pos + 1 < l.length), if_neg (by omega)] at hs
      obtain ⟨s, sibs, hnode, hnil, rfl⟩ := List.forall₂_cons_left_iff.1 hs
      obtain rfl := List.forall₂_nil_left_iff.1 hnil
      rw [if_neg hlast]
      rw [hnode] at hpair
      exact ⟨_, rfl, hpair⟩
  · rw [if_neg heven] at hs ⊢
    rw [if_neg (by omega)] at hs
    obtain ⟨s, sibs, hnode, hnil, rfl⟩ := List.forall₂_cons_left_iff.1 hs
    obtain rfl := List.forall₂_nil_left_iff.1 hnil
    have hpair := getElem?_pairs (l := l) (i := pos / 2) (a := s)
      (by rw [show 2 * (pos / 2) = pos - 1 by omega, hnode])
    rw [show 2 * (pos / 2) + 1 = pos by omega, hd] at hpair
    exact ⟨_, rfl, hpair⟩

/-- **One level.** Given the missing nodes, the held nodes of a level are paired as in the
tree, and nothing else is used up. -/
theorem pairLevel_complete (rest : List N) : ∀ (cur : List (ℕ × N)) (sibs : List N),
    Held l cur → Supplies l (missing l.length (cur.map Prod.fst)) sibs →
    ∃ t, pairLevel l.length cur (sibs ++ rest) = some (t, rest) ∧
      t.map Prod.fst = halves (cur.map Prod.fst) ∧ ∀ y ∈ t, (pairs l)[y.1]? = some y.2
  | [], sibs, _, hs => by
      obtain rfl := List.forall₂_nil_left_iff.1 hs
      exact ⟨[], rfl, rfl, by simp⟩
  | [(p, d)], sibs, hheld, hs => by
      obtain ⟨lr, hpartner, hpair⟩ :=
        partner_complete rest (hheld (p, d) (List.mem_singleton.2 rfl)) hs
      refine ⟨[(p / 2, lr)], ?_, rfl, by simpa using hpair⟩
      rw [pairLevel, hpartner]
      rfl
  | (p, d) :: (q, e) :: cur, sibs, hheld, hs => by
      have hd := hheld (p, d) List.mem_cons_self
      have he := hheld (q, e) (List.mem_cons_of_mem _ List.mem_cons_self)
      by_cases hq : p % 2 = 0 ∧ q = p + 1
      · rw [List.map_cons, List.map_cons, missing, if_pos hq] at hs
        obtain ⟨t, ht, hfst, hmem⟩ := pairLevel_complete rest cur sibs
          (fun x hx => hheld x (List.mem_cons_of_mem _ (List.mem_cons_of_mem _ hx))) hs
        refine ⟨(p / 2, (d, e)) :: t, ?_, ?_, List.forall_mem_cons.2 ⟨?_, hmem⟩⟩
        · rw [pairLevel, if_pos hq, ht]
          rfl
        · rw [List.map_cons, hfst, List.map_cons, List.map_cons, halves, if_pos hq]
        · have hpos : 2 * (p / 2) = p := by omega
          have hpair := getElem?_pairs (l := l) (i := p / 2) (a := d) (by rw [hpos]; exact hd)
          rw [hpos, ← hq.2] at hpair
          rw [hpair, he]
          rfl
      · rw [List.map_cons, List.map_cons, missing, if_neg hq] at hs
        obtain ⟨lead, tail, hlead, htail, rfl⟩ := supplies_append hs
        obtain ⟨lr, hpartner, hpair⟩ := partner_complete (tail ++ rest) hd hlead
        obtain ⟨t, ht, hfst, hmem⟩ := pairLevel_complete rest ((q, e) :: cur) tail
          (fun x hx => hheld x (List.mem_cons_of_mem _ hx)) htail
        refine ⟨(p / 2, lr) :: t, ?_, ?_, List.forall_mem_cons.2 ⟨hpair, hmem⟩⟩
        · rw [pairLevel, if_neg hq, List.append_assoc, hpartner]
          dsimp only [bind, Option.bind]
          rw [ht]
        · rw [List.map_cons, hfst]
          simp only [List.map_cons]
          rw [halves, if_neg hq]

/-- The nodes a climb of `k` levels has to be given. -/
def proofNodes (f : N → N → N) : ℕ → List N → List ℕ → List N
  | 0, _, _ => []
  | k + 1, l, held =>
    (missing l.length held).filterMap (l[·]?) ++ proofNodes f k (up f l) (halves held)

/-- Indices in range have nodes. -/
theorem supplies_filterMap (h : ∀ i ∈ is, i < l.length) : Supplies l is (is.filterMap (l[·]?)) := by
  induction is with
  | nil => exact List.Forall₂.nil
  | cons i is ih =>
    obtain ⟨hi, his⟩ := List.forall_mem_cons.1 h
    have hget : l[i]? = some l[i] := List.getElem?_eq_getElem hi
    rw [List.filterMap_cons_some hget]
    exact List.Forall₂.cons hget (ih his)

theorem halves_lt {size : ℕ} {held : List ℕ} (h : ∀ p ∈ held, p < size) :
    ∀ i ∈ halves held, i < (size + 1) / 2 := by
  intro i hi
  obtain ⟨p, hp, rfl⟩ := mem_halves.1 hi
  have hlt := h p hp
  omega

variable {f : N → N → N}

/-- **Completeness of a climb.** Held leaves of a tree, with the nodes they need, lead to its
top, and no node is left over. -/
theorem climb_complete {cur : List (ℕ × N)} (hheld : Held l cur)
    (hasc : (cur.map Prod.fst).Pairwise (· < ·)) (hne : cur ≠ []) {top : N}
    (htop : topLevel f l = [top]) : climb f (Nat.size (l.length - 1)) l.length cur
      (proofNodes f (Nat.size (l.length - 1)) l (cur.map Prod.fst)) = some ([(0, top)], []) := by
  have hlt : ∀ p ∈ cur.map Prod.fst, p < l.length := by
    intro p hp
    obtain ⟨x, hx, rfl⟩ := List.mem_map.1 hp
    exact (List.getElem?_eq_some_iff.1 (hheld x hx)).1
  fun_induction topLevel f l generalizing cur with
  | case1 l h1 ih =>
    rw [size_pred_of_one_lt h1, climb, proofNodes]
    obtain ⟨t, ht, hfst, hmem⟩ := pairLevel_complete
      (proofNodes f (Nat.size ((l.length + 1) / 2 - 1)) (up f l) (halves (cur.map Prod.fst)))
      cur _ hheld (supplies_filterMap (missing_lt hlt))
    rw [ht]
    have hparents : (parents f t).map Prod.fst = halves (cur.map Prod.fst) := by
      rw [← hfst, parents, List.map_map]
      rfl
    have hup : Held (up f l) (parents f t) := by
      intro y hy
      obtain ⟨z, hz, rfl⟩ := List.mem_map.1 hy
      rw [up, List.getElem?_map, hmem z hz]
      rfl
    have hnext : parents f t ≠ [] := by
      intro hnil
      rw [hnil, List.map_nil] at hparents
      exact halves_ne_nil (by simpa using hne) hparents.symm
    have hclimb := ih hup (hparents ▸ sorted_halves hasc) hnext htop
      (by rw [hparents, length_up]; exact halves_lt hlt)
    rw [hparents, length_up] at hclimb
    exact hclimb
  | case2 l h1 =>
    subst htop
    obtain ⟨x, cur, rfl⟩ := List.exists_cons_of_ne_nil hne
    have hx : x.1 = 0 := by
      have hx := hlt x.1 (by simp)
      simp only [List.length_singleton] at hx
      omega
    have hnil : cur = [] := by
      rcases cur with _ | ⟨y, cur⟩
      · rfl
      · have hxy := (List.pairwise_cons.1 hasc).1 y.1 (by simp)
        have hy := hlt y.1 (by simp)
        simp only [List.length_singleton] at hy
        omega
    subst hnil
    have hget := hheld x List.mem_cons_self
    rw [hx] at hget
    obtain ⟨i, d⟩ := x
    obtain rfl : i = 0 := hx
    obtain rfl : top = d := by simpa using hget
    rfl

/-! ### Where the nodes are -/

/-- The level and the index of the nodes a climb of `k` levels has to be given. -/
def proofPositions : ℕ → ℕ → List ℕ → List (ℕ × ℕ)
  | 0, _, _ => []
  | k + 1, size, held =>
    (missing size held).map (fun i => (0, i)) ++
      (proofPositions k ((size + 1) / 2) (halves held)).map fun p => (p.1 + 1, p.2)

/-- The positions ascend level by level, and within a level. -/
theorem sorted_proofPositions (k size : ℕ) {held : List ℕ} (h : held.Pairwise (· < ·)) :
    (proofPositions k size held).Pairwise fun p q => p.1 < q.1 ∨ p.1 = q.1 ∧ p.2 < q.2 := by
  induction k generalizing size held with
  | zero => exact List.Pairwise.nil
  | succ k ih =>
    rw [proofPositions, List.pairwise_append, List.pairwise_map, List.pairwise_map]
    refine ⟨(sorted_missing size h).imp fun hij => .inr ⟨rfl, hij⟩,
      (ih _ (sorted_halves h)).imp fun hpq => ?_, fun p hp q hq => .inl ?_⟩
    · rcases hpq with hpq | ⟨hpq, hlt⟩
      · exact .inl (Nat.succ_lt_succ hpq)
      · exact .inr ⟨congrArg (· + 1) hpq, hlt⟩
    · obtain ⟨i, -, rfl⟩ := List.mem_map.1 hp
      obtain ⟨r, -, rfl⟩ := List.mem_map.1 hq
      exact Nat.succ_pos _

/-- The nodes of a list of levels at some positions. -/
def nodesAt (levels : List (List N)) (positions : List (ℕ × ℕ)) : Option (List N) :=
  positions.mapM fun p => levels[p.1]?.bind fun level => level[p.2]?

theorem nodesAt_append (levels : List (List N)) (ps qs : List (ℕ × ℕ)) :
    nodesAt levels (ps ++ qs) = (do
      let a ← nodesAt levels ps
      let b ← nodesAt levels qs
      some (a ++ b)) := by
  rw [nodesAt, List.mapM_append]
  rfl

/-- Positions above the first level. -/
theorem nodesAt_cons_succ (l : List N) (levels : List (List N)) (ps : List (ℕ × ℕ)) :
    nodesAt (l :: levels) (ps.map fun p => (p.1 + 1, p.2)) = nodesAt levels ps := by
  induction ps with
  | nil => rfl
  | cons p ps ih =>
    rw [nodesAt, nodesAt, List.map_cons, List.mapM_cons, List.mapM_cons]
    rw [nodesAt, nodesAt] at ih
    rw [ih]
    rfl

/-- Positions in the first level. -/
theorem nodesAt_cons_zero (levels : List (List N)) (h : ∀ i ∈ is, i < l.length) :
    nodesAt (l :: levels) (is.map fun i => (0, i)) = some (is.filterMap (l[·]?)) := by
  induction is with
  | nil => rfl
  | cons i is ih =>
    obtain ⟨hi, his⟩ := List.forall_mem_cons.1 h
    have hget : l[i]? = some l[i] := List.getElem?_eq_getElem hi
    have hrest := ih his
    rw [nodesAt] at hrest
    rw [nodesAt, List.map_cons, List.mapM_cons, hrest, List.filterMap_cons_some hget]
    simp [hget]

/-- **The nodes at the positions** are the ones a climb needs. -/
theorem nodesAt_proofPositions {held : List ℕ} (hlt : ∀ p ∈ held, p < l.length) :
    nodesAt (levels f l) (proofPositions (Nat.size (l.length - 1)) l.length held) =
      some (proofNodes f (Nat.size (l.length - 1)) l held) := by
  fun_induction levels f l generalizing held with
  | case1 l h1 ih =>
    rw [size_pred_of_one_lt h1, proofPositions, proofNodes, nodesAt_append,
      nodesAt_cons_zero _ (missing_lt hlt), nodesAt_cons_succ]
    have hrest := @ih (halves held) (by rw [length_up]; exact halves_lt hlt)
    rw [length_up] at hrest
    rw [hrest]
    rfl
  | case2 l h1 =>
    have hone : l.length - 1 = 0 := by omega
    rw [hone, Nat.size_zero]
    rfl

theorem length_nodesAt {levels : List (List N)} {ps : List (ℕ × ℕ)} {ns : List N}
    (h : nodesAt levels ps = some ns) : ns.length = ps.length := by
  induction ps generalizing ns with
  | nil =>
    obtain rfl : [] = ns := Option.some.inj h
    rfl
  | cons p ps ih =>
    rw [nodesAt, List.mapM_cons, Option.bind_eq_bind, Option.bind_eq_some_iff] at h
    obtain ⟨n, -, h⟩ := h
    obtain ⟨ms, hms, h⟩ := Option.bind_eq_some_iff.1 h
    obtain rfl := Option.some.inj h
    rw [List.length_cons, List.length_cons, ih hms]

/-! ### Contiguous nodes -/

variable {s e : ℕ}

/-- Held nodes that are contiguous need the neighbours of the two ends. -/
theorem mem_missing_contiguous {size : ℕ} {held : List ℕ} (hasc : held.Pairwise (· < ·))
    (hheld : ∀ i, i ∈ held ↔ s ≤ i ∧ i ≤ e) (hse : s ≤ e) (he : e < size) :
    i ∈ missing size held ↔ s % 2 ≠ 0 ∧ i = s - 1 ∨ (e % 2 = 0 ∧ e + 1 < size) ∧ i = e + 1 := by
  rw [mem_missing hasc fun p hp => lt_of_le_of_lt ((hheld p).1 hp).2 he]
  simp only [hheld]
  constructor
  · rintro ⟨p, ⟨hsp, hpe⟩, rfl, hne, hnot⟩
    rw [siblingIndex] at hne hnot ⊢
    split_ifs at hne hnot ⊢ <;> omega
  · rintro (⟨hodd, rfl⟩ | ⟨⟨heven, hlt⟩, rfl⟩)
    · refine ⟨s, ⟨le_refl s, hse⟩, ?_, by omega, by omega⟩
      rw [siblingIndex, if_neg hodd]
    · refine ⟨e, ⟨hse, le_refl e⟩, ?_, by omega, by omega⟩
      rw [siblingIndex, if_pos heven, if_pos hlt]

/-- The parents of contiguous nodes are contiguous. -/
theorem mem_halves_contiguous {held : List ℕ}
    (hheld : ∀ i, i ∈ held ↔ s ≤ i ∧ i ≤ e) (hse : s ≤ e) (i : ℕ) :
    i ∈ halves held ↔ s / 2 ≤ i ∧ i ≤ e / 2 := by
  simp only [mem_halves, hheld]
  constructor
  · rintro ⟨p, ⟨hsp, hpe⟩, rfl⟩
    omega
  · rintro ⟨hs, he⟩
    exact ⟨max s (2 * i), by omega, by omega⟩

/-! ### How many for a whole climb -/

/-- The number of nodes a climb is given is bounded by the number of held leaves in each
level. -/
theorem length_proofNodes_le (f : N → N → N) (k : ℕ) (l : List N) (held : List ℕ) :
    (proofNodes f k l held).length ≤ held.length * k := by
  induction k generalizing l held with
  | zero => simp [proofNodes]
  | succ k ih =>
    rw [proofNodes, List.length_append, Nat.mul_succ]
    have hlevel : ((missing l.length held).filterMap (l[·]?)).length ≤ held.length :=
      (List.length_filterMap_le _ _).trans (length_missing_le _ _)
    have hrest := (ih (up f l) (halves held)).trans
      (Nat.mul_le_mul_right k (length_halves_le held))
    omega

/-- The number of nodes a climb of a whole tree is given is below the number of leaves. -/
theorem length_proofNodes_lt {held : List ℕ}
    (hasc : held.Pairwise (· < ·)) (hlt : ∀ p ∈ held, p < l.length) (hl : l ≠ []) :
    (proofNodes f (Nat.size (l.length - 1)) l held).length < l.length := by
  have hpos := List.length_pos_iff.2 hl
  fun_induction topLevel f l generalizing held with
  | case1 l h1 ih =>
    rw [size_pred_of_one_lt h1, proofNodes, List.length_append]
    have hlevel : ((missing l.length held).filterMap (l[·]?)).length ≤ l.length / 2 :=
      (List.length_filterMap_le _ _).trans (length_missing_le_half hasc hlt)
    have hup : 0 < (up f l).length := by
      rw [length_up]
      omega
    have hrest := ih (sorted_halves hasc) (by rw [length_up]; exact halves_lt hlt)
      (List.length_pos_iff.1 hup) hup
    rw [length_up] at hrest
    omega
  | case2 l h1 =>
    have hone : l.length - 1 = 0 := by omega
    rw [hone, Nat.size_zero, proofNodes]
    exact hpos

end Bmt
