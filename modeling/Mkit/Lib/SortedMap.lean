import Mathlib.Algebra.BigOperators.Group.List.Basic
import Mathlib.Algebra.Order.Ring.Nat
import Mathlib.Data.List.Lex
import Mathlib.Data.List.Pairwise

/-!
# Maps Sorted by Key

A map kept as the list of its entries in ascending order of the keys. The order makes two
things cheap: reading on from a key (`SortedMap.range`) and, when keys are strings compared
lexicographically, finding everything under a prefix. Strings with a given prefix stand together
(`isPrefix_of_le_of_le`), so what is under the prefix starts right at it
(`SortedMap.head?_range`) and ends where the prefix ends (`SortedMap.takeWhile_range`).
-/

/-- A finite map, its entries in ascending order of the keys. -/
structure SortedMap (K V : Type) [LinearOrder K] where
  entries : List (K × V)
  sorted : entries.Pairwise fun p q => p.1 < q.1

namespace SortedMap

section Map

variable {K V : Type} [LinearOrder K]

/-- The empty map. -/
def empty : SortedMap K V :=
  ⟨[], List.Pairwise.nil⟩

/-- Insert into a sorted list, replacing an entry with the same key. -/
def insertList (k : K) (v : V) : List (K × V) → List (K × V)
  | [] => [(k, v)]
  | p :: l =>
    if k < p.1 then (k, v) :: p :: l
    else if k = p.1 then (k, v) :: l
    else p :: insertList k v l

theorem mem_insertList {k : K} {v : V} {l : List (K × V)} {q : K × V}
    (h : q ∈ insertList k v l) : q = (k, v) ∨ q ∈ l := by
  induction l with
  | nil => exact .inl (List.mem_singleton.1 h)
  | cons p l ih =>
    rw [insertList] at h
    split_ifs at h
    · exact List.mem_cons.1 h
    · rcases List.mem_cons.1 h with h | h
      · exact .inl h
      · exact .inr (List.mem_cons_of_mem p h)
    · rcases List.mem_cons.1 h with rfl | h
      · exact .inr List.mem_cons_self
      · exact (ih h).imp id (List.mem_cons_of_mem p)

theorem sorted_insertList (k : K) (v : V) {l : List (K × V)} (h : l.Pairwise fun p q => p.1 < q.1) :
    (insertList k v l).Pairwise fun p q => p.1 < q.1 := by
  induction l with
  | nil => exact List.pairwise_singleton _ _
  | cons p l ih =>
    rw [List.pairwise_cons] at h
    rw [insertList]
    split_ifs with hlt heq
    · refine List.pairwise_cons.2 ⟨fun q hq => ?_, List.pairwise_cons.2 h⟩
      rcases List.mem_cons.1 hq with rfl | hq
      · exact hlt
      · exact hlt.trans (h.1 q hq)
    · exact List.pairwise_cons.2 ⟨fun q hq => heq ▸ h.1 q hq, h.2⟩
    · refine List.pairwise_cons.2 ⟨fun q hq => ?_, ih h.2⟩
      rcases mem_insertList hq with rfl | hq
      · exact lt_of_le_of_ne (not_lt.1 hlt) (Ne.symm heq)
      · exact h.1 q hq

/-- Insert an entry, replacing one with the same key. -/
def insert (m : SortedMap K V) (k : K) (v : V) : SortedMap K V :=
  ⟨insertList k v m.entries, sorted_insertList k v m.sorted⟩

/-- The value under a key. -/
def get (m : SortedMap K V) (k : K) : Option V :=
  (m.entries.find? fun p => p.1 = k).map Prod.snd

/-- The entries from a key on. -/
def range (m : SortedMap K V) (k : K) : List (K × V) :=
  m.entries.filter fun p => k ≤ p.1

/-- Is there an entry under the key? -/
def containsKey (m : SortedMap K V) (k : K) : Bool :=
  (m.get k).isSome

theorem get_eq_some {m : SortedMap K V} {k : K} {v : V} :
    m.get k = some v ↔ (k, v) ∈ m.entries := by
  obtain ⟨l, hl⟩ := m
  rw [get]
  dsimp only
  induction l with
  | nil => simp
  | cons p l ih =>
    rw [List.pairwise_cons] at hl
    rw [List.find?_cons, List.mem_cons]
    by_cases hp : p.1 = k
    · have hnot : (k, v) ∉ l := fun h => absurd (hl.1 _ h) (by simp [hp])
      simp only [hp, decide_true, Option.map_some, Option.some.injEq, hnot, or_false]
      exact ⟨fun h => Prod.ext hp.symm h.symm, fun h => (Prod.ext_iff.1 h).2.symm⟩
    · have hne : (k, v) ≠ p := fun h => hp (by rw [← h])
      simp only [hp, decide_false, hne, false_or]
      exact ih hl.2

theorem containsKey_eq_true {m : SortedMap K V} {k : K} :
    m.containsKey k = true ↔ ∃ v, (k, v) ∈ m.entries := by
  rw [containsKey, Option.isSome_iff_exists]
  exact exists_congr fun _ => get_eq_some

@[simp] theorem get_empty (k : K) : (empty : SortedMap K V).get k = none := rfl

theorem get_insert (m : SortedMap K V) (k : K) (v : V) (x : K) :
    (m.insert k v).get x = if x = k then some v else m.get x := by
  obtain ⟨l, hl⟩ := m
  simp only [get, insert]
  induction l with
  | nil =>
    rw [insertList]
    by_cases hx : x = k
    · simp [hx]
    · simp [hx, Ne.symm hx]
  | cons p l ih =>
    rw [List.pairwise_cons] at hl
    rw [insertList]
    by_cases hx : x = k
    · subst hx
      rw [if_pos rfl]
      split_ifs with hlt heq
      · simp
      · simp
      · rw [List.find?_cons_of_neg (by simpa using Ne.symm heq), ih hl.2, if_pos rfl]
    · rw [if_neg hx]
      rw [if_neg hx] at ih
      have hkx : ¬ k = x := fun h => hx h.symm
      split_ifs with hlt heq
      · rw [List.find?_cons_of_neg (by simpa using hkx)]
      · rw [List.find?_cons_of_neg (by simpa using hkx),
          List.find?_cons_of_neg (by simpa [← heq] using hkx)]
      · by_cases hp : p.1 = x
        · rw [List.find?_cons_of_pos (by simpa using hp),
            List.find?_cons_of_pos (by simpa using hp)]
        · rw [List.find?_cons_of_neg (by simpa using hp),
            List.find?_cons_of_neg (by simpa using hp)]
          exact ih hl.2

theorem mem_range {m : SortedMap K V} {k : K} {p : K × V} :
    p ∈ m.range k ↔ p ∈ m.entries ∧ k ≤ p.1 := by
  simp [range, List.mem_filter]

theorem sorted_range (m : SortedMap K V) (k : K) : (m.range k).Pairwise fun p q => p.1 < q.1 :=
  m.sorted.filter _

/-- Remove the entry under a key. -/
def erase (m : SortedMap K V) (k : K) : SortedMap K V :=
  ⟨m.entries.filter fun p => p.1 ≠ k, m.sorted.filter _⟩

theorem get_erase (m : SortedMap K V) (k x : K) :
    (m.erase k).get x = if x = k then none else m.get x := by
  refine Option.ext fun v => ?_
  have herase : (x, v) ∈ (m.erase k).entries ↔ (x, v) ∈ m.entries ∧ x ≠ k := by
    simp [erase, List.mem_filter]
  rw [get_eq_some, herase]
  by_cases hx : x = k
  · simp [hx]
  · rw [if_neg hx, get_eq_some]
    exact and_iff_left hx

@[simp] theorem get_insert_self (m : SortedMap K V) (k : K) (v : V) :
    (m.insert k v).get k = some v := by
  rw [get_insert, if_pos rfl]

theorem get_insert_of_ne (m : SortedMap K V) {k x : K} (v : V) (h : x ≠ k) :
    (m.insert k v).get x = m.get x := by
  rw [get_insert, if_neg h]

@[simp] theorem get_erase_self (m : SortedMap K V) (k : K) : (m.erase k).get k = none := by
  rw [get_erase, if_pos rfl]

theorem get_erase_of_ne (m : SortedMap K V) {k x : K} (h : x ≠ k) :
    (m.erase k).get x = m.get x := by
  rw [get_erase, if_neg h]

/-- Give a key a value, or leave it without one. -/
def update (m : SortedMap K V) (k : K) (o : Option V) : SortedMap K V :=
  o.elim (m.erase k) (m.insert k)

theorem get_update (m : SortedMap K V) (k : K) (o : Option V) (x : K) :
    (m.update k o).get x = if x = k then o else m.get x := by
  cases o with
  | none => exact get_erase m k x
  | some v => exact get_insert m k v x

@[simp] theorem get_update_self (m : SortedMap K V) (k : K) (o : Option V) :
    (m.update k o).get k = o := by
  rw [get_update, if_pos rfl]

theorem get_update_of_ne (m : SortedMap K V) {k x : K} (o : Option V) (h : x ≠ k) :
    (m.update k o).get x = m.get x := by
  rw [get_update, if_neg h]

/-- Maps with the same values are the same map. -/
theorem eq_of_get {m m' : SortedMap K V} (h : ∀ k, m.get k = m'.get k) : m = m' := by
  obtain ⟨l, hl⟩ := m
  obtain ⟨l', hl'⟩ := m'
  have hmem : ∀ p : K × V, p ∈ l ↔ p ∈ l' := fun p => by
    have hl := get_eq_some (m := ⟨l, hl⟩) (k := p.1) (v := p.2)
    have hl' := get_eq_some (m := ⟨l', hl'⟩) (k := p.1) (v := p.2)
    rw [h p.1] at hl
    exact hl.symm.trans hl'
  have hnodup : ∀ {l : List (K × V)}, (l.Pairwise fun p q => p.1 < q.1) → l.Nodup :=
    fun hl => hl.imp fun hlt heq => absurd (congrArg Prod.fst heq) (ne_of_lt hlt)
  have hperm : l.Perm l' := (List.perm_ext_iff_of_nodup (hnodup hl) (hnodup hl')).2 hmem
  have heq : l = l' := List.Perm.eq_of_pairwise
    (fun p q _ _ hpq hqp => absurd hpq (not_lt_of_gt hqp)) hl hl' hperm
  subst heq
  rfl

/-- Of two updates of one key the later counts. -/
theorem update_update (m : SortedMap K V) (k : K) (o o' : Option V) :
    (m.update k o).update k o' = m.update k o' :=
  eq_of_get fun x => by
    by_cases hx : x = k
    · rw [hx, get_update_self, get_update_self]
    · rw [get_update_of_ne _ _ hx, get_update_of_ne _ _ hx, get_update_of_ne _ _ hx]

/-- Updates of different keys commute. -/
theorem update_comm (m : SortedMap K V) {k k' : K} (o o' : Option V) (h : k ≠ k') :
    (m.update k o).update k' o' = (m.update k' o').update k o :=
  eq_of_get fun x => by
    simp only [get_update]
    by_cases hx : x = k'
    · rw [if_pos hx, if_neg (hx ▸ Ne.symm h), if_pos hx]
    · rw [if_neg hx, if_neg hx]

/-! ### Totals -/

/-- The sum of a weight over the entries. -/
def total (w : K → V → ℕ) (m : SortedMap K V) : ℕ :=
  (m.entries.map fun p => w p.1 p.2).sum

/-- The weight of what is under a key, nothing weighing nothing. -/
def weightAt (w : K → V → ℕ) (m : SortedMap K V) (k : K) : ℕ :=
  (m.get k).elim 0 (w k)

@[simp] theorem total_empty (w : K → V → ℕ) : total w (empty : SortedMap K V) = 0 := rfl

/-- Leaving a key out takes its weight off. -/
theorem total_erase (w : K → V → ℕ) (m : SortedMap K V) (k : K) :
    total w (m.erase k) + weightAt w m k = total w m := by
  obtain ⟨l, hl⟩ := m
  simp only [total, weightAt, erase, get]
  induction l with
  | nil => rfl
  | cons p l ih =>
    rw [List.pairwise_cons] at hl
    have ih := ih hl.2
    by_cases hp : p.1 = k
    · -- The key stands only at the head, so the tail is left as it is.
      have hrest : l.filter (fun q => q.1 ≠ k) = l :=
        List.filter_eq_self.2 fun q hq => by
          have hlt := hl.1 q hq
          rw [hp] at hlt
          simpa using ne_of_gt hlt
      rw [List.filter_cons_of_neg (by simpa using hp), hrest,
        List.find?_cons_of_pos (by simpa using hp), List.map_cons, List.sum_cons]
      simp only [Option.map_some, Option.elim_some, ← hp]
      omega
    · rw [List.filter_cons_of_pos (by simpa using hp),
        List.find?_cons_of_neg (by simpa using hp), List.map_cons, List.map_cons,
        List.sum_cons, List.sum_cons]
      omega

/-- Inserting puts the new weight in the place of the old one. -/
theorem total_insert (w : K → V → ℕ) (m : SortedMap K V) (k : K) (v : V) :
    total w (m.insert k v) + weightAt w m k = total w m + w k v := by
  have herase : (m.insert k v).erase k = m.erase k := by
    obtain ⟨l, hl⟩ := m
    simp only [erase, insert, SortedMap.mk.injEq]
    induction l with
    | nil => simp [insertList]
    | cons p l ih =>
      rw [List.pairwise_cons] at hl
      rw [insertList]
      split_ifs with hlt heq
      · rw [List.filter_cons_of_neg (by simp)]
      · rw [List.filter_cons_of_neg (by simp),
          List.filter_cons_of_neg (by simpa using heq.symm)]
      · rw [List.filter_cons, List.filter_cons, ih hl.2]
  have hnew := total_erase w (m.insert k v) k
  have hold := total_erase w m k
  rw [herase] at hnew
  have hw : weightAt w (m.insert k v) k = w k v := by
    rw [weightAt, get_insert_self, Option.elim_some]
  omega

/-- An update puts the new weight in the place of the old one. -/
theorem total_update (w : K → V → ℕ) (m : SortedMap K V) (k : K) (o : Option V) :
    total w (m.update k o) + weightAt w m k = total w m + o.elim 0 (w k) := by
  cases o with
  | none => exact total_erase w m k
  | some v => exact total_insert w m k v

end Map

/-! ### Prefixes -/

section Strings

variable {α : Type} [LinearOrder α]

/-- A string is at most what it is a prefix of. -/
theorem le_of_isPrefix {p k : List α} (h : p <+: k) : p ≤ k := by
  obtain ⟨t, rfl⟩ := h
  induction p with
  | nil =>
    cases t with
    | nil => exact le_rfl
    | cons a t => exact le_of_lt (List.Lex.nil)
  | cons a p ih => exact List.cons_le_cons a ih

/-- Strings with a given prefix stand together. -/
theorem isPrefix_of_le_of_le {p m k : List α} (hpm : p ≤ m) (hmk : m ≤ k) (h : p <+: k) :
    p <+: m := by
  induction p generalizing m k with
  | nil => exact List.nil_prefix
  | cons a p ih =>
    obtain ⟨t, rfl⟩ := h
    cases m with
    | nil => exact absurd hpm (not_le.2 List.Lex.nil)
    | cons b m =>
      have hab : a ≤ b := by
        rcases hpm.lt_or_eq with hlt | heq
        · exact List.head_le_of_lt hlt
        · exact le_of_eq (List.cons.inj heq).1
      have hba : b ≤ a := by
        rcases hmk.lt_or_eq with hlt | heq
        · exact List.head_le_of_lt hlt
        · exact le_of_eq (List.cons.inj heq).1
      obtain rfl := le_antisymm hab hba
      rw [List.cons_prefix_cons]
      refine ⟨rfl, ih ?_ ?_ (List.prefix_append p t)⟩
      · by_contra hlt
        exact absurd hpm (not_le.2 (List.Lex.cons (not_le.1 hlt)))
      · by_contra hlt
        exact absurd hmk (not_le.2 (List.Lex.cons (not_le.1 hlt)))

variable [DecidableEq α] {V : Type}

/-- What is under a prefix ends where the prefix ends. -/
theorem takeWhile_range (m : SortedMap (List α) V) (p : List α) :
    (m.range p).takeWhile (fun q => p.isPrefixOf q.1) =
      m.entries.filter fun q => p.isPrefixOf q.1 := by
  have hfilter : (m.entries.filter fun q => p.isPrefixOf q.1) =
      (m.range p).filter fun q => p.isPrefixOf q.1 := by
    rw [range, List.filter_filter]
    refine List.filter_congr fun q _ => ?_
    by_cases hq : p.isPrefixOf q.1 = true
    · rw [hq, Bool.true_and, decide_eq_true (le_of_isPrefix (List.isPrefixOf_iff_prefix.1 hq))]
    · rw [Bool.not_eq_true] at hq
      rw [hq, Bool.false_and]
  rw [hfilter]
  have hle : ∀ q ∈ m.range p, p ≤ q.1 := fun q hq => (mem_range.1 hq).2
  have hsorted := m.sorted_range p
  -- Behind an entry without the prefix no other entry has it.
  generalize m.range p = l at hle hsorted
  induction l with
  | nil => rfl
  | cons q l ih =>
    rw [List.pairwise_cons] at hsorted
    rw [List.takeWhile_cons, List.filter_cons]
    by_cases hq : p.isPrefixOf q.1 = true
    · rw [if_pos hq, if_pos hq,
        ih (fun r hr => hle r (List.mem_cons_of_mem q hr)) hsorted.2]
    · rw [if_neg hq, if_neg hq]
      refine (List.filter_eq_nil_iff.2 fun r hr hpre => hq ?_).symm
      rw [List.isPrefixOf_iff_prefix] at hpre ⊢
      exact isPrefix_of_le_of_le (hle q List.mem_cons_self) (hsorted.1 r hr).le hpre

/-- What is under a prefix starts right at it. -/
theorem head?_range (m : SortedMap (List α) V) (p : List α) :
    ((m.range p).head?.any fun q => p.isPrefixOf q.1) =
      m.entries.any fun q => p.isPrefixOf q.1 := by
  have h := takeWhile_range m p
  rw [Bool.eq_iff_iff, List.any_eq_true]
  constructor
  · intro hhead
    cases hr : m.range p with
    | nil => simp [hr] at hhead
    | cons q l =>
      rw [hr] at hhead
      have hq : q ∈ m.range p := by
        rw [hr]
        exact List.mem_cons_self
      exact ⟨q, (mem_range.1 hq).1, hhead⟩
  · rintro ⟨q, hq, hpre⟩
    have hmem : q ∈ (m.range p).takeWhile fun q => p.isPrefixOf q.1 := by
      rw [h]
      exact List.mem_filter.2 ⟨hq, hpre⟩
    cases hr : m.range p with
    | nil =>
      rw [hr] at hmem
      exact (List.not_mem_nil hmem).elim
    | cons r l =>
      rw [hr, List.takeWhile_cons] at hmem
      by_cases hrp : p.isPrefixOf r.1 = true
      · exact hrp
      · rw [if_neg hrp] at hmem
        exact (List.not_mem_nil hmem).elim

end Strings

end SortedMap
