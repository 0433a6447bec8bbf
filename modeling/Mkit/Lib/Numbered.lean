import Mathlib.Data.Set.Insert

/-!
# Numbered Sets

A set of items of which every one has exactly one number and no two the same, all numbers being
at most a bound: a queue seen from its index. An item joins under a number above the bound
(`Numbered.add`) and leaves together with its number (`Numbered.remove`).
-/

/-- `I n a` says that `a` has the number `n`: every member of `A` has exactly one, no two members
share one, and no number ranks above `top`. -/
structure Numbered {ι α : Type*} (rank : ι → ℕ) (A : Set α) (I : ι → α → Prop) (top : ℕ) :
    Prop where
  mem : ∀ n a, I n a → a ∈ A
  le : ∀ n a, I n a → rank n ≤ top
  exists_number : ∀ a ∈ A, ∃ n, I n a
  number_unique : ∀ n m a, I n a → I m a → n = m
  item_unique : ∀ n a b, I n a → I n b → a = b

namespace Numbered

variable {ι α : Type*} {rank : ι → ℕ} {A B : Set α} {I J : ι → α → Prop} {top : ℕ}

/-- The bound may be raised. -/
theorem mono {top' : ℕ} (h : Numbered rank A I top) (hle : top ≤ top') : Numbered rank A I top' :=
  { h with le := fun n a hn => (h.le n a hn).trans hle }

/-- An item outside the set joins under a number above the bound. -/
theorem add (h : Numbered rank A I top) {n : ι} {a : α} (ha : a ∉ A) (hn : top < rank n)
    (hB : B = insert a A) (hJ : ∀ m b, J m b ↔ (m = n ∧ b = a) ∨ I m b) :
    Numbered rank B J (rank n) where
  mem := by
    intro m b hm
    rw [hB]
    rcases (hJ m b).1 hm with ⟨-, rfl⟩ | hm
    · exact Set.mem_insert _ _
    · exact Set.mem_insert_of_mem _ (h.mem m b hm)
  le := by
    intro m b hm
    rcases (hJ m b).1 hm with ⟨rfl, -⟩ | hm
    · exact le_rfl
    · exact (h.le m b hm).trans hn.le
  exists_number := by
    intro b hb
    rw [hB] at hb
    rcases Set.mem_insert_iff.1 hb with rfl | hb
    · exact ⟨n, (hJ n _).2 (.inl ⟨rfl, rfl⟩)⟩
    · obtain ⟨m, hm⟩ := h.exists_number b hb
      exact ⟨m, (hJ m b).2 (.inr hm)⟩
  number_unique := by
    intro m m' b hm hm'
    rcases (hJ m b).1 hm with ⟨rfl, rfl⟩ | hm <;> rcases (hJ m' b).1 hm' with ⟨rfl, hb⟩ | hm'
    · rfl
    · exact absurd (h.mem m' _ hm') ha
    · exact absurd (h.mem m b hm) (hb ▸ ha)
    · exact h.number_unique m m' b hm hm'
  item_unique := by
    intro m b b' hm hm'
    rcases (hJ m b).1 hm with ⟨rfl, rfl⟩ | hm <;> rcases (hJ m b').1 hm' with ⟨hn', rfl⟩ | hm'
    · rfl
    · exact absurd (h.le m b' hm') (not_le.2 hn)
    · exact absurd (h.le m b hm) (not_le.2 (hn' ▸ hn))
    · exact h.item_unique m b b' hm hm'

/-- An item leaves together with its number. -/
theorem remove (h : Numbered rank A I top) {n : ι} {a : α} (hn : I n a) (hB : B = A \ {a})
    (hJ : ∀ m b, J m b ↔ I m b ∧ ¬ (m = n ∧ b = a)) : Numbered rank B J top where
  mem := by
    intro m b hm
    obtain ⟨hm, hne⟩ := (hJ m b).1 hm
    rw [hB]
    refine ⟨h.mem m b hm, fun hb => hne ⟨?_, hb⟩⟩
    rw [Set.mem_singleton_iff] at hb
    exact h.number_unique m n b hm (hb ▸ hn)
  le := fun m b hm => h.le m b ((hJ m b).1 hm).1
  exists_number := by
    intro b hb
    rw [hB] at hb
    obtain ⟨m, hm⟩ := h.exists_number b hb.1
    exact ⟨m, (hJ m b).2 ⟨hm, fun heq => hb.2 heq.2⟩⟩
  number_unique := fun m m' b hm hm' =>
    h.number_unique m m' b ((hJ m b).1 hm).1 ((hJ m' b).1 hm').1
  item_unique := fun m b b' hm hm' =>
    h.item_unique m b b' ((hJ m b).1 hm).1 ((hJ m b').1 hm').1

end Numbered
