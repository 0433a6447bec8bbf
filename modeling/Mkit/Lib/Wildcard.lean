import Mathlib.Computability.Language

/-!
# Languages of Wildcards

What a wildcard pattern is made of: a symbol that satisfies a predicate, and a run of any symbols,
followed by the rest of the pattern. A matcher that backtracks over the length of a run asks for a
suffix of the input; `mem_run_mul` says that this is the product of languages.
-/

namespace Wildcard

variable {α : Type} {s t : List α} {P : α → Prop} {L : Language α}

/-- One symbol that satisfies a predicate. -/
def one (P : α → Prop) : Language α :=
  {s : List α | ∃ a, P a ∧ s = [a]}

/-- Any run of symbols. -/
def run : Language α :=
  {_s : List α | True}

theorem mem_run : s ∈ (run : Language α) :=
  trivial

theorem mem_one_mul : s ∈ one P * L ↔ ∃ a rest, s = a :: rest ∧ P a ∧ rest ∈ L := by
  rw [Language.mem_mul]
  constructor
  · rintro ⟨_, ⟨a, ha, rfl⟩, rest, hrest, rfl⟩
    exact ⟨a, rest, rfl, ha, hrest⟩
  · rintro ⟨a, rest, rfl, ha, hrest⟩
    exact ⟨[a], ⟨a, ha, rfl⟩, rest, hrest, rfl⟩

theorem nil_notMem_one_mul : [] ∉ one P * L := by
  rw [mem_one_mul]
  rintro ⟨a, rest, h, -⟩
  exact List.cons_ne_nil a rest h.symm

theorem cons_mem_one_mul {a : α} : a :: s ∈ one P * L ↔ P a ∧ s ∈ L := by
  rw [mem_one_mul]
  constructor
  · rintro ⟨b, rest, h, hb, hrest⟩
    obtain ⟨rfl, rfl⟩ := List.cons.inj h
    exact ⟨hb, hrest⟩
  · rintro ⟨ha, hs⟩
    exact ⟨a, s, rfl, ha, hs⟩

theorem mem_run_mul : s ∈ run * L ↔ ∃ t, t <:+ s ∧ t ∈ L := by
  rw [Language.mem_mul]
  constructor
  · rintro ⟨first, -, t, ht, rfl⟩
    exact ⟨t, List.suffix_append first t, ht⟩
  · rintro ⟨t, ⟨first, rfl⟩, ht⟩
    exact ⟨first, mem_run, t, ht, rfl⟩

/-- Trying every start is trying every suffix. -/
theorem any_drop_iff {f : List α → Bool} :
    ((List.range (s.length + 1)).any fun i => f (s.drop i)) = true ↔
      ∃ t, t <:+ s ∧ f t = true := by
  rw [List.any_eq_true]
  constructor
  · rintro ⟨i, -, hi⟩
    exact ⟨s.drop i, List.drop_suffix i s, hi⟩
  · rintro ⟨t, ⟨first, rfl⟩, ht⟩
    refine ⟨first.length, List.mem_range.2 ?_, ?_⟩
    · rw [List.length_append]
      omega
    · rwa [List.drop_left]

end Wildcard
