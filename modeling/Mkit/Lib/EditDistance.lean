import Mathlib.Data.Bool.Count
import Mkit.Lib.EditGraph

/-!
# Edit Distance and Common Subsequences

What a shortest path through an edit graph says about the two sequences: a path with `d` edits
keeps as many rows of one sequence as of the other, and these are a common subsequence. A longest
one belongs to a path with the fewest edits (`longest_of_least`).
-/

namespace EditGraph

variable {α β : Type}

/-- Some members of both lists, so many of each, in order and related pairwise. -/
def Common (R : α → β → Prop) (xs : List α) (ys : List β) (c : ℕ) : Prop :=
  ∃ as bs, as.Sublist xs ∧ bs.Sublist ys ∧ List.Forall₂ R as bs ∧ as.length = c

/-- A longest common subsequence has this length. -/
structure Longest (R : α → β → Prop) (xs : List α) (ys : List β) (c : ℕ) : Prop where
  common : Common R xs ys c
  le : ∀ c', Common R xs ys c' → c' ≤ c

/-- The rows of the grid are those of two lists. -/
def Rows (M : ℤ → ℤ → Prop) (R : α → β → Prop) (xs : List α) (ys : List β) : Prop :=
  ∀ i j : ℕ, M i j ↔ ∃ a b, xs[i]? = some a ∧ ys[j]? = some b ∧ R a b

variable {M : ℤ → ℤ → Prop} {R : α → β → Prop} {xs : List α} {ys : List β}

theorem drop_eq_cons {γ : Type} {l : List γ} {i : ℕ} {a : γ} (h : l[i]? = some a) :
    l.drop i = a :: l.drop (i + 1) := by
  obtain ⟨hi, rfl⟩ := List.getElem?_eq_some_iff.1 h
  exact List.drop_eq_getElem_cons hi

theorem drop_succ_sublist {γ : Type} (l : List γ) (i : ℕ) :
    (l.drop (i + 1)).Sublist (l.drop i) := by
  rw [← List.tail_drop]
  exact List.tail_sublist _

/-- The rows that an alignment leaves unset are a common subsequence. -/
theorem Aligned.common (hM : Rows M R xs ys) {i j : ℕ} {F G : List Bool} (h : Aligned M i j F G)
    (hF : i + F.length = xs.length) (hG : j + G.length = ys.length) :
    Common R (xs.drop i) (ys.drop j) (F.count false) ∧ F.count false = G.count false := by
  induction h with
  | nil => exact ⟨⟨[], [], List.nil_sublist _, List.nil_sublist _, .nil, rfl⟩, rfl⟩
  | @del i j F G _ ih =>
    rw [List.length_cons] at hF
    obtain ⟨⟨as, bs, has, hbs, hR, hlen⟩, hcount⟩ := ih (by omega) hG
    have htrue : (true :: F).count false = F.count false := List.count_cons_of_ne (by decide)
    rw [htrue]
    exact ⟨⟨as, bs, has.trans (drop_succ_sublist xs i), hbs, hR, hlen⟩, hcount⟩
  | @ins i j F G _ ih =>
    rw [List.length_cons] at hG
    obtain ⟨⟨as, bs, has, hbs, hR, hlen⟩, hcount⟩ := ih hF (by omega)
    have htrue : (true :: G).count false = G.count false := List.count_cons_of_ne (by decide)
    rw [htrue]
    exact ⟨⟨as, bs, has, hbs.trans (drop_succ_sublist ys j), hR, hlen⟩, hcount⟩
  | @keep i j F G hm _ ih =>
    rw [List.length_cons] at hF hG
    obtain ⟨⟨as, bs, has, hbs, hR, hlen⟩, hcount⟩ := ih (by omega) (by omega)
    obtain ⟨a, b, ha, hb, hab⟩ := (hM i j).1 hm
    rw [drop_eq_cons ha, drop_eq_cons hb, List.count_cons_self, List.count_cons_self, hcount]
    refine ⟨⟨a :: as, b :: bs, has.cons_cons a, hbs.cons_cons b, .cons hab hR, ?_⟩, rfl⟩
    rw [List.length_cons, hlen, hcount]

/-- The first member of a subsequence, and where it stands. -/
theorem exists_of_cons_sublist {γ : Type} {l as : List γ} {a : γ} {i : ℕ}
    (h : (a :: as).Sublist (l.drop i)) :
    ∃ t, l[i + t]? = some a ∧ as.Sublist (l.drop (i + t + 1)) := by
  generalize hl : l.drop i = r at h
  induction r generalizing i with
  | nil => cases h
  | cons b r ih =>
    have hb : l[i]? = some b := by
      rw [← List.head?_drop, hl]
      rfl
    have hr : l.drop (i + 1) = r := by
      rw [← List.tail_drop, hl]
      rfl
    cases h with
    | cons _ h =>
      obtain ⟨t, ha, has⟩ := ih hr h
      exact ⟨t + 1, by rwa [← Nat.add_assoc, Nat.add_right_comm],
        by rwa [← Nat.add_assoc, Nat.add_right_comm i t 1]⟩
    | cons_cons _ h => exact ⟨0, hb, by rwa [Nat.add_zero, hr]⟩

/-- A common subsequence can be kept, and everything else edited. -/
theorem Reach.of_common (hM : Rows M R xs ys) {d i j : ℕ} (h : Reach M d i j)
    (hi : i ≤ xs.length) (hj : j ≤ ys.length) {as : List α} {bs : List β}
    (hR : List.Forall₂ R as bs) (has : as.Sublist (xs.drop i)) (hbs : bs.Sublist (ys.drop j)) :
    ∃ d', Reach M d' xs.length ys.length ∧
      d' + 2 * as.length + (i + j) = d + (xs.length + ys.length) := by
  induction hR generalizing d i j with
  | nil =>
    obtain ⟨n, hn⟩ := Nat.exists_eq_add_of_le hi
    obtain ⟨m, hm⟩ := Nat.exists_eq_add_of_le hj
    refine ⟨d + n + m, ?_, ?_⟩
    · rw [hn, hm, Nat.cast_add, Nat.cast_add]
      exact (h.dels n).inss m
    · rw [List.length_nil]
      omega
  | @cons a b as bs hab hR ih =>
    obtain ⟨s, ha, has⟩ := exists_of_cons_sublist has
    obtain ⟨t, hb, hbs⟩ := exists_of_cons_sublist hbs
    have hs := (List.getElem?_eq_some_iff.1 ha).1
    have ht := (List.getElem?_eq_some_iff.1 hb).1
    have hkept : Reach M (d + s + t) ((i + s + 1 : ℕ) : ℤ) ((j + t + 1 : ℕ) : ℤ) := by
      have hedited := (h.dels s).inss t
      rw [← Nat.cast_add, ← Nat.cast_add] at hedited
      exact_mod_cast hedited.keep ((hM _ _).2 ⟨a, b, ha, hb, hab⟩)
    obtain ⟨d', hd', hsum⟩ := ih hkept (by omega) (by omega) has hbs
    refine ⟨d', hd', ?_⟩
    rw [List.length_cons]
    omega

/-- **Fewest edits, longest common subsequence.** A path to the far corner with the fewest edits
flags all but the members of a longest common subsequence. -/
theorem longest_of_least (hM : Rows M R xs ys) {d : ℕ} {ms : List Move}
    (h : Traced M d xs.length ys.length ms) (hleast : ∀ d' < d, ¬ Reach M d' xs.length ys.length) :
    ∃ c, Longest R xs ys c ∧ d + 2 * c = xs.length + ys.length := by
  obtain ⟨hx, hy⟩ := h.length_flags
  obtain ⟨hcommon, hcount⟩ := Aligned.common hM h.follows.aligned
    ((Nat.zero_add _).trans (by exact_mod_cast hx.symm))
    ((Nat.zero_add _).trans (by exact_mod_cast hy.symm))
  have hsum : d + 2 * (oldFlags ms).count false = xs.length + ys.length := by
    have hedits := h.count_flags
    have hold := List.count_false_add_count_true (oldFlags ms)
    have hnew := List.count_false_add_count_true (newFlags ms)
    omega
  refine ⟨(oldFlags ms).count false, ⟨hcommon, ?_⟩, hsum⟩
  rintro c' ⟨as, bs, has, hbs, hR, rfl⟩
  obtain ⟨d', hd', hsum'⟩ := Reach.of_common hM (i := 0) (j := 0) .origin (Nat.zero_le _)
    (Nat.zero_le _) hR has hbs
  have hge : ¬ d' < d := fun hlt => hleast d' hlt hd'
  omega

end EditGraph
