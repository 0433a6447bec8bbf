import Mathlib.Data.List.Pairwise
import Mathlib.Data.Set.Basic

/-!
# Children behind Separators

One node of a search tree: a first child and further children, each behind the separator that
is the lower bound of its keys. `pick` follows a key to the child it belongs to and returns the
bounds of that child. When every child keeps to its interval (`Separated`), the child picked is
the only one that can hold the key (`eq_pick_of_mem`); when besides no child is empty, all
separators lie in any interval the keys lie in (`separator_inside`).
-/

namespace Separators

variable {K T : Type} [LinearOrder K]

/-- A half-open interval; a missing bound is no bound. -/
def Inside (lower upper : Option K) (k : K) : Prop :=
  (∀ low ∈ lower, low ≤ k) ∧ ∀ high ∈ upper, k < high

/-- A child with its bounds. -/
structure Picked (K T : Type) where
  child : T
  lower : Option K
  upper : Option K

/-- The child a key belongs to. -/
def pick (key : K) : T → Option K → List (K × T) → Picked K T
  | child, lower, [] => ⟨child, lower, none⟩
  | child, lower, next :: rest =>
    if key < next.1 then ⟨child, lower, some next.1⟩ else pick key next.2 (some next.1) rest

/-- Every child keeps to the interval of its separators. -/
def Separated (keys : T → Set K) : T → Option K → List (K × T) → Prop
  | child, lower, [] => ∀ k ∈ keys child, Inside lower none k
  | child, lower, next :: rest =>
    (∀ k ∈ keys child, Inside lower (some next.1) k) ∧
      Separated keys next.2 (some next.1) rest

variable {keys : T → Set K} {child : T} {lower : Option K} {rest : List (K × T)} {key k : K}

theorem pick_mem (key : K) (child : T) (lower : Option K) (rest : List (K × T)) :
    (pick key child lower rest).child = child ∨
      (pick key child lower rest).child ∈ rest.map Prod.snd := by
  induction rest generalizing child lower with
  | nil => exact .inl rfl
  | cons next rest ih =>
    rw [pick]
    split_ifs with hlt
    · exact .inl rfl
    · rw [List.map_cons, List.mem_cons]
      exact .inr (ih next.2 (some next.1))

/-- The keys of the child picked lie between its bounds. -/
theorem Separated.pick_inside (h : Separated keys child lower rest)
    (hk : k ∈ keys (pick key child lower rest).child) :
    Inside (pick key child lower rest).lower (pick key child lower rest).upper k := by
  induction rest generalizing child lower with
  | nil => exact h k hk
  | cons next rest ih =>
    rw [pick] at hk ⊢
    split_ifs at hk ⊢ with hlt
    · exact h.1 k hk
    · exact ih h.2 hk

/-- What stands behind separators in ascending order is at or above the first of them. -/
theorem Separated.le_of_mem {low : K} (h : Separated keys child (some low) rest)
    (hsorted : (low :: rest.map Prod.fst).Pairwise (· < ·)) {c : T}
    (hc : c = child ∨ c ∈ rest.map Prod.snd) (hk : k ∈ keys c) : low ≤ k := by
  induction rest generalizing child low with
  | nil =>
    obtain rfl : c = child := by simpa using hc
    exact (h k hk).1 low rfl
  | cons next rest ih =>
    obtain rfl | hc := hc
    · exact (h.1 k hk).1 low rfl
    · rw [List.map_cons, List.mem_cons] at hc
      rw [List.map_cons, List.pairwise_cons] at hsorted
      exact (hsorted.1 _ List.mem_cons_self).le.trans (ih h.2 hsorted.2 hc)

/-- Only the child picked can hold the key. -/
theorem Separated.eq_pick_of_mem (h : Separated keys child lower rest)
    (hsorted : (rest.map Prod.fst).Pairwise (· < ·)) {c : T}
    (hc : c = child ∨ c ∈ rest.map Prod.snd) (hkey : key ∈ keys c) :
    (pick key child lower rest).child = c := by
  induction rest generalizing child lower with
  | nil =>
    obtain rfl : c = child := by simpa using hc
    rfl
  | cons next rest ih =>
    rw [pick]
    split_ifs with hlt
    · -- the key is below everything behind the separator
      obtain rfl | hc := hc
      · rfl
      · rw [List.map_cons, List.mem_cons] at hc
        exact absurd (h.2.le_of_mem hsorted hc hkey) hlt.not_ge
    · obtain rfl | hc := hc
      · exact absurd ((h.1 key hkey).2 next.1 rfl) hlt
      · rw [List.map_cons, List.mem_cons] at hc
        rw [List.map_cons, List.pairwise_cons] at hsorted
        exact ih h.2 hsorted.2 hc

/-- Separators lie between the keys of their neighbours, so inside any interval these lie in. -/
theorem Separated.separator_inside {bottom top : Option K} (h : Separated keys child lower rest)
    (hnonempty : ∀ c, c = child ∨ c ∈ rest.map Prod.snd → (keys c).Nonempty)
    (hinside : ∀ c, c = child ∨ c ∈ rest.map Prod.snd → ∀ k ∈ keys c, Inside bottom top k)
    {next : K × T} (hnext : next ∈ rest) : Inside bottom top next.1 := by
  induction rest generalizing child lower with
  | nil => simp at hnext
  | cons c rest ih =>
    have hbehind : ∀ d, d = c.2 ∨ d ∈ rest.map Prod.snd →
        d = child ∨ d ∈ (c :: rest).map Prod.snd := by
      intro d hd
      rw [List.map_cons, List.mem_cons]
      exact .inr hd
    obtain rfl | hnext := List.mem_cons.1 hnext
    · obtain ⟨k, hk⟩ := hnonempty child (.inl rfl)
      obtain ⟨k', hk'⟩ := hnonempty next.2 (hbehind _ (.inl rfl))
      have hbelow := (h.1 k hk).2 next.1 rfl
      have habove : next.1 ≤ k' := by
        cases rest with
        | nil => exact (h.2 k' hk').1 next.1 rfl
        | cons d rest => exact (h.2.1 k' hk').1 next.1 rfl
      refine ⟨fun low hlow => ?_, fun high hhigh => ?_⟩
      · exact ((hinside child (.inl rfl) k hk).1 low hlow).trans hbelow.le
      · exact habove.trans_lt ((hinside next.2 (hbehind _ (.inl rfl)) k' hk').2 high hhigh)
    · exact ih h.2 (fun d hd => hnonempty d (hbehind d hd)) (fun d hd => hinside d (hbehind d hd))
        hnext

end Separators
