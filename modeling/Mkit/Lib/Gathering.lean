import Mathlib.Data.List.Forall2
import Mkit.Lib.Wire

/-!
# Fallible Functions along a List

Running a fallible function on every member of a list: the results stand in the places of the
members they belong to, and the first failure ends the run. A list that is worked through in
pieces is cut so that the pieces give it back.

`Ends` says of a computation what its value and what its error are like, and composes along
sequences and folds; `Follows` compares two computations by what they succeed with.
-/

namespace Gathering

variable {α β σ ε : Type} {f : α → Except ε β}

variable {l : List α}

/-- All members succeed, each with the result in its place. -/
theorem mapM_eq_ok {out : List β} :
    l.mapM f = .ok out ↔ List.Forall₂ (fun a b => f a = .ok b) l out := by
  rw [← List.mapM'_eq_mapM]
  induction l generalizing out with
  | nil =>
    rw [List.mapM'_nil, List.forall₂_nil_left_iff]
    exact ⟨fun h => (Except.ok.inj h).symm, fun h => congrArg _ h.symm⟩
  | cons a l ih =>
    rw [List.mapM'_cons, Wire.bind_eq_ok]
    constructor
    · rintro ⟨b, hb, h⟩
      rw [Wire.bind_eq_ok] at h
      obtain ⟨bs, hbs, h⟩ := h
      obtain rfl : b :: bs = out := Except.ok.inj h
      exact .cons hb (ih.1 hbs)
    · intro h
      cases h with
      | @cons _ b _ bs hb hbs =>
        refine ⟨b, hb, ?_⟩
        rw [Wire.bind_eq_ok]
        exact ⟨bs, ih.2 hbs, rfl⟩

/-- Checks of all members pass when every one does. -/
theorem forM_eq_ok {f : α → Except ε Unit} : l.forM f = .ok () ↔ ∀ a ∈ l, f a = .ok () := by
  refine ⟨Wire.forM_eq_ok, fun h => ?_⟩
  induction l with
  | nil => rfl
  | cons a l ih =>
    rw [List.forall_mem_cons] at h
    exact Wire.bind_eq_ok.2 ⟨(), h.1, ih h.2⟩

/-- What every step keeps, a fold that succeeds keeps. -/
theorem foldlM_invariant {step : σ → α → Except ε σ} {I : σ → Prop} {s s' : σ}
    (hstep : ∀ s a s', I s → step s a = .ok s' → I s') (hs : I s)
    (h : l.foldlM step s = .ok s') : I s' := by
  induction l generalizing s with
  | nil => exact Except.ok.inj h ▸ hs
  | cons a l ih =>
    obtain ⟨t, ht, h⟩ := Wire.bind_eq_ok.1 h
    exact ih (hstep _ _ _ hs ht) h

theorem map_eq_map_of_forall₂ {g : α → σ} {k : β → σ} {out : List β}
    (h : List.Forall₂ (fun a b => g a = k b) l out) : l.map g = out.map k := by
  induction h with
  | nil => rfl
  | cons hab _ ih => rw [List.map_cons, List.map_cons, hab, ih]

theorem forall_mem_of_forall₂ {Q : β → Prop} {out : List β}
    (h : List.Forall₂ (fun _ b => Q b) l out) : ∀ b ∈ out, Q b := by
  induction h with
  | nil => exact fun b hb => absurd hb List.not_mem_nil
  | cons hb _ ih => exact List.forall_mem_cons.2 ⟨hb, ih⟩

/-! ### Two ways to end -/

/-- A value that satisfies `P`, or an error that satisfies `E`. -/
def Ends (P : α → Prop) (E : ε → Prop) : Except ε α → Prop
  | .ok a => P a
  | .error e => E e

section Ends

variable {P P' : α → Prop} {Q : β → Prop} {E E' : ε → Prop}

variable {x : Except ε α}

theorem ends_iff : Ends P E x ↔ (∀ a, x = .ok a → P a) ∧ ∀ e, x = .error e → E e := by
  cases x with
  | ok a => exact ⟨fun h => ⟨fun _ ha => Except.ok.inj ha ▸ h, fun _ he => (nomatch he)⟩,
      fun h => h.1 a rfl⟩
  | error e => exact ⟨fun h => ⟨fun _ ha => (nomatch ha), fun _ he => Except.error.inj he ▸ h⟩,
      fun h => h.2 e rfl⟩

theorem Ends.imp (h : Ends P E x) (hP : ∀ a, P a → P' a) (hE : ∀ e, E e → E' e) : Ends P' E' x := by
  cases x with
  | ok a => exact hP a h
  | error e => exact hE e h

theorem Ends.bind {k : α → Except ε β} (h : Ends P E x)
    (hk : ∀ a, P a → Ends Q E (k a)) : Ends Q E (x >>= k) := by
  cases x with
  | ok a => exact hk a h
  | error e => exact h

end Ends

/-- Whatever succeeds, succeeds in the other computation with the same value. -/
def Follows {ε' : Type} (x : Except ε α) (y : Except ε' α) : Prop :=
  ∀ a, x = .ok a → y = .ok a

section Follows

variable {ε' : Type}

theorem Follows.refl (x : Except ε α) : Follows x x :=
  fun _ h => h

theorem Follows.bind {x : Except ε α} {y : Except ε' α} {k : α → Except ε β} {k' : α → Except ε' β}
    (h : Follows x y) (hk : ∀ a, Follows (k a) (k' a)) : Follows (x >>= k) (y >>= k') := by
  intro b hb
  obtain ⟨a, ha, hb⟩ := Wire.bind_eq_ok.1 hb
  exact Wire.bind_eq_ok.2 ⟨a, h a ha, hk a b hb⟩

theorem Follows.foldlM {step : σ → α → Except ε σ} {step' : σ → α → Except ε' σ}
    (h : ∀ s a, Follows (step s a) (step' s a)) (l : List α) (s : σ) :
    Follows (l.foldlM step s) (l.foldlM step' s) := by
  induction l generalizing s with
  | nil => exact fun a ha => congrArg Except.ok (Except.ok.inj ha)
  | cons a l ih =>
    rw [List.foldlM_cons, List.foldlM_cons]
    exact (h s a).bind ih

end Follows

/-! ### Cutting a list -/

/-- Cut a list into pieces of given lengths. -/
def cut : List ℕ → List α → List (List α)
  | [], _ => []
  | len :: lens, l => l.take len :: cut lens (l.drop len)

/-- Cut a list into pieces of one length; the last piece may be shorter. -/
def chunks (n : ℕ) (l : List α) : List (List α) :=
  cut (List.replicate ((l.length + n - 1) / n) n) l

theorem flatten_cut {lens : List ℕ} (h : l.length ≤ lens.sum) : (cut lens l).flatten = l := by
  induction lens generalizing l with
  | nil => exact (List.eq_nil_of_length_eq_zero (Nat.le_zero.1 h)).symm
  | cons len lens ih =>
    have hrest : (l.drop len).length ≤ lens.sum := by
      rw [List.sum_cons] at h
      rw [List.length_drop]
      omega
    rw [cut, List.flatten_cons, ih hrest, List.take_append_drop]

/-- Working through a list in pieces is working through it. -/
theorem foldlM_flatten (step : σ → α → Except ε σ) (ls : List (List α)) (s : σ) :
    ls.foldlM (fun s l => l.foldlM step s) s = ls.flatten.foldlM step s := by
  induction ls generalizing s with
  | nil => rfl
  | cons l ls ih =>
    rw [List.flatten_cons, List.foldlM_append, List.foldlM_cons]
    exact congrArg _ (funext ih)

/-- Gathering a list in pieces and working through each piece succeeds as working through what is
gathered from all of it. -/
theorem foldlM_gather {gather : List α → Except ε (List β)} {R : α → β → Prop}
    (hgather : ∀ l bs, gather l = .ok bs ↔ List.Forall₂ R l bs) (step : σ → β → Except ε σ)
    (ls : List (List α)) {s s' : σ} :
    ls.foldlM (fun s l => do (← gather l).foldlM step s) s = .ok s' ↔
      ∃ bs, List.Forall₂ R ls.flatten bs ∧ bs.foldlM step s = .ok s' := by
  induction ls generalizing s with
  | nil =>
    rw [List.foldlM_nil, List.flatten_nil]
    constructor
    · exact fun h => ⟨[], .nil, h⟩
    · rintro ⟨bs, hbs, h⟩
      rw [List.forall₂_nil_left_iff.1 hbs] at h
      exact h
  | cons l ls ih =>
    rw [List.foldlM_cons, List.flatten_cons, Wire.bind_eq_ok]
    constructor
    · rintro ⟨t, ht, h⟩
      obtain ⟨bs, hbs, ht⟩ := Wire.bind_eq_ok.1 ht
      obtain ⟨bs', hbs', h⟩ := ih.1 h
      refine ⟨bs ++ bs', List.rel_append ((hgather l bs).1 hbs) hbs', ?_⟩
      rw [List.foldlM_append, Wire.bind_eq_ok]
      exact ⟨t, ht, h⟩
    · rintro ⟨bs, hbs, h⟩
      have hcut : bs.take l.length ++ bs.drop l.length = bs := List.take_append_drop _ _
      rw [← hcut, List.foldlM_append, Wire.bind_eq_ok] at h
      obtain ⟨t, ht, h⟩ := h
      have hleft := List.forall₂_take l.length hbs
      have hright := List.forall₂_drop l.length hbs
      rw [List.take_left] at hleft
      rw [List.drop_left] at hright
      exact ⟨t, Wire.bind_eq_ok.2 ⟨_, (hgather l _).2 hleft, ht⟩, ih.2 ⟨_, hright, h⟩⟩
theorem flatten_chunks {n : ℕ} (hn : 0 < n) (l : List α) : (chunks n l).flatten = l := by
  refine flatten_cut ?_
  have hdiv := Nat.div_add_mod (l.length + n - 1) n
  have hmod := Nat.mod_lt (l.length + n - 1) hn
  rw [Nat.mul_comm] at hdiv
  rw [List.sum_replicate_nat]
  omega

end Gathering
