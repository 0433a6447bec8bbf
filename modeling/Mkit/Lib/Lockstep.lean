import Mathlib.Data.List.ReduceOption
import Mathlib.Data.List.Pairwise
import Mathlib.Order.Lattice

/-!
# Walking Three Sorted Lists in Lockstep

Three lists sorted by a key are read front to back together: each step takes the smallest
key in front of any of them and, from each list, the element in front when it has that key.
On ascending lists the rows so collected are the three lookups of every key that occurs, in
ascending order of the keys (`rowsOf_rows`). Two lists are walked the same way, by comparing the
keys in front (`pairs_eq_rows`). A pass that turns each row into at most one
element under the row's key therefore computes an ascending list, whose lookups are what the
pass did to the rows (`ascending_reduceOption`, `find_reduceOption`).
-/

namespace Lockstep

variable {α κ : Type} [LinearOrder κ]

/-- The smaller of two keys; the first one when they are equal. -/
def smaller (result next : Option κ) : Option κ :=
  match next with
  | none => result
  | some v =>
    match result with
    | some r => if r ≤ v then some r else some v
    | none => some v

/-- The smallest of up to three keys. -/
def minOfThree (a b c : Option κ) : Option κ :=
  smaller (smaller a b) c

/-- What the three lists hold under one key. -/
structure Row (κ α : Type) where
  key : κ
  first : Option α
  second : Option α
  third : Option α

variable (key : α → κ)

/-- Take the element in front if it has the key `k`. -/
def takeKey (k : κ) : List α → Option α × List α
  | [] => (none, [])
  | x :: xs => if key x = k then (some x, xs) else (none, x :: xs)

/-- The lockstep walk, for at most `fuel` steps. -/
def rows : ℕ → List α → List α → List α → List (Row κ α)
  | 0, _, _, _ => []
  | fuel + 1, as, bs, cs =>
    match minOfThree (as.head?.map key) (bs.head?.map key) (cs.head?.map key) with
    | none => []
    | some k =>
      let (a, as') := takeKey key k as
      let (b, bs') := takeKey key k bs
      let (c, cs') := takeKey key k cs
      ⟨k, a, b, c⟩ :: rows fuel as' bs' cs'

/-- Keys ascend strictly. -/
def Ascending (l : List α) : Prop :=
  l.Pairwise fun x y => key x < key y

/-- The element under a key. -/
def find (k : κ) (l : List α) : Option α :=
  l.find? fun x => key x = k

/-! ### The smallest key -/

variable {a b : Option κ}

theorem smaller_eq_none : smaller a b = none ↔ a = none ∧ b = none := by
  rcases a with _ | x <;> rcases b with _ | y <;> simp only [smaller]
  · simp
  · simp
  · simp
  · split <;> simp

variable {k : κ}

theorem smaller_eq_some (h : smaller a b = some k) :
    (∀ x ∈ a, k ≤ x) ∧ (∀ x ∈ b, k ≤ x) ∧ (a = some k ∨ b = some k) := by
  rcases a with _ | x <;> rcases b with _ | y <;> simp only [smaller] at h
  · simp at h
  · obtain rfl := Option.some.inj h
    simp
  · obtain rfl := Option.some.inj h
    simp
  · split at h
    · rename_i hle
      obtain rfl := Option.some.inj h
      simpa using hle
    · rename_i hlt
      obtain rfl := Option.some.inj h
      simpa using (not_le.1 hlt).le

variable {c : Option κ}

theorem minOfThree_eq_none : minOfThree a b c = none ↔ a = none ∧ b = none ∧ c = none := by
  rw [minOfThree, smaller_eq_none, smaller_eq_none, and_assoc]

theorem minOfThree_eq_some (h : minOfThree a b c = some k) :
    (∀ x ∈ a, k ≤ x) ∧ (∀ x ∈ b, k ≤ x) ∧ (∀ x ∈ c, k ≤ x) ∧
      (a = some k ∨ b = some k ∨ c = some k) := by
  obtain ⟨hab, hc, hk⟩ := smaller_eq_some h
  cases hs : smaller a b with
  | none =>
    obtain ⟨rfl, rfl⟩ := smaller_eq_none.1 hs
    rw [hs] at hk
    exact ⟨by simp, by simp, hc, .inr (.inr (hk.resolve_left (by simp)))⟩
  | some m =>
    obtain ⟨ha, hb, hm⟩ := smaller_eq_some hs
    have hkm : k ≤ m := hab m hs
    refine ⟨fun x hx => hkm.trans (ha x hx), fun x hx => hkm.trans (hb x hx), hc, ?_⟩
    rcases hk with hk | hk
    · obtain rfl : m = k := Option.some.inj (hs.symm.trans hk)
      rcases hm with hm | hm
      · exact .inl hm
      · exact .inr (.inl hm)
    · exact .inr (.inr hk)

/-! ### Walking with two lists exchanged -/

theorem smaller_comm (a b : Option κ) : smaller a b = smaller b a := by
  rcases a with _ | x <;> rcases b with _ | y
  · rfl
  · rfl
  · rfl
  · rcases lt_trichotomy x y with hlt | rfl | hgt
    · rw [smaller, smaller, if_pos hlt.le, if_neg hlt.not_ge]
    · rfl
    · rw [smaller, smaller, if_neg hgt.not_ge, if_pos hgt.le]

theorem smaller_assoc (a b c : Option κ) : smaller (smaller a b) c = smaller a (smaller b c) := by
  rcases a with _ | x <;> rcases b with _ | y <;> rcases c with _ | z <;>
    simp only [smaller] <;> grind

theorem minOfThree_swap (a b c : Option κ) : minOfThree a c b = minOfThree a b c := by
  rw [minOfThree, minOfThree, smaller_assoc, smaller_assoc, smaller_comm c b]

/-- The row with the second and third list exchanged. -/
def Row.swap (r : Row κ α) : Row κ α := ⟨r.key, r.first, r.third, r.second⟩

theorem rows_swap (fuel : ℕ) (as bs cs : List α) :
    rows key fuel as cs bs = (rows key fuel as bs cs).map Row.swap := by
  induction fuel generalizing as bs cs with
  | zero => rfl
  | succ fuel ih =>
    rw [rows, rows, minOfThree_swap]
    cases minOfThree (as.head?.map key) (bs.head?.map key) (cs.head?.map key) with
    | none => rfl
    | some k => exact congrArg (_ :: ·) (ih _ _ _)

variable {bs cs : List α} {r : Row κ α} {x : α}

/-- What a row holds has the key of the row. -/
theorem key_of_mem_rows {fuel : ℕ} {as : List α} (hr : r ∈ rows key fuel as bs cs)
    (hx : x ∈ r.first ∨ x ∈ r.second ∨ x ∈ r.third) : key x = r.key := by
  have htake : ∀ {k : κ} {l : List α}, x ∈ (takeKey key k l).1 → key x = k := by
    intro k l hx
    cases l with
    | nil => cases hx
    | cons y ys =>
      rw [takeKey] at hx
      split at hx
      · rename_i hk
        obtain rfl := Option.some.inj hx
        exact hk
      · cases hx
  induction fuel generalizing as bs cs with
  | zero => cases hr
  | succ fuel ih =>
    rw [rows] at hr
    split at hr
    · cases hr
    · rcases List.mem_cons.1 hr with rfl | hr
      · rcases hx with hx | hx | hx <;> exact htake hx
      · exact ih hr

/-! ### Walking two lists -/

/-- The lockstep walk over two lists, for at most `fuel` steps: of different keys in front the
smaller one is taken, and equal ones together. -/
def pairs : ℕ → List α → List α → List (Option α × Option α)
  | 0, _, _ => []
  | fuel + 1, a :: as, b :: bs =>
    if key a < key b then (some a, none) :: pairs fuel as (b :: bs)
    else if key b < key a then (none, some b) :: pairs fuel (a :: as) bs
    else (some a, some b) :: pairs fuel as bs
  | fuel + 1, a :: as, [] => (some a, none) :: pairs fuel as []
  | fuel + 1, [], b :: bs => (none, some b) :: pairs fuel [] bs
  | _ + 1, [], [] => []

/-- What a row of two lists holds. -/
def Row.pair (r : Row κ α) : Option α × Option α := (r.first, r.second)

/-- Two lists are walked as three, of which the last is empty. -/
theorem pairs_eq_rows (fuel : ℕ) (as bs : List α) :
    pairs key fuel as bs = (rows key fuel as bs []).map Row.pair := by
  induction fuel generalizing as bs with
  | zero => rfl
  | succ fuel ih =>
    rcases as with - | ⟨a, as⟩ <;> rcases bs with - | ⟨b, bs⟩
    · rfl
    · simp [pairs, rows, minOfThree, smaller, takeKey, Row.pair, ih]
    · simp [pairs, rows, minOfThree, smaller, takeKey, Row.pair, ih]
    · rcases lt_trichotomy (key a) (key b) with hlt | heq | hgt
      · simp [pairs, rows, minOfThree, smaller, takeKey, Row.pair, ih, hlt, hlt.le, hlt.ne']
      · simp [pairs, rows, minOfThree, smaller, takeKey, Row.pair, ih, heq]
      · simp [pairs, rows, minOfThree, smaller, takeKey, Row.pair, ih, hgt, hgt.not_ge,
          hgt.not_gt, hgt.ne']

/-! ### Lookups in ascending lists -/

variable {key}

variable {l : List α}

theorem find_eq_none (h : ∀ x ∈ l, k < key x) : find key k l = none := by
  rw [find, List.find?_eq_none]
  intro x hx
  simpa using (h x hx).ne'

theorem find_cons_of_ne (h : key x ≠ k) : find key k (x :: l) = find key k l := by
  simp [find, h]

theorem find_cons_self : find key (key x) (x :: l) = some x := by
  simp [find]

theorem key_of_find (h : find key k l = some x) : key x = k := by
  simpa using List.find?_some h

theorem mem_of_find (h : find key k l = some x) : x ∈ l :=
  List.mem_of_find?_eq_some h

/-- The elements of an ascending list are found under their keys. -/
theorem find_of_mem (h : Ascending key l) (hx : x ∈ l) : find key (key x) l = some x := by
  induction l with
  | nil => cases hx
  | cons y l ih =>
    obtain ⟨hlt, hl⟩ := List.pairwise_cons.1 h
    rcases List.mem_cons.1 hx with rfl | hx
    · exact find_cons_self
    · rw [find_cons_of_ne (hlt x hx).ne]
      exact ih hl hx

theorem find_eq_none_of_notMem (h : k ∉ l.map key) : find key k l = none := by
  rw [find, List.find?_eq_none]
  intro x hx
  rw [decide_eq_true_eq]
  rintro rfl
  exact h (List.mem_map_of_mem hx)

/-- `l'` is what is left of `l` above the key `k`. -/
structure Above (key : α → κ) (k : κ) (l l' : List α) : Prop where
  ascending : Ascending key l'
  lt : ∀ x ∈ l', k < key x
  find_eq : ∀ k', k < k' → find key k' l' = find key k' l

/-- Taking a key no larger than the first one looks it up and leaves the larger keys. -/
theorem takeKey_spec (hl : Ascending key l) (hk : ∀ x ∈ l.head?.map key, k ≤ x) :
    (takeKey key k l).1 = find key k l ∧ Above key k l (takeKey key k l).2 ∧
      (takeKey key k l).2.length ≤ l.length ∧
      (l.head?.map key = some k → (takeKey key k l).2.length < l.length) := by
  cases l with
  | nil => exact ⟨rfl, ⟨hl, by simp [takeKey], fun _ _ => rfl⟩, le_refl _, by simp⟩
  | cons x xs =>
    obtain ⟨hx, hxs⟩ := List.pairwise_cons.1 hl
    by_cases hkx : key x = k
    · subst hkx
      have htake : takeKey key (key x) (x :: xs) = (some x, xs) := by simp [takeKey]
      rw [htake]
      exact ⟨find_cons_self.symm, ⟨hxs, hx, fun k' hk' => (find_cons_of_ne hk'.ne).symm⟩,
        by simp, by simp⟩
    · have htake : takeKey key k (x :: xs) = (none, x :: xs) := by simp [takeKey, hkx]
      have hlt : k < key x := lt_of_le_of_ne (hk _ (by simp)) (Ne.symm hkx)
      have hall : ∀ y ∈ x :: xs, k < key y := by
        intro y hy
        rcases List.mem_cons.1 hy with rfl | hy
        · exact hlt
        · exact hlt.trans (hx y hy)
      rw [htake]
      exact ⟨(find_eq_none hall).symm, ⟨hl, hall, fun _ _ => rfl⟩, le_refl _,
        fun h => absurd (by simpa using h) hkx⟩

/-- A key no larger than the first one is no larger than any. -/
theorem le_of_le_head (hl : Ascending key l)
    (hk : ∀ x ∈ l.head?.map key, k ≤ x) : ∀ x ∈ l, k ≤ key x := by
  cases l with
  | nil => simp
  | cons y l =>
    have hy : k ≤ key y := hk _ (by simp)
    intro x hx
    rcases List.mem_cons.1 hx with rfl | hx
    · exact hy
    · exact hy.trans ((List.pairwise_cons.1 hl).1 x hx).le

/-! ### The rows -/

/-- One step of the walk: either all lists are exhausted, or the row of the smallest key is
taken and the walk goes on above it. -/
theorem rows_succ {as : List α} (ha : Ascending key as) (hb : Ascending key bs)
    (hc : Ascending key cs) (fuel : ℕ) :
    (as = [] ∧ bs = [] ∧ cs = [] ∧ rows key (fuel + 1) as bs cs = []) ∨
    ∃ k as' bs' cs',
      rows key (fuel + 1) as bs cs =
        ⟨k, find key k as, find key k bs, find key k cs⟩ :: rows key fuel as' bs' cs' ∧
      Above key k as as' ∧ Above key k bs bs' ∧ Above key k cs cs' ∧
      (∀ x ∈ as ++ bs ++ cs, k ≤ key x) ∧ (∃ x ∈ as ++ bs ++ cs, key x = k) ∧
      as'.length + bs'.length + cs'.length < as.length + bs.length + cs.length := by
  cases hm : minOfThree (as.head?.map key) (bs.head?.map key) (cs.head?.map key) with
  | none =>
    obtain ⟨h1, h2, h3⟩ := minOfThree_eq_none.1 hm
    have has : as = [] := by simpa using h1
    have hbs : bs = [] := by simpa using h2
    have hcs : cs = [] := by simpa using h3
    refine .inl ⟨has, hbs, hcs, ?_⟩
    rw [rows, hm]
  | some k =>
    obtain ⟨hka, hkb, hkc, hmem⟩ := minOfThree_eq_some hm
    obtain ⟨ea, hA, hla, hla'⟩ := takeKey_spec ha hka
    obtain ⟨eb, hB, hlb, hlb'⟩ := takeKey_spec hb hkb
    obtain ⟨ec, hC, hlc, hlc'⟩ := takeKey_spec hc hkc
    refine .inr ⟨k, _, _, _, ?_, hA, hB, hC, ?_, ?_, ?_⟩
    · rw [rows, hm, ← ea, ← eb, ← ec]
    · intro x hx
      rcases List.mem_append.1 hx with hx | hx
      · rcases List.mem_append.1 hx with hx | hx
        · exact le_of_le_head ha hka x hx
        · exact le_of_le_head hb hkb x hx
      · exact le_of_le_head hc hkc x hx
    · have hhead : ∀ l : List α, l.head?.map key = some k → ∃ x ∈ l, key x = k := by
        intro l hl
        obtain ⟨x, hx, hxk⟩ := Option.map_eq_some_iff.1 hl
        exact ⟨x, List.mem_of_mem_head? hx, hxk⟩
      rcases hmem with h | h | h
      · obtain ⟨x, hx, hxk⟩ := hhead as h
        exact ⟨x, by simp [hx], hxk⟩
      · obtain ⟨x, hx, hxk⟩ := hhead bs h
        exact ⟨x, by simp [hx], hxk⟩
      · obtain ⟨x, hx, hxk⟩ := hhead cs h
        exact ⟨x, by simp [hx], hxk⟩
    · rcases hmem with h | h | h
      · have := hla' h
        omega
      · have := hlb' h
        omega
      · have := hlc' h
        omega

/-- `rs` are the rows of three lists: the lookups of every key that occurs, in order. -/
structure RowsOf (key : α → κ) (as bs cs : List α) (rs : List (Row κ α)) : Prop where
  ascending : rs.Pairwise fun r r' => r.key < r'.key
  lookups : ∀ r ∈ rs, r.first = find key r.key as ∧ r.second = find key r.key bs ∧
    r.third = find key r.key cs
  complete : ∀ k, (∀ r ∈ rs, r.key ≠ k) →
    find key k as = none ∧ find key k bs = none ∧ find key k cs = none
  exists_key : ∀ r ∈ rs, ∃ x ∈ as ++ bs ++ cs, key x = r.key

/-- The rows above the smallest key, together with its own row. -/
theorem RowsOf.cons {as bs cs as' bs' cs' : List α} {k : κ} {rs : List (Row κ α)}
    (hA : Above key k as as') (hB : Above key k bs bs') (hC : Above key k cs cs')
    (hle : ∀ x ∈ as ++ bs ++ cs, k ≤ key x) (hk : ∃ x ∈ as ++ bs ++ cs, key x = k)
    (h : RowsOf key as' bs' cs' rs) :
    RowsOf key as bs cs (⟨k, find key k as, find key k bs, find key k cs⟩ :: rs) := by
  have hlt : ∀ r ∈ rs, k < r.key := by
    intro r hr
    obtain ⟨x, hx, hxk⟩ := h.exists_key r hr
    rw [← hxk]
    simp only [List.mem_append] at hx
    rcases hx with (hx | hx) | hx
    · exact hA.lt x hx
    · exact hB.lt x hx
    · exact hC.lt x hx
  -- Looking up a key above `k` goes through to the shorter lists.
  have hrow : ∀ r ∈ rs, r.first = find key r.key as ∧ r.second = find key r.key bs ∧
      r.third = find key r.key cs := by
    intro r hr
    obtain ⟨h1, h2, h3⟩ := h.lookups r hr
    exact ⟨h1.trans (hA.find_eq _ (hlt r hr)), h2.trans (hB.find_eq _ (hlt r hr)),
      h3.trans (hC.find_eq _ (hlt r hr))⟩
  refine ⟨List.pairwise_cons.2 ⟨hlt, h.ascending⟩, ?_, ?_, ?_⟩
  · intro r hr
    rcases List.mem_cons.1 hr with rfl | hr
    · exact ⟨rfl, rfl, rfl⟩
    · exact hrow r hr
  · intro k' hk'
    have hne : k ≠ k' := hk' _ List.mem_cons_self
    rcases lt_or_gt_of_ne hne with hkk | hkk
    · obtain ⟨h1, h2, h3⟩ := h.complete k' fun r hr => hk' r (List.mem_cons_of_mem _ hr)
      exact ⟨(hA.find_eq _ hkk).symm.trans h1, (hB.find_eq _ hkk).symm.trans h2,
        (hC.find_eq _ hkk).symm.trans h3⟩
    · have hlow : ∀ x ∈ as ++ bs ++ cs, k' < key x := fun x hx => hkk.trans_le (hle x hx)
      exact ⟨find_eq_none fun x hx => hlow x (by simp [hx]),
        find_eq_none fun x hx => hlow x (by simp [hx]),
        find_eq_none fun x hx => hlow x (by simp [hx])⟩
  · intro r hr
    rcases List.mem_cons.1 hr with rfl | hr
    · exact hk
    · obtain ⟨h1, h2, h3⟩ := hrow r hr
      obtain ⟨x, hx, hxk⟩ := h.exists_key r hr
      have hfound : find key r.key as' ≠ none ∨ find key r.key bs' ≠ none ∨
          find key r.key cs' ≠ none := by
        simp only [find, ne_eq, List.find?_eq_none, decide_eq_true_eq, not_forall, not_not]
        simp only [List.mem_append] at hx
        rcases hx with (hx | hx) | hx
        · exact .inl ⟨x, hx, hxk⟩
        · exact .inr (.inl ⟨x, hx, hxk⟩)
        · exact .inr (.inr ⟨x, hx, hxk⟩)
      have hin : ∀ l, find key r.key l ≠ none → ∃ y ∈ l, key y = r.key := by
        intro l hl
        obtain ⟨y, hy⟩ := Option.ne_none_iff_exists'.1 hl
        exact ⟨y, mem_of_find hy, key_of_find hy⟩
      rw [hA.find_eq _ (hlt r hr), hB.find_eq _ (hlt r hr), hC.find_eq _ (hlt r hr)] at hfound
      rcases hfound with hf | hf | hf
      · obtain ⟨y, hy, hyk⟩ := hin as hf
        exact ⟨y, by simp [hy], hyk⟩
      · obtain ⟨y, hy, hyk⟩ := hin bs hf
        exact ⟨y, by simp [hy], hyk⟩
      · obtain ⟨y, hy, hyk⟩ := hin cs hf
        exact ⟨y, by simp [hy], hyk⟩

/-- Given enough steps, the walk over ascending lists collects their rows. -/
theorem rowsOf_rows {fuel : ℕ} {as : List α} (ha : Ascending key as)
    (hb : Ascending key bs) (hc : Ascending key cs)
    (hfuel : as.length + bs.length + cs.length ≤ fuel) :
    RowsOf key as bs cs (rows key fuel as bs cs) := by
  induction fuel generalizing as bs cs with
  | zero =>
    have has : as = [] := List.length_eq_zero_iff.1 (by omega)
    have hbs : bs = [] := List.length_eq_zero_iff.1 (by omega)
    have hcs : cs = [] := List.length_eq_zero_iff.1 (by omega)
    subst has hbs hcs
    exact ⟨List.Pairwise.nil, by simp [rows], by simp [find], by simp [rows]⟩
  | succ fuel ih =>
    rcases rows_succ ha hb hc fuel with ⟨rfl, rfl, rfl, hnil⟩ |
      ⟨k, as', bs', cs', hcons, hA, hB, hC, hle, hk, hlen⟩
    · rw [hnil]
      exact ⟨List.Pairwise.nil, by simp, by simp [find], by simp⟩
    · rw [hcons]
      exact (ih hA.ascending hB.ascending hC.ascending (by omega)).cons hA hB hC hle hk

/-! ### A pass over the rows -/

variable {rs : List (Row κ α)} {outs : List (Option α)}

omit [LinearOrder κ] in
/-- An element of the result comes from a row with its key. -/
theorem exists_row_of_mem (h : List.Forall₂ (fun r o => ∀ x ∈ o, key x = r.key) rs outs)
    (hx : x ∈ outs.reduceOption) : ∃ r ∈ rs, key x = r.key := by
  induction h with
  | nil => simp at hx
  | @cons r o rs outs hr _ ih =>
    rw [List.reduceOption_mem_iff, List.mem_cons] at hx
    rcases hx with hx | hx
    · exact ⟨r, List.mem_cons_self, hr x hx.symm⟩
    · obtain ⟨r', hr', hk⟩ := ih (List.reduceOption_mem_iff.2 hx)
      exact ⟨r', List.mem_cons_of_mem _ hr', hk⟩

/-- A pass over ascending rows gives an ascending list. -/
theorem ascending_reduceOption (hrs : rs.Pairwise fun r r' => r.key < r'.key)
    (h : List.Forall₂ (fun r o => ∀ x ∈ o, key x = r.key) rs outs) :
    Ascending key outs.reduceOption := by
  induction h with
  | nil => exact List.Pairwise.nil
  | @cons r o rs outs hr hrest ih =>
    obtain ⟨hlt, hrs⟩ := List.pairwise_cons.1 hrs
    cases o with
    | none => simpa using ih hrs
    | some x =>
      rw [List.reduceOption_cons_of_some]
      refine List.pairwise_cons.2 ⟨fun y hy => ?_, ih hrs⟩
      obtain ⟨r', hr', hk⟩ := exists_row_of_mem hrest hy
      rw [hr x rfl, hk]
      exact hlt r' hr'

/-- Its lookups are what the pass did to the rows. -/
theorem find_reduceOption (hrs : rs.Pairwise fun r r' => r.key < r'.key)
    (h : List.Forall₂ (fun r o => ∀ x ∈ o, key x = r.key) rs outs)
    {o : Option α} (hro : (r, o) ∈ rs.zip outs) : find key r.key outs.reduceOption = o := by
  induction h with
  | nil => simp at hro
  | @cons r' o' rs outs hr' hrest ih =>
    obtain ⟨hlt, hrs⟩ := List.pairwise_cons.1 hrs
    rw [List.zip_cons_cons, List.mem_cons] at hro
    rcases hro with hro | hro
    · obtain ⟨rfl, rfl⟩ := Prod.mk.inj hro
      cases o with
      | none =>
        rw [List.reduceOption_cons_of_none]
        refine find_eq_none fun x hx => ?_
        obtain ⟨r'', hr'', hk⟩ := exists_row_of_mem hrest hx
        exact hk ▸ hlt r'' hr''
      | some x =>
        rw [List.reduceOption_cons_of_some, ← hr' x rfl, find_cons_self]
    · have hne : r'.key ≠ r.key := (hlt r (List.of_mem_zip hro).1).ne
      cases o' with
      | none =>
        rw [List.reduceOption_cons_of_none]
        exact ih hrs hro
      | some x =>
        rw [List.reduceOption_cons_of_some, find_cons_of_ne (by rwa [hr' x rfl])]
        exact ih hrs hro

/-- A key without a row is not in the result. -/
theorem find_reduceOption_eq_none (h : List.Forall₂ (fun r o => ∀ x ∈ o, key x = r.key) rs outs)
    (hk : ∀ r ∈ rs, r.key ≠ k) : find key k outs.reduceOption = none := by
  rw [find, List.find?_eq_none]
  intro x hx
  obtain ⟨r, hr, hxr⟩ := exists_row_of_mem h hx
  simpa [hxr] using hk r hr

end Lockstep
