import Mathlib.Algebra.Order.BigOperators.Group.Finset
import Mathlib.Data.Finmap

/-!
# Values Kept until Their Last Use

A program makes values under keys, one after the other, and later steps read them back by key.
If the keys still to be read are known in advance, a value may be dropped after its last use.
This module is the general part of that argument: how often each key is still to be read
(`tally`, `spend`), which value a key has when everything is kept (`latest`), and when a cache
that drops values still serves every later read (`Serves`).

`total` adds up a ledger of amounts held under keys; `eraseDups_concat` is the step of a loop
that collects the distinct keys of a list.
-/

namespace Tally

variable {K V : Type} [DecidableEq K]

/-! ### Counting uses -/

/-- Count one more use of a key. -/
def note (m : Finmap fun _ : K => ℕ) (k : K) : Finmap fun _ : K => ℕ :=
  m.insert k ((m.lookup k).getD 0 + 1)

/-- How often each key occurs in a list; keys that do not occur are absent. -/
def tally (l : List K) : Finmap fun _ : K => ℕ :=
  l.foldl note ∅

/-- Count one use less of a key, and forget it at zero. -/
def spend (m : Finmap fun _ : K => ℕ) (k : K) : Finmap fun _ : K => ℕ :=
  match m.lookup k with
  | none => m
  | some n => if n - 1 = 0 then m.erase k else m.insert k (n - 1)

theorem lookup_insert_eq {β : Type} (m : Finmap fun _ : K => β) (k x : K) (b : β) :
    (m.insert k b).lookup x = if x = k then some b else m.lookup x := by
  by_cases h : x = k
  · subst h
    rw [if_pos rfl]
    exact Finmap.lookup_insert m
  · rw [if_neg h]
    exact Finmap.lookup_insert_of_ne m h

theorem lookup_erase_eq {β : Type} (m : Finmap fun _ : K => β) (k x : K) :
    (m.erase k).lookup x = if x = k then none else m.lookup x := by
  by_cases h : x = k
  · subst h
    rw [if_pos rfl]
    exact Finmap.lookup_erase x m
  · rw [if_neg h]
    exact Finmap.lookup_erase_ne h

/-- The number of occurrences, absent at zero. -/
def atLeastOne (n : ℕ) : Option ℕ :=
  if n = 0 then none else some n

theorem getD_atLeastOne (n : ℕ) : (atLeastOne n).getD 0 = n := by
  rw [atLeastOne]
  split_ifs with h
  · exact h.symm
  · rfl

/-- A tally counts. -/
theorem lookup_tally (l : List K) (x : K) : (tally l).lookup x = atLeastOne (l.count x) := by
  have h : ∀ (m : Finmap fun _ : K => ℕ) (n : K → ℕ), (∀ x, m.lookup x = atLeastOne (n x)) →
      ∀ x, (l.foldl note m).lookup x = atLeastOne (n x + l.count x) := by
    induction l with
    | nil =>
      intro m n hm x
      simpa using hm x
    | cons k l ih =>
      intro m n hm x
      have hnote : ∀ y, (note m k).lookup y = atLeastOne (n y + if y = k then 1 else 0) := by
        intro y
        rw [note, lookup_insert_eq, hm k, getD_atLeastOne]
        by_cases hy : y = k
        · subst hy
          rw [if_pos rfl, if_pos rfl, atLeastOne, if_neg (by omega)]
        · rw [if_neg hy, if_neg hy, hm y, Nat.add_zero]
      rw [List.foldl_cons, ih (note m k) _ hnote x, List.count_cons]
      congr 1
      by_cases hx : x = k
      · subst hx
        simp
        omega
      · have hx' : ¬ k = x := fun h => hx h.symm
        simp [hx, hx']
  have := h ∅ (fun _ => 0) (fun x => by simp [atLeastOne]) x
  simpa [tally] using this

variable {l : List K}

theorem mem_tally {x : K} : x ∈ tally l ↔ x ∈ l := by
  rw [← Finmap.lookup_isSome, lookup_tally, atLeastOne, ← List.count_pos_iff]
  split_ifs with h
  · simp [h]
  · simp only [Option.isSome_some, true_iff]
    omega

/-- Using the first of the keys still to be used leaves the others. -/
theorem spend_tally (k : K) (l : List K) : spend (tally (k :: l)) k = tally l := by
  apply Finmap.ext_lookup
  intro x
  have hk : (tally (k :: l)).lookup k = some (l.count k + 1) := by
    rw [lookup_tally, List.count_cons_self, atLeastOne, if_neg (by omega)]
  rw [spend, hk]
  dsimp only
  have hother : ∀ y, y ≠ k → (tally (k :: l)).lookup y = (tally l).lookup y := by
    intro y hy
    rw [lookup_tally, lookup_tally, List.count_cons_of_ne (Ne.symm hy)]
  rw [Nat.add_sub_cancel]
  by_cases hzero : l.count k = 0
  · rw [if_pos hzero, lookup_erase_eq]
    split_ifs with hx
    · rw [hx, lookup_tally, hzero]
      rfl
    · exact hother x hx
  · rw [if_neg hzero, lookup_insert_eq]
    split_ifs with hx
    · rw [hx, lookup_tally, atLeastOne, if_neg hzero]
    · exact hother x hx

/-! ### Values made so far -/

/-- The value made last under a key. -/
def latest (made : List (K × V)) (k : K) : Option V :=
  (made.reverse.find? fun p => p.1 = k).map Prod.snd

@[simp] theorem latest_nil (k : K) : latest ([] : List (K × V)) k = none := rfl

theorem latest_snoc (made : List (K × V)) (p : K × V) (k : K) :
    latest (made ++ [p]) k = if p.1 = k then some p.2 else latest made k := by
  rw [latest, List.reverse_append, List.reverse_singleton, List.singleton_append,
    List.find?_cons]
  by_cases h : p.1 = k
  · simp [h]
  · simp [h, latest]

variable {k : K}

/-- The cache has the latest value of every key that is still to be read. -/
def Serves (cache : Finmap fun _ : K => V) (made : List (K × V)) (l : List K) : Prop :=
  ∀ k ∈ l, ∀ v, latest made k = some v → cache.lookup k = some v

/-- Nothing has been made yet. -/
theorem serves_nil (cache : Finmap fun _ : K => V) (l : List K) : Serves cache [] l := by
  intro k _ v h
  simp at h

variable {cache : Finmap fun _ : K => V}

/-- A value that is still to be read is kept, any other may be dropped. -/
theorem Serves.make {made : List (K × V)} (h : Serves cache made l) (k : K) (v : V) :
    Serves (if k ∈ l then cache.insert k v else cache) (made ++ [(k, v)]) l := by
  intro x hx w hw
  rw [latest_snoc] at hw
  by_cases hkx : k = x
  · subst hkx
    rw [if_pos rfl] at hw
    rw [if_pos hx, lookup_insert_eq, if_pos rfl]
    exact hw
  · rw [if_neg hkx] at hw
    have hold := h x hx w hw
    split_ifs
    · rw [lookup_insert_eq, if_neg (Ne.symm hkx)]
      exact hold
    · exact hold

/-- After its last use a key may be dropped. -/
theorem Serves.drop {made : List (K × V)} (h : Serves cache made (k :: l)) :
    Serves (if k ∈ l then cache else cache.erase k) made l := by
  intro x hx w hw
  have hold := h x (List.mem_cons_of_mem k hx) w hw
  split_ifs with hk
  · exact hold
  · rw [lookup_erase_eq, if_neg]
    · exact hold
    · rintro rfl
      exact hk hx

/-- A key that has not been made may be filled in from elsewhere. -/
theorem Serves.fill {made : List (K × V)}
    (h : Serves cache made l) (hk : latest made k = none) (v : V) :
    Serves (cache.insert k v) made l := by
  intro x hx w hw
  rw [lookup_insert_eq, if_neg]
  · exact h x hx w hw
  · rintro rfl
    rw [hk] at hw
    cases hw

/-! ### Ledgers -/

/-- The sum of the amounts of a ledger. -/
def total (m : Finmap fun _ : K => ℕ) : ℕ :=
  (m.entries.map Sigma.snd).sum

omit [DecidableEq K] in
@[simp] theorem total_empty : total (∅ : Finmap fun _ : K => ℕ) = 0 := rfl

variable {m : Finmap fun _ : K => ℕ}

theorem total_insert (h : m.lookup k = none) (n : ℕ) : total (m.insert k n) = n + total m := by
  rw [total, Finmap.entries_insert_of_notMem (Finmap.lookup_eq_none.1 h), Multiset.map_cons,
    Multiset.sum_cons, total]

theorem total_erase {n : ℕ} (h : m.lookup k = some n) : n + total (m.erase k) = total m := by
  rw [← total_insert (Finmap.lookup_erase k m) n]
  congr 1
  apply Finmap.ext_lookup
  intro x
  rw [lookup_insert_eq, lookup_erase_eq]
  split_ifs with hx
  · rw [hx, h]
  · rfl

/-- The sum of a ledger, key by key. -/
theorem total_eq_sum (m : Finmap fun _ : K => ℕ) : total m = ∑ k ∈ m.keys, (m.lookup k).getD 0 := by
  induction m using Finmap.induction_on with
  | H a =>
    have hsum : ∀ l : List (Sigma fun _ : K => ℕ), l.NodupKeys →
        (l.map Sigma.snd).sum = (l.keys.map fun k => (l.dlookup k).getD 0).sum := by
      intro l
      induction l with
      | nil => intro _; rfl
      | cons p l ih =>
        intro hl
        rw [List.nodupKeys_cons] at hl
        rw [List.map_cons, List.sum_cons, List.keys_cons, List.map_cons, List.sum_cons,
          List.dlookup_cons_eq, ih hl.2]
        congr 1
        refine congrArg List.sum (List.map_congr_left fun k hk => ?_)
        have hne : k ≠ p.1 := fun h => hl.1 (h ▸ hk)
        rw [List.dlookup_cons_ne _ _ hne]
    change (Multiset.map Sigma.snd (a.entries : Multiset (Sigma fun _ : K => ℕ))).sum = _
    rw [Multiset.map_coe, Multiset.sum_coe, hsum a.entries a.nodupKeys]
    rfl

/-- A ledger whose keys stand in a list and whose amounts are bounded. -/
theorem total_le {M : ℕ}
    (h : ∀ k n, m.lookup k = some n → k ∈ l ∧ n ≤ M) : total m ≤ l.length * M := by
  have hkeys : m.keys ⊆ l.toFinset := by
    intro k hk
    obtain ⟨n, hn⟩ := Finmap.mem_iff.1 (Finmap.mem_keys.1 hk)
    exact List.mem_toFinset.2 (h k n hn).1
  have hle : ∀ k ∈ m.keys, (m.lookup k).getD 0 ≤ M := by
    intro k hk
    obtain ⟨n, hn⟩ := Finmap.mem_iff.1 (Finmap.mem_keys.1 hk)
    rw [hn]
    exact (h k n hn).2
  calc total m = ∑ k ∈ m.keys, (m.lookup k).getD 0 := total_eq_sum m
    _ ≤ m.keys.card * M := Finset.sum_le_card_nsmul m.keys _ M hle
    _ ≤ l.length * M := Nat.mul_le_mul_right M
        ((Finset.card_le_card hkeys).trans l.toFinset_card_le)

/-! ### Distinct keys -/

/-- Appending a key keeps the distinct ones and adds it when it is new. -/
theorem eraseDups_concat (l : List K) (k : K) :
    (l ++ [k]).eraseDups = if k ∈ l then l.eraseDups else l.eraseDups ++ [k] := by
  rw [List.eraseDups_append]
  by_cases hmem : k ∈ l
  · simp [List.removeAll, hmem]
  · simp [List.removeAll, hmem, List.eraseDups_cons]

end Tally
