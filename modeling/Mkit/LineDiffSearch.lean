import Mkit.Lib.EditDistance
import Mkit.LineDiff

/-!
# The Search Is Shortest

Three facts about `myers_changed` of `ops/diff.rs` beyond its alignment. Setting the common leading
run aside makes no difference: the search keeps equal first lines (`myersChangedCore_cons`), since
the path it chooses is the only one of its kind (`Chosen.unique`). The lines it flags are as few as
can be, all but a longest common subsequence of the two sides. And its arrays are large enough.

For the last, `Arrays` repeats the search on arrays, where an index out of bounds is `none`. As the
source casts signed numbers to indices, a negative one is beyond the end of every array.

## Main results

* `myersChanged_eq` — the search with and without the common leading run;
* `Arrays.myersChangedCore_eq` — no access is out of bounds, and the arrays hold the frontiers;
* `myersChanged_minimal` — the flags, their number, and that every access is in bounds.
-/

namespace Mkit.LineDiff

open EditGraph

variable {old new : List DiffLine} {mode : WhitespaceMode}

/-! ### Equal first lines are kept -/

theorem match_cons {a b : DiffLine} (x y : ℤ) (hx : 0 ≤ x) (hy : 0 ≤ y) :
    Match old new mode x y ↔ Match (a :: old) (b :: new) mode (x + 1) (y + 1) := by
  obtain ⟨i, rfl⟩ := Int.eq_ofNat_of_zero_le hx
  obtain ⟨j, rfl⟩ := Int.eq_ofNat_of_zero_le hy
  have hbehind : Match (a :: old) (b :: new) mode ((i + 1 : ℕ) : ℤ) ((j + 1 : ℕ) : ℤ) ↔
      Match old new mode i j := by
    rw [match_natCast, match_natCast, List.getElem?_cons_succ, List.getElem?_cons_succ]
  exact hbehind.symm

/-- Put an unset flag before the flags of each side. -/
def keepFirst (flags : List Bool × List Bool) : List Bool × List Bool :=
  (false :: flags.1, false :: flags.2)

variable {a b : DiffLine}

/-- **The search keeps equal first lines.** -/
theorem myersChangedCore_cons (hab : linesEqual a b mode = true) :
    myersChangedCore (a :: old) (b :: new) mode =
      (myersChangedCore old new mode).map keepFirst := by
  obtain ⟨d, ms, hchosen, hleast, hcore⟩ := myersChangedCore_chosen old new mode
  obtain ⟨d', ms', hchosen', hleast', hcore'⟩ := myersChangedCore_chosen (a :: old) (b :: new) mode
  have hfirst : Match (a :: old) (b :: new) mode 0 0 := match_natCast.2 ⟨a, b, rfl, rfl, hab⟩
  have hkept := hchosen.behind match_cons hfirst
  have hfewest := least_behind (@match_cons old new mode a b) (fun _ _ => lt_of_match)
    (Int.natCast_nonneg _) (Int.natCast_nonneg _) hleast
  simp only [List.length_cons, Nat.cast_add, Nat.cast_one] at hchosen' hleast'
  obtain rfl : d = d' := by
    rcases lt_trichotomy d d' with hlt | heq | hgt
    · exact absurd hkept.traced.reach (hleast' d hlt)
    · exact heq
    · exact absurd hchosen'.traced.reach (hfewest d' hgt)
  rw [hcore, hcore', ← hkept.unique hchosen']
  rfl

theorem myersChanged_cons (hab : linesEqual a b mode = true) :
    myersChanged (a :: old) (b :: new) mode = (myersChanged old new mode).map keepFirst := by
  rw [myersChanged, myersChanged, commonPrefix, if_pos hab]
  rw [List.drop_succ_cons, List.drop_succ_cons]
  cases myersChangedCore (old.drop (commonPrefix mode old new))
    (new.drop (commonPrefix mode old new)) mode with
  | none => rfl
  | some flags => rfl

theorem myersChanged_of_commonPrefix (h : commonPrefix mode old new = 0) :
    myersChanged old new mode = myersChangedCore old new mode := by
  rw [myersChanged, h, List.drop_zero, List.drop_zero]
  cases myersChangedCore old new mode with
  | none => rfl
  | some flags => rfl

/-- **Setting the common leading run aside makes no difference.** -/
theorem myersChanged_eq (old new : List DiffLine) (mode : WhitespaceMode) :
    myersChanged old new mode = myersChangedCore old new mode := by
  induction old generalizing new with
  | nil =>
    refine myersChanged_of_commonPrefix ?_
    rw [commonPrefix]
    rintro _ _ _ _ ⟨⟩
  | cons a old ih =>
    cases new with
    | nil => exact myersChanged_of_commonPrefix rfl
    | cons b new =>
      by_cases hab : linesEqual a b mode = true
      · rw [myersChanged_cons hab, ih, myersChangedCore_cons hab]
      · exact myersChanged_of_commonPrefix (by rw [commonPrefix, if_neg hab])

/-! ### The flags are as few as can be -/

theorem rows_match (old new : List DiffLine) (mode : WhitespaceMode) :
    Rows (Match old new mode) (fun a b => linesEqual a b mode = true) old new :=
  fun _ _ => match_natCast

/-- All lines are flagged but those of a longest common subsequence. -/
theorem count_myersChangedCore {F G : List Bool} (h : myersChangedCore old new mode = some (F, G)) :
    ∃ c, Longest (fun a b => linesEqual a b mode = true) old new c ∧
      F.count true + G.count true + 2 * c = old.length + new.length := by
  obtain ⟨d, ms, hchosen, hleast, hcore⟩ := myersChangedCore_chosen old new mode
  obtain ⟨c, hlongest, hsum⟩ := longest_of_least (rows_match old new mode) hchosen.traced hleast
  obtain ⟨rfl, rfl⟩ := Prod.mk.inj (Option.some.inj (hcore.symm.trans h))
  exact ⟨c, hlongest, by rw [hchosen.traced.count_flags, hsum]⟩

/-! ### The search on arrays -/

namespace Arrays

/-- Does this number, cast to an index, lie within so many rows? -/
def below (x : ℤ) (n : ℕ) : Bool :=
  0 ≤ x ∧ x < n

section Search

variable (old new : List DiffLine) (mode : WhitespaceMode)

/-- The shift that makes an index of a diagonal. -/
def offset : ℕ :=
  old.length + new.length

/-- Read a V array at a diagonal. -/
def get (v : List ℤ) (k : ℤ) : Option ℤ :=
  if 0 ≤ k + offset old new then v[(k + offset old new).toNat]? else none

/-- Write a V array at a diagonal. -/
def set (v : List ℤ) (k x : ℤ) : Option (List ℤ) :=
  if below (k + offset old new) v.length then some (v.set (k + offset old new).toNat x) else none

/-- Does the path arrive on this diagonal by an insertion? -/
def goesDown (v : List ℤ) (d : ℕ) (k : ℤ) : Option Bool :=
  if k = -d then some true
  else if k = d then some false
  else do
    let left ← get old new v (k - 1)
    let right ← get old new v (k + 1)
    some (left < right)

/-- Extend a path along its diagonal. -/
def snake : ℕ → ℤ → ℤ → Option ℤ
  | 0, x, _ => some x
  | n + 1, x, y =>
    if below x old.length && below y new.length then do
      let a ← old[x.toNat]?
      let b ← new[y.toNat]?
      if linesEqual a b mode then snake n (x + 1) (y + 1) else some x
    else some x

def furthest (v : List ℤ) (d : ℕ) (k : ℤ) : Option ℤ := do
  let down ← goesDown old new v d k
  let x ← if down then get old new v (k + 1) else (get old new v (k - 1)).map (· + 1)
  snake old new mode old.length x (x - k)

/-- One round, from diagonal `k` on. Without a result the corner was found. -/
def searchRound (d : ℕ) : ℕ → ℤ → List ℤ → Option (Option (List ℤ))
  | 0, _, v => some (some v)
  | n + 1, k, v => do
    let x ← furthest old new mode v d k
    let v ← set old new v k x
    if !below x old.length && !below (x - k) new.length then some none
    else searchRound d n (k + 2) v

def search : ℕ → ℕ → List ℤ → List (List ℤ) → Option (ℕ × List (List ℤ))
  | 0, _, _, traces => some (old.length + new.length, traces)
  | n + 1, d, v, traces => do
    match ← searchRound old new mode d (d + 1) (-d) v with
    | none => some (d, traces ++ [v])
    | some v' => search n (d + 1) v' (traces ++ [v])

/-- Walk back along a diagonal to the point where the last edit arrived. -/
def stepBack (vd : List ℤ) (d : ℕ) (x y : ℤ) : Option (Bool × ℤ × ℤ) := do
  let k := x - y
  let down ← goesDown old new vd d k
  let prevK := if down then k + 1 else k - 1
  let prevX ← get old new vd prevK
  some (down, walkBack prevX (prevX - prevK) x.toNat x y)

def backtrack (traces : List (List ℤ)) :
    ℕ → ℤ → ℤ → List Bool → List Bool → Option (List Bool × List Bool)
  | 0, x, y, oldChanged, newChanged => do
    let vd ← traces[0]?
    let _ ← stepBack old new vd 0 x y
    some (oldChanged, newChanged)
  | d + 1, x, y, oldChanged, newChanged => do
    let vd ← traces[d + 1]?
    let (down, x, y) ← stepBack old new vd (d + 1) x y
    if down then do
      let newChanged ← setFlag newChanged (y - 1)
      backtrack traces d x (y - 1) oldChanged newChanged
    else do
      let oldChanged ← setFlag oldChanged (x - 1)
      backtrack traces d (x - 1) y oldChanged newChanged

def myersChangedCore : Option (List Bool × List Bool) :=
  let oldChanged := List.replicate old.length false
  let newChanged := List.replicate new.length false
  if old.length = 0 then some (oldChanged, List.replicate new.length true)
  else if new.length = 0 then some (List.replicate old.length true, newChanged)
  else do
    let v := List.replicate (2 * offset old new + 1) (0 : ℤ)
    let (found, traces) ← search old new mode (offset old new + 1) 0 v []
    backtrack old new traces found old.length new.length oldChanged newChanged

/-- Length of the common leading run, of which so much is known and so much may follow. -/
def commonPrefix : ℕ → ℕ → Option ℕ
  | 0, pre => some pre
  | n + 1, pre => do
    let a ← old[pre]?
    let b ← new[pre]?
    if linesEqual a b mode then commonPrefix n (pre + 1) else some pre

/-- The rows from an index on. -/
def sliceFrom {α : Type} (l : List α) (i : ℕ) : Option (List α) :=
  if i ≤ l.length then some (l.drop i) else none

def myersChanged : Option (List Bool × List Bool) := do
  let pre ← commonPrefix old new mode (min old.length new.length) 0
  let midOld ← sliceFrom old pre
  let midNew ← sliceFrom new pre
  let (midOldChanged, midNewChanged) ← myersChangedCore midOld midNew mode
  some (List.replicate pre false ++ midOldChanged, List.replicate pre false ++ midNewChanged)

end Search

/-! The arrays hold the frontiers, and the diagonals of every round are within them. -/

/-- The array holds these values, one for each diagonal. -/
structure Stores (old new : List DiffLine) (v : List ℤ) (w : ℤ → ℤ) : Prop where
  length_eq : v.length = 2 * offset old new + 1
  get_eq : ∀ k : ℤ, -offset old new ≤ k → k ≤ offset old new → get old new v k = some (w k)

theorem stores_replicate :
    Stores old new (List.replicate (2 * offset old new + 1) (0 : ℤ)) fun _ => 0 where
  length_eq := List.length_replicate
  get_eq k hlow hhigh := by
    rw [get, if_pos (by omega), List.getElem?_replicate, if_pos (by omega)]

variable {v : List ℤ} {w : ℤ → ℤ} {k : ℤ}

theorem Stores.set (h : Stores old new v w) (x : ℤ)
    (hlow : -offset old new ≤ k) (hhigh : k ≤ offset old new) :
    ∃ v', Arrays.set old new v k x = some v' ∧ Stores old new v' (Function.update w k x) := by
  have hlen := h.length_eq
  have hin : below (k + offset old new) v.length = true := decide_eq_true (by omega)
  refine ⟨_, if_pos hin, by rw [List.length_set, hlen], fun k' hlow' hhigh' => ?_⟩
  have hget := h.get_eq k' hlow' hhigh'
  rw [get, if_pos (by omega)] at hget ⊢
  by_cases hk : k' = k
  · subst hk
    rw [Function.update_self, List.getElem?_set_self (by omega)]
  · rw [Function.update_of_ne hk, List.getElem?_set_ne (by omega), hget]

/-- A round that may be run. -/
abbrev InRange (old new : List DiffLine) (d : ℕ) : Prop :=
  d ≤ offset old new ∧ 0 < offset old new

variable {d : ℕ}

theorem goesDown_eq (h : Stores old new v w) (hd : InRange old new d) (hk : OnRound d k) :
    goesDown old new v d k = some (decide (GoesDown w d k)) := by
  obtain ⟨hd, hpos⟩ := hd
  simp only [OnRound] at hk
  rw [goesDown]
  by_cases hlow : k = -d
  · rw [if_pos hlow, decide_eq_true (.inl hlow)]
  · rw [if_neg hlow]
    by_cases hhigh : k = d
    · rw [if_pos hhigh, decide_eq_false]
      rintro (hdown | ⟨hne, -⟩)
      · exact hlow hdown
      · exact hne hhigh
    · rw [if_neg hhigh, h.get_eq (k - 1) (by omega) (by omega),
        h.get_eq (k + 1) (by omega) (by omega)]
      refine congrArg some (decide_eq_decide.2 ?_)
      exact ⟨fun hlt => .inr ⟨hhigh, hlt⟩, fun hdown => (hdown.resolve_left hlow).2⟩

/-- The neighbour that the path comes from is a diagonal of the array. -/
theorem neighbour_inRange (hd : InRange old new d) (hk : OnRound d k) :
    (GoesDown w d k → -offset old new ≤ k + 1 ∧ k + 1 ≤ offset old new) ∧
      (¬ GoesDown w d k → -offset old new ≤ k - 1 ∧ k - 1 ≤ offset old new) := by
  obtain ⟨hd, hpos⟩ := hd
  simp only [OnRound] at hk
  constructor
  · rintro (hlow | ⟨hne, -⟩)
    · omega
    · omega
  · intro hright
    have hlow : k ≠ -d := fun hlow => hright (.inl hlow)
    omega

theorem snake_eq (n : ℕ) (x y : ℤ) :
    snake old new mode n x y = some (LineDiff.snake old new mode n x y) := by
  induction n generalizing x y with
  | zero => rfl
  | succ n ih =>
    rw [snake, LineDiff.snake]
    by_cases hin : (below x old.length && below y new.length) = true
    · rw [if_pos hin]
      rw [Bool.and_eq_true, below, below, decide_eq_true_iff, decide_eq_true_iff] at hin
      obtain ⟨⟨hx, hxlt⟩, hy, hylt⟩ := hin
      obtain ⟨a, ha⟩ : ∃ a, old[x.toNat]? = some a := ⟨_, List.getElem?_eq_getElem (by omega)⟩
      obtain ⟨b, hb⟩ : ∃ b, new[y.toNat]? = some b := ⟨_, List.getElem?_eq_getElem (by omega)⟩
      have hsame : sameAt old new mode x y = linesEqual a b mode := by
        rw [sameAt, if_pos ⟨hx, hy⟩, ha, hb]
      rw [hsame, ha, hb]
      dsimp only [Option.bind_eq_bind, Option.bind_some]
      by_cases hab : linesEqual a b mode = true
      · rw [if_pos hab, if_pos hab]
        exact ih _ _
      · rw [if_neg hab, if_neg hab]
    · rw [if_neg hin]
      have hno : ¬ sameAt old new mode x y = true := by
        intro hsame
        obtain ⟨hx, hy, -⟩ := exists_of_match hsame
        have hlt := lt_of_match hsame
        refine hin ?_
        rw [Bool.and_eq_true, below, below, decide_eq_true_iff, decide_eq_true_iff]
        exact ⟨⟨hx, hlt.1⟩, hy, hlt.2⟩
      rw [if_neg hno]

theorem furthest_eq (h : Stores old new v w) (hd : InRange old new d) (hk : OnRound d k) :
    furthest old new mode v d k = some (LineDiff.furthest old new mode w d k) := by
  rw [furthest, goesDown_eq h hd hk, LineDiff.furthest]
  dsimp only [Option.bind_eq_bind, Option.bind_some]
  by_cases hdown : GoesDown w d k
  · obtain ⟨hlow, hhigh⟩ := (neighbour_inRange hd hk).1 hdown
    rw [if_pos (decide_eq_true hdown), if_pos hdown, h.get_eq _ hlow hhigh]
    exact snake_eq _ _ _
  · obtain ⟨hlow, hhigh⟩ := (neighbour_inRange hd hk).2 hdown
    rw [if_neg (by simpa using hdown), if_neg hdown, h.get_eq _ hlow hhigh]
    exact snake_eq _ _ _

/-- A round on an array goes as the round on its values: the numbers it casts to indices are not
negative, being rows that are reached. -/
theorem searchRound_eq {w₀ : ℤ → ℤ} (hd : InRange old new d)
    (hw₀ : Snapshot (Match old new mode) d w₀) (n : ℕ) (k : ℤ)
    (h : Stores old new v w) (hk : k + 2 * n = d + 2) (hlow : -d ≤ k)
    (hkeep : ∀ k', ¬ OnRound d k' → w k' = w₀ k') : ∃ r, searchRound old new mode d n k v = some r ∧
      Option.Rel (Stores old new) r (LineDiff.searchRound old new mode d n k w) := by
  induction n generalizing k v w with
  | zero => exact ⟨_, rfl, .some h⟩
  | succ n ih =>
    push_cast at hk
    have hround : OnRound d k := by
      simp only [OnRound]
      omega
    have habove : w (k + 1) = w₀ (k + 1) := hkeep _ (by simp only [OnRound] at *; omega)
    have hbelow : w (k - 1) = w₀ (k - 1) := hkeep _ (by simp only [OnRound] at *; omega)
    have hfurthest : LineDiff.furthest old new mode w d k =
        LineDiff.furthest old new mode w₀ d k := by
      simp only [LineDiff.furthest, GoesDown, habove, hbelow]
    have hnonneg := (furthest_spec hw₀ hround).1.1.nonneg
    rw [← hfurthest] at hnonneg
    have hrange := hround
    simp only [OnRound] at hrange
    obtain ⟨v', hset, hv'⟩ := h.set (LineDiff.furthest old new mode w d k) (k := k)
      (by omega) (by omega)
    rw [searchRound, furthest_eq h hd hround, LineDiff.searchRound]
    generalize LineDiff.furthest old new mode w d k = x at hnonneg hset hv'
    dsimp only [Option.bind_eq_bind, Option.bind_some]
    rw [hset]
    dsimp only [Option.bind_some]
    have hhits : (!below x old.length && !below (x - k) new.length) = true ↔
        old.length ≤ x ∧ new.length ≤ x - k := by
      rw [Bool.and_eq_true, Bool.not_eq_true', Bool.not_eq_true', below, below,
        decide_eq_false_iff_not, decide_eq_false_iff_not]
      omega
    by_cases hhit : old.length ≤ x ∧ new.length ≤ x - k
    · rw [if_pos (hhits.2 hhit), if_pos hhit]
      exact ⟨none, rfl, .none⟩
    · rw [if_neg (mt hhits.1 hhit), if_neg hhit]
      refine ih (k + 2) hv' (by omega) (by omega) fun k' hk' => ?_
      rw [Function.update_of_ne (by rintro rfl; exact hk' hround)]
      exact hkeep k' hk'

theorem search_eq (n d : ℕ) {v : List ℤ} {w : ℤ → ℤ} {traces : List (List ℤ)}
    {snapshots : List (ℤ → ℤ)} (hpos : 0 < offset old new) (hn : n + d = offset old new + 1)
    (hw : Snapshot (Match old new mode) d w) (h : Stores old new v w)
    (htraces : List.Forall₂ (Stores old new) traces snapshots) :
    ∃ traces', search old new mode n d v traces =
        some ((LineDiff.search old new mode n d w snapshots).1, traces') ∧
      List.Forall₂ (Stores old new) traces' (LineDiff.search old new mode n d w snapshots).2 := by
  induction n generalizing d v w traces snapshots with
  | zero => exact ⟨traces, rfl, htraces⟩
  | succ n ih =>
    have hd : InRange old new d := ⟨by omega, hpos⟩
    have hsaved := List.rel_append htraces (.cons h .nil)
    obtain ⟨r, hr, hrel⟩ := searchRound_eq hd hw (d + 1) (-d) h (by push_cast; ring) le_rfl
      fun _ _ => rfl
    have hnext := searchRound_spec hw (d + 1) (-d) w (by push_cast; ring) le_rfl
      (fun k' hk' hlt => by
        simp only [OnRound] at hk'
        omega) fun _ _ => rfl
    rw [search, LineDiff.search, hr]
    generalize LineDiff.searchRound old new mode d (d + 1) (-d) w = r' at hrel hnext
    cases hrel with
    | none => exact ⟨_, rfl, hsaved⟩
    | @some v' w' hv' =>
      exact ih (d + 1) (by omega) (fun k hk => (hnext.1 w' rfl k hk).1) hv' hsaved

/-- Walking back stays on the diagonal. -/
theorem walkBack_sub (prevX prevY : ℤ) (n : ℕ) (x y : ℤ) :
    (walkBack prevX prevY n x y).1 - (walkBack prevX prevY n x y).2 = x - y := by
  induction n generalizing x y with
  | zero => rfl
  | succ n ih =>
    rw [walkBack]
    split
    · rw [ih]
      omega
    · rfl

theorem stepBack_eq (h : Stores old new v w) {x y : ℤ}
    (hd : InRange old new d) (hk : OnRound d (x - y)) : stepBack old new v d x y =
      some (if GoesDown w d (x - y) then
        (true, walkBack (w (x - y + 1)) (w (x - y + 1) - (x - y + 1)) x.toNat x y)
      else (false, walkBack (w (x - y - 1)) (w (x - y - 1) - (x - y - 1)) x.toNat x y)) := by
  rw [stepBack]
  dsimp only
  rw [goesDown_eq h hd hk]
  dsimp only [Option.bind_eq_bind, Option.bind_some]
  by_cases hdown : GoesDown w d (x - y)
  · obtain ⟨hlow, hhigh⟩ := (neighbour_inRange hd hk).1 hdown
    rw [decide_eq_true hdown, if_pos rfl, if_pos hdown, h.get_eq _ hlow hhigh]
    rfl
  · obtain ⟨hlow, hhigh⟩ := (neighbour_inRange hd hk).2 hdown
    rw [decide_eq_false hdown, if_neg Bool.false_ne_true, if_neg hdown, h.get_eq _ hlow hhigh]
    rfl

variable {traces : List (List ℤ)} {snapshots : List (ℤ → ℤ)}

theorem exists_stores
    (h : List.Forall₂ (Stores old new) traces snapshots) {i : ℕ} (hi : i < snapshots.length) :
    ∃ v w, traces[i]? = some v ∧ snapshots[i]? = some w ∧ Stores old new v w := by
  have hi' : i < traces.length := h.length_eq ▸ hi
  exact ⟨_, _, List.getElem?_eq_getElem hi', List.getElem?_eq_getElem hi, h.get hi' hi⟩

/-- The backtrack reads each round on one of its diagonals. -/
theorem backtrack_eq
    (h : List.Forall₂ (Stores old new) traces snapshots) (d : ℕ) (x y : ℤ) (F G : List Bool)
    (hlt : d < snapshots.length) (hd : InRange old new d) (hk : OnRound d (x - y)) :
    backtrack old new traces d x y F G = LineDiff.backtrack snapshots d x y F G := by
  induction d generalizing x y F G with
  | zero =>
    obtain ⟨v, w, hv, -, hstores⟩ := exists_stores h hlt
    rw [backtrack, hv]
    dsimp only [Option.bind_eq_bind, Option.bind_some]
    rw [stepBack_eq hstores hd hk]
    rfl
  | succ d ih =>
    obtain ⟨v, w, hv, hw, hstores⟩ := exists_stores h hlt
    have hprev : InRange old new d := ⟨Nat.le_of_succ_le hd.1, hd.2⟩
    have hround := hk
    simp only [OnRound] at hround
    rw [backtrack, LineDiff.backtrack, hv, hw]
    dsimp only [Option.bind_eq_bind, Option.bind_some]
    rw [stepBack_eq hstores hd hk]
    by_cases hdown : GoesDown w (d + 1) (x - y)
    · rw [if_pos hdown, if_pos hdown]
      dsimp only [Option.bind_some]
      rw [if_pos rfl]
      refine congrArg _ (funext fun G => ih _ _ _ _ (by omega) hprev ?_)
      have hsub := walkBack_sub (w (x - y + 1)) (w (x - y + 1) - (x - y + 1)) x.toNat x y
      simp only [OnRound]
      rcases hdown with hlow | ⟨hne, -⟩
      · omega
      · omega
    · rw [if_neg hdown, if_neg hdown]
      dsimp only [Option.bind_some]
      rw [if_neg Bool.false_ne_true]
      refine congrArg _ (funext fun F => ih _ _ _ _ (by omega) hprev ?_)
      have hsub := walkBack_sub (w (x - y - 1)) (w (x - y - 1) - (x - y - 1)) x.toNat x y
      have hlow : x - y ≠ -((d + 1 : ℕ) : ℤ) := fun hlow => hdown (.inl hlow)
      simp only [OnRound]
      omega

/-- **The search on arrays** comes to the same flags, so none of its indices is out of bounds. -/
theorem myersChangedCore_eq (old new : List DiffLine) (mode : WhitespaceMode) :
    myersChangedCore old new mode = LineDiff.myersChangedCore old new mode := by
  rw [myersChangedCore, LineDiff.myersChangedCore]
  dsimp only
  by_cases hold : old.length = 0
  · rw [if_pos hold, if_pos hold]
  · rw [if_neg hold, if_neg hold]
    by_cases hnew : new.length = 0
    · rw [if_pos hnew, if_pos hnew]
    · rw [if_neg hnew, if_neg hnew]
      have hpos : 0 < offset old new := Nat.add_pos_left (Nat.pos_of_ne_zero hold) _
      obtain ⟨traces, hsearch, htraces⟩ := @search_eq old new mode (offset old new + 1) 0 _
        (fun _ => 0) [] [] hpos rfl rfl stores_replicate .nil
      obtain ⟨found, snapshots, heq, hlt, -, hfrontier, hleast⟩ :=
        @search_spec old new mode (old.length + new.length + 1) 0 (fun _ => 0) [] rfl rfl rfl
          (by rintro _ _ ⟨⟩) (by rintro _ ⟨⟩)
      have heq' : LineDiff.search old new mode (offset old new + 1) 0 (fun _ => 0) [] =
          (found, snapshots) := heq
      rw [heq'] at hsearch htraces
      have hfound : found ≤ offset old new := by
        refine not_lt.1 fun hgt => hleast (offset old new) hgt ?_
        have hreach := (Reach.origin.dels old.length).inss new.length (M := Match old new mode)
        simpa [offset] using hreach
      have hround := hfrontier.1.onRound
      rw [sub_sub_cancel] at hround
      rw [hsearch, heq]
      exact backtrack_eq htraces found _ _ _ _ hlt ⟨hfound, hpos⟩ hround

/-- The loop over the common leading run goes on from where it stands. -/
theorem commonPrefix_eq (n pre : ℕ) (hn : n = min (old.drop pre).length (new.drop pre).length) :
    commonPrefix old new mode n pre =
      some (pre + LineDiff.commonPrefix mode (old.drop pre) (new.drop pre)) := by
  induction n generalizing pre with
  | zero =>
    have hnil : LineDiff.commonPrefix mode (old.drop pre) (new.drop pre) = 0 := by
      have := @commonPrefix_le mode (old.drop pre) (new.drop pre)
      omega
    rw [commonPrefix, hnil, Nat.add_zero]
  | succ n ih =>
    rw [List.length_drop, List.length_drop] at hn
    obtain ⟨a, ha⟩ : ∃ a, old[pre]? = some a := ⟨_, List.getElem?_eq_getElem (by omega)⟩
    obtain ⟨b, hb⟩ : ∃ b, new[pre]? = some b := ⟨_, List.getElem?_eq_getElem (by omega)⟩
    rw [commonPrefix, ha, hb, drop_eq_cons ha, drop_eq_cons hb, LineDiff.commonPrefix]
    dsimp only [Option.bind_eq_bind, Option.bind_some]
    by_cases hab : linesEqual a b mode = true
    · rw [if_pos hab, if_pos hab,
        ih (pre + 1) (by rw [List.length_drop, List.length_drop]; omega)]
      refine congrArg some ?_
      omega
    · rw [if_neg hab, if_neg hab, Nat.add_zero]

theorem myersChanged_eq (old new : List DiffLine) (mode : WhitespaceMode) :
    myersChanged old new mode = LineDiff.myersChanged old new mode := by
  obtain ⟨hold, hnew⟩ := @commonPrefix_le mode old new
  have hprefix := @commonPrefix_eq old new mode (min old.length new.length) 0 rfl
  rw [List.drop_zero, List.drop_zero, Nat.zero_add] at hprefix
  rw [myersChanged, LineDiff.myersChanged, hprefix]
  dsimp only [Option.bind_eq_bind, Option.bind_some]
  rw [sliceFrom, if_pos hold, sliceFrom, if_pos hnew]
  dsimp only [Option.bind_some]
  rw [myersChangedCore_eq]

end Arrays

/-- **The search is shortest.** On arrays, with the common leading run set aside and without, it
ends with the same flags, one for each line, and no access is out of bounds. As few lines are
flagged as can be: all but a longest common subsequence of the two sides. -/
theorem myersChanged_minimal (old new : List DiffLine) (mode : WhitespaceMode) :
    ∃ F G, Arrays.myersChangedCore old new mode = some (F, G) ∧
      Arrays.myersChanged old new mode = some (F, G) ∧
      F.length = old.length ∧ G.length = new.length ∧
      ∃ c, Longest (fun a b => linesEqual a b mode = true) old new c ∧
        2 * c ≤ old.length + new.length ∧
        F.count true + G.count true = old.length + new.length - 2 * c := by
  obtain ⟨F, G, hcore, hflags⟩ := myersChangedCore_spec old new mode
  obtain ⟨c, hlongest, hcount⟩ := count_myersChangedCore hcore
  refine ⟨F, G, ?_, ?_, hflags.length_old, hflags.length_new, c, hlongest, by omega, by omega⟩
  · rw [Arrays.myersChangedCore_eq, hcore]
  · rw [Arrays.myersChanged_eq, myersChanged_eq, hcore]

end Mkit.LineDiff
