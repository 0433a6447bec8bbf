import Mkit.Lines
import Mkit.Lib.EditGraph

/-!
# The Line Diff

`edit_script` of `ops/diff.rs`: the greedy Myers search over the lines of two files, a backtrack
through the saved frontiers that flags the changed lines of each side, a pass that slides runs
of changed lines down, and the script that the flags spell out.

The search follows the edit graph of the two line lists (`EditGraph`): its arrays hold the
frontier of each round (`Snapshot`), it stops where a shortest script ends (`search_spec`), and
the backtrack flags the edits of the chosen path (`backtrack_spec`). This path has its edits as
late as possible, so no run is ever slid (`compactChanges_eq`), and the flags spell out an
alignment of the two sides (`editScript_aligned`).
-/

namespace Mkit.LineDiff

open EditGraph

/-! ### The search -/

section Myers

variable (old new : List DiffLine) (mode : WhitespaceMode)

/-- Row `x` of the old side and row `y` of the new one are there and equal. -/
def sameAt (x y : ℤ) : Bool :=
  if 0 ≤ x ∧ 0 ≤ y then
    match old[x.toNat]?, new[y.toNat]? with
    | some a, some b => linesEqual a b mode
    | _, _ => false
  else false

/-- Extend a path along its diagonal. Every step takes an old line, so their number is enough
rounds. -/
def snake : ℕ → ℤ → ℤ → ℤ
  | 0, x, _ => x
  | n + 1, x, y => if sameAt old new mode x y then snake n (x + 1) (y + 1) else x

/-- The furthest point on diagonal `k` with `d` edits, given the frontier of round `d - 1`. -/
def furthest (v : ℤ → ℤ) (d : ℕ) (k : ℤ) : ℤ :=
  let x := if GoesDown v d k then v (k + 1) else v (k - 1) + 1
  snake old new mode old.length x (x - k)

/-- One round, from diagonal `k` on. Without a result the corner was found. -/
def searchRound (d : ℕ) : ℕ → ℤ → (ℤ → ℤ) → Option (ℤ → ℤ)
  | 0, _, v => some v
  | n + 1, k, v =>
    let x := furthest old new mode v d k
    let v := Function.update v k x
    if old.length ≤ x ∧ new.length ≤ x - k then none
    else searchRound d n (k + 2) v

/-- Search from round `d` on. The result is the round that found the corner, and the frontiers
that each round up to it started from. -/
def search : ℕ → ℕ → (ℤ → ℤ) → List (ℤ → ℤ) → ℕ × List (ℤ → ℤ)
  | 0, _, _, traces => (old.length + new.length, traces)
  | n + 1, d, v, traces =>
    match searchRound old new mode d (d + 1) (-d) v with
    | none => (d, traces ++ [v])
    | some v' => search n (d + 1) v' (traces ++ [v])

/-! ### The backtrack -/

/-- Walk back along a diagonal to the point where an edit arrived. -/
def walkBack (prevX prevY : ℤ) : ℕ → ℤ → ℤ → ℤ × ℤ
  | 0, x, y => (x, y)
  | n + 1, x, y =>
    if prevX < x ∧ prevY < y then walkBack prevX prevY n (x - 1) (y - 1) else (x, y)

/-- Flag a line, if there is one. -/
def setFlag (flags : List Bool) (i : ℤ) : Option (List Bool) :=
  if 0 ≤ i ∧ i < flags.length then some (flags.set i.toNat true) else none

/-- Recover the edits of rounds `d` down to one. The walk back to the origin flags nothing. -/
def backtrack (traces : List (ℤ → ℤ)) :
    ℕ → ℤ → ℤ → List Bool → List Bool → Option (List Bool × List Bool)
  | 0, _, _, oldChanged, newChanged => some (oldChanged, newChanged)
  | d + 1, x, y, oldChanged, newChanged => do
    let vd ← traces[d + 1]?
    let k := x - y
    if GoesDown vd (d + 1) k then
      let prevX := vd (k + 1)
      let (x, y) := walkBack prevX (prevX - (k + 1)) x.toNat x y
      let newChanged ← setFlag newChanged (y - 1)
      backtrack traces d x (y - 1) oldChanged newChanged
    else
      let prevX := vd (k - 1)
      let (x, y) := walkBack prevX (prevX - (k - 1)) x.toNat x y
      let oldChanged ← setFlag oldChanged (x - 1)
      backtrack traces d (x - 1) y oldChanged newChanged

/-- The changed lines of each side. -/
def myersChangedCore : Option (List Bool × List Bool) :=
  let oldChanged := List.replicate old.length false
  let newChanged := List.replicate new.length false
  if old.length = 0 then some (oldChanged, List.replicate new.length true)
  else if new.length = 0 then some (List.replicate old.length true, newChanged)
  else
    let (found, traces) := search old new mode (old.length + new.length + 1) 0 (fun _ => 0) []
    backtrack traces found old.length new.length oldChanged newChanged

/-- Length of the common leading run. -/
def commonPrefix : List DiffLine → List DiffLine → ℕ
  | a :: as, b :: bs => if linesEqual a b mode then commonPrefix as bs + 1 else 0
  | _, _ => 0

/-- The same with the common leading run set aside. -/
def myersChanged : Option (List Bool × List Bool) := do
  let pre := commonPrefix mode old new
  let (midOld, midNew) ← myersChangedCore (old.drop pre) (new.drop pre) mode
  some (List.replicate pre false ++ midOld, List.replicate pre false ++ midNew)

end Myers

/-! ### Runs and the script -/

section Script

variable (lines : List DiffLine) (mode : WhitespaceMode)

/-- End of the run of flags from `i` on. -/
def runEnd (changed : List Bool) : ℕ → ℕ → ℕ
  | 0, i => i
  | n + 1, i => if changed[i]? = some true then runEnd changed n (i + 1) else i

/-- Both lines are there and equal. -/
def sameLine (s e : ℕ) : Bool :=
  match lines[s]?, lines[e]? with
  | some a, some b => linesEqual a b mode
  | _, _ => false

/-- Slide a run `[s, e)` down while the line leaving it equals the line joining it. -/
def slide : ℕ → List Bool → ℕ → ℕ → List Bool × ℕ
  | 0, changed, _, e => (changed, e)
  | n + 1, changed, s, e =>
    if sameLine lines mode s e then
      slide n ((changed.set s false).set e true) (s + 1) (e + 1)
    else (changed, e)

/-- Slide every run from line `i` on. Each round passes a line, so their number is enough
rounds. -/
def compactFrom : ℕ → ℕ → List Bool → List Bool
  | 0, _, changed => changed
  | n + 1, i, changed =>
    if i < lines.length then
      if changed[i]? = some true then
        let e := runEnd changed lines.length i
        let (changed, e) := slide lines mode lines.length changed i e
        compactFrom n e changed
      else compactFrom n (i + 1) changed
    else changed

def compactChanges (changed : List Bool) : List Bool :=
  compactFrom lines mode lines.length 0 changed

/-- One element of an edit script. -/
inductive DiffOp
  | equal (oi ni : ℕ)
  | delete (oi : ℕ)
  | insert (ni : ℕ)
  deriving DecidableEq

/-- The flagged lines from `i` on. -/
def flagged (changed : List Bool) : ℕ → ℕ → List ℕ
  | 0, _ => []
  | n + 1, i => if changed[i]? = some true then i :: flagged changed n (i + 1) else []

/-- Spell out the flags from lines `i` and `j` on, if that comes to an end. Each round of the
loop that passes nothing would be repeated forever. -/
def scriptFrom (n m : ℕ) (oldChanged newChanged : List Bool) :
    ℕ → ℕ → ℕ → Option (List DiffOp)
  | rounds, i, j =>
    if i < n ∨ j < m then
      match rounds with
      | 0 => none
      | rounds + 1 =>
        if i < n ∧ j < m ∧ oldChanged[i]? = some false ∧ newChanged[j]? = some false then
          (scriptFrom n m oldChanged newChanged rounds (i + 1) (j + 1)).map
            (DiffOp.equal i j :: ·)
        else
          let dels := flagged oldChanged n i
          let inss := flagged newChanged m j
          (scriptFrom n m oldChanged newChanged rounds (i + dels.length)
            (j + inss.length)).map
            (dels.map DiffOp.delete ++ inss.map DiffOp.insert ++ ·)
    else some []

def scriptFromFlags (old new : List DiffLine) (oldChanged newChanged : List Bool) :
    Option (List DiffOp) :=
  scriptFrom old.length new.length oldChanged newChanged (old.length + new.length) 0 0

end Script

/-- The edit script between two line lists; `none` if it were not to return. -/
def editScript (old new : List DiffLine) (mode : WhitespaceMode) : Option (List DiffOp) := do
  let (oldChanged, newChanged) ← myersChanged old new mode
  scriptFromFlags old new (compactChanges old mode oldChanged)
    (compactChanges new mode newChanged)

/-! ### The search finds a frontier -/

/-- Rows that are equal, as a relation. -/
abbrev Match (old new : List DiffLine) (mode : WhitespaceMode) (x y : ℤ) : Prop :=
  sameAt old new mode x y = true

variable {old new : List DiffLine} {mode : WhitespaceMode}

variable {x y : ℤ}

/-- Matching rows are rows of the two sides. -/
theorem exists_of_match (h : Match old new mode x y) :
    0 ≤ x ∧ 0 ≤ y ∧ ∃ a b, old[x.toNat]? = some a ∧ new[y.toNat]? = some b ∧
      linesEqual a b mode = true := by
  rw [Match, sameAt] at h
  split at h
  case isFalse => cases h
  case isTrue hxy =>
    split at h
    · rename_i a b ha hb
      exact ⟨hxy.1, hxy.2, a, b, ha, hb, h⟩
    · cases h

variable {i j : ℕ}

theorem match_natCast : Match old new mode i j ↔
    ∃ a b, old[i]? = some a ∧ new[j]? = some b ∧ linesEqual a b mode = true := by
  constructor
  · intro h
    simpa using (exists_of_match h).2.2
  · rintro ⟨a, b, ha, hb, hab⟩
    rw [Match, sameAt, if_pos ⟨Int.natCast_nonneg i, Int.natCast_nonneg j⟩, Int.toNat_natCast,
      Int.toNat_natCast, ha, hb]
    exact hab

theorem lt_of_match (h : Match old new mode x y) : x < old.length ∧ y < new.length := by
  obtain ⟨hx, hy, a, b, ha, hb, -⟩ := exists_of_match h
  have hx' := (List.getElem?_eq_some_iff.1 ha).1
  have hy' := (List.getElem?_eq_some_iff.1 hb).1
  omega

/-- A snake keeps matching rows and stops where they differ. -/
theorem snake_spec {n : ℕ} {x k : ℤ} (hn : old.length ≤ x + n) :
    x ≤ snake old new mode n x (x - k) ∧
      (∀ i, x ≤ i → i < snake old new mode n x (x - k) → Match old new mode i (i - k)) ∧
      ¬ Match old new mode (snake old new mode n x (x - k))
        (snake old new mode n x (x - k) - k) := by
  induction n generalizing x with
  | zero =>
    rw [snake]
    refine ⟨le_rfl, fun i hi hlt => by omega, fun h => ?_⟩
    have := (lt_of_match h).1
    push_cast at hn
    omega
  | succ n ih =>
    rw [snake]
    split
    case isFalse h => exact ⟨le_rfl, fun i hi hlt => by omega, h⟩
    case isTrue h =>
      have hy : x - k + 1 = x + 1 - k := by omega
      rw [hy]
      obtain ⟨hle, hkept, hstuck⟩ := ih (x := x + 1) (by push_cast at hn; omega)
      refine ⟨by omega, fun i hi hlt => ?_, hstuck⟩
      rcases hi.lt_or_eq with hlt' | rfl
      · exact hkept i hlt' hlt
      · exact h

/-- What the search knows when round `d` starts: the frontier of the round before. -/
def Snapshot (M : ℤ → ℤ → Prop) : ℕ → (ℤ → ℤ) → Prop
  | 0, v => v 1 = 0
  | d + 1, v => ∀ k, OnRound d k → Frontier M d k (v k)

/-- Where the greedy choice arrives on a diagonal. -/
def arrival (v : ℤ → ℤ) (d : ℕ) (k : ℤ) : ℤ :=
  if GoesDown v d k then v (k + 1) else v (k - 1) + 1

variable {M : ℤ → ℤ → Prop} {v : ℤ → ℤ} {d : ℕ} {k : ℤ}

/-- The greedy choice arrives foremost. -/
theorem arrival_spec (hv : Snapshot M d v)
    (hk : OnRound d k) : Arrives M d (arrival v d k) (arrival v d k - k) ∧
      Foremost M d (arrival v d k) (arrival v d k - k) := by
  cases d with
  | zero =>
    obtain rfl : k = 0 := by
      simp only [OnRound] at hk
      omega
    have hzero : arrival v 0 0 = 0 := by
      rw [arrival, if_pos (.inl rfl)]
      exact hv
    rw [hzero]
    refine ⟨.origin, fun x' y' h _ => ?_⟩
    cases h
    exact le_rfl
  | succ d =>
    rw [arrival]
    split
    case isTrue hdown =>
      obtain ⟨hround, hforemost⟩ := foremost_down hv hk hdown
      refine ⟨?_, hforemost⟩
      have := Arrives.ins (hv _ hround).1
      rwa [show v (k + 1) - (k + 1) + 1 = v (k + 1) - k by omega] at this
    case isFalse hright =>
      obtain ⟨hround, hforemost⟩ := foremost_right hv hk hright
      refine ⟨?_, hforemost⟩
      have := Arrives.del (hv _ hround).1
      rwa [show v (k - 1) - (k - 1) = v (k - 1) + 1 - k by omega] at this

/-- From there a snake leads to the frontier. -/
theorem furthest_spec (hv : Snapshot (Match old new mode) d v) (hk : OnRound d k) :
    Frontier (Match old new mode) d k (furthest old new mode v d k) ∧
      arrival v d k ≤ furthest old new mode v d k ∧
      ∀ i, arrival v d k ≤ i → i < furthest old new mode v d k →
        Match old new mode i (i - k) := by
  obtain ⟨harrives, hforemost⟩ := arrival_spec hv hk
  have hnonneg := harrives.reach.nonneg.1
  obtain ⟨hle, hkept, hstuck⟩ := @snake_spec old new mode old.length (arrival v d k) k (by omega)
  exact ⟨frontier_of_foremost harrives hforemost hle hkept hstuck, hle, hkept⟩

/-- The point where diagonal `k` of round `d` meets the far corner, or passes it. -/
def Hits (old new : List DiffLine) (k x : ℤ) : Prop := old.length ≤ x ∧ new.length ≤ x - k

/-- A round ends with the frontier of its diagonals, none of which hits the corner, or at one
that does. -/
theorem searchRound_spec {v₀ : ℤ → ℤ} (hv₀ : Snapshot (Match old new mode) d v₀) (n : ℕ)
    (k : ℤ) (v : ℤ → ℤ) (hk : k + 2 * n = d + 2) (hlow : -d ≤ k)
    (hdone : ∀ k', OnRound d k' → k' < k →
      Frontier (Match old new mode) d k' (v k') ∧ ¬ Hits old new k' (v k'))
    (hkeep : ∀ k', ¬ OnRound d k' → v k' = v₀ k') :
    (∀ v', searchRound old new mode d n k v = some v' → ∀ k', OnRound d k' →
      Frontier (Match old new mode) d k' (v' k') ∧ ¬ Hits old new k' (v' k')) ∧
    (searchRound old new mode d n k v = none → ∃ k' x, OnRound d k' ∧
      Frontier (Match old new mode) d k' x ∧ Hits old new k' x) := by
  induction n generalizing k v with
  | zero =>
    refine ⟨fun v' h k' hk' => ?_, by rintro ⟨⟩⟩
    obtain rfl := Option.some.inj h
    refine hdone k' hk' ?_
    simp only [OnRound] at hk'
    push_cast at hk
    omega
  | succ n ih =>
    push_cast at hk
    have hround : OnRound d k := by
      simp only [OnRound]
      omega
    -- the neighbours belong to the round before, so this round has not touched them
    have habove : v (k + 1) = v₀ (k + 1) := hkeep _ (by simp only [OnRound] at *; omega)
    have hbelow : v (k - 1) = v₀ (k - 1) := hkeep _ (by simp only [OnRound] at *; omega)
    have hfurthest : furthest old new mode v d k = furthest old new mode v₀ d k := by
      simp only [furthest, GoesDown, habove, hbelow]
    obtain ⟨hfrontier, -⟩ := furthest_spec hv₀ hround
    rw [searchRound, hfurthest]
    split
    case isTrue hhit =>
      exact ⟨(by rintro _ ⟨⟩), fun _ => ⟨k, _, hround, hfrontier, hhit⟩⟩
    case isFalse hmiss =>
      refine ih (k + 2) _ (by omega) (by omega) (fun k' hk' hlt => ?_) fun k' hk' => ?_
      · by_cases heq : k' = k
        · subst heq
          rw [Function.update_self]
          exact ⟨hfrontier, hmiss⟩
        · rw [Function.update_of_ne heq]
          refine hdone k' hk' ?_
          simp only [OnRound] at hround hk'
          omega
      · rw [Function.update_of_ne (by rintro rfl; exact hk' hround)]
        exact hkeep k' hk'

/-- The search ends with the least number of edits that leads to the corner, and with what each
of its rounds started from. -/
theorem search_spec (n d : ℕ) (v : ℤ → ℤ) (traces : List (ℤ → ℤ))
    (hn : n + d = old.length + new.length + 1) (hv : Snapshot (Match old new mode) d v)
    (hlen : traces.length = d)
    (htraces : ∀ i vi, traces[i]? = some vi → Snapshot (Match old new mode) i vi)
    (hleast : ∀ d' < d, ¬ Reach (Match old new mode) d' old.length new.length) :
    ∃ found traces', search old new mode n d v traces = (found, traces') ∧
      found < traces'.length ∧
      (∀ i vi, traces'[i]? = some vi → Snapshot (Match old new mode) i vi) ∧
      Frontier (Match old new mode) found (old.length - new.length) old.length ∧
      ∀ d' < found, ¬ Reach (Match old new mode) d' old.length new.length := by
  induction n generalizing d v traces with
  | zero =>
    have hreach := (Reach.origin.dels old.length).inss new.length (M := Match old new mode)
    refine absurd ?_ (hleast (old.length + new.length) (by omega))
    simpa using hreach
  | succ n ih =>
    have hstart := searchRound_spec hv (d + 1) (-d) v (by push_cast; ring) le_rfl
      (fun k' hk' hlt => by
        simp only [OnRound] at hk'
        omega) fun _ _ => rfl
    have htraces' : ∀ i vi, (traces ++ [v])[i]? = some vi →
        Snapshot (Match old new mode) i vi := by
      intro i vi hi
      rcases lt_trichotomy i traces.length with hlt | rfl | hgt
      · rw [List.getElem?_append_left hlt] at hi
        exact htraces i vi hi
      · rw [List.getElem?_concat_length] at hi
        obtain rfl := Option.some.inj hi
        exact hlen ▸ hv
      · rw [List.getElem?_eq_none (by simp; omega)] at hi
        cases hi
    rw [search]
    cases hround : searchRound old new mode d (d + 1) (-d) v with
    | none =>
      obtain ⟨k, x, hk, hfrontier, hx, hy⟩ := hstart.2 hround
      obtain ⟨rfl, hm⟩ := hfrontier.1.eq_corner (fun _ _ => lt_of_match) (by omega)
        (by omega) hx hy hleast
      obtain rfl : k = old.length - new.length := by omega
      exact ⟨d, _, rfl, by simp [hlen], htraces', hfrontier, hleast⟩
    | some v' =>
      have hv' := hstart.1 v' hround
      refine ih (d + 1) v' (traces ++ [v]) (by omega) (fun k hk => (hv' k hk).1)
        (by simp [hlen]) htraces' fun d' hd' hreach => ?_
      rcases Nat.lt_succ_iff_lt_or_eq.1 hd' with hlt | rfl
      · exact hleast d' hlt hreach
      · obtain ⟨hfrontier, hmiss⟩ := hv' _ hreach.onRound
        have hle := hfrontier.2 _ _ hreach rfl
        exact hmiss ⟨hle, by omega⟩

/-! ### The backtrack follows a traced path -/

variable {n : ℕ}

/-- The walk back from the end of a snake stops at its start, when the point to stop at is one
edit before it. -/
theorem walkBack_spec {px py x₀ y₀ : ℤ} (hx : px ≤ x₀) (hy : py ≤ y₀) (hstop : px = x₀ ∨ py = y₀)
    (t : ℕ) (hn : t ≤ n) : walkBack px py n (x₀ + t) (y₀ + t) = (x₀, y₀) := by
  induction t generalizing n with
  | zero =>
    cases n with
    | zero => simp [walkBack]
    | succ n =>
      rw [walkBack, if_neg (by push_cast; omega)]
      simp
  | succ t ih =>
    obtain ⟨n, rfl⟩ : ∃ n', n = n' + 1 := ⟨n - 1, by omega⟩
    rw [walkBack, if_pos (by push_cast; omega)]
    have hxt : x₀ + ((t + 1 : ℕ) : ℤ) - 1 = x₀ + t := by push_cast; ring
    have hyt : y₀ + ((t + 1 : ℕ) : ℤ) - 1 = y₀ + t := by push_cast; ring
    rw [hxt, hyt]
    exact ih (by omega)

/-- Flags with the first `x` still unset. -/
abbrev unset (x : ℤ) (flags : List Bool) : List Bool := List.replicate x.toNat false ++ flags

/-- Flagging the line before the flags that are settled. -/
theorem setFlag_unset (t : ℕ) (hx : 0 ≤ x) (flags : List Bool) :
    setFlag (unset (x + 1 + t) flags) x =
      some (unset x (true :: List.replicate t false ++ flags)) := by
  obtain ⟨a, rfl⟩ : ∃ a : ℕ, x = a := ⟨x.toNat, by omega⟩
  have hsplit : unset ((a : ℤ) + 1 + t) flags =
      List.replicate a false ++ false :: (List.replicate t false ++ flags) := by
    rw [unset, show ((a : ℤ) + 1 + t).toNat = a + (t + 1) by omega, List.replicate_add,
      List.append_assoc]
    rfl
  have hlen : (List.replicate a false).length = a := List.length_replicate
  rw [hsplit, setFlag, if_pos (by simp; omega), Int.toNat_natCast,
    List.set_append_right _ _ (by rw [hlen]), hlen, Nat.sub_self]
  rfl

theorem unset_keeps (t : ℕ) (hx : 0 ≤ x) (flags : List Bool) :
    unset (x + t) flags = unset x (List.replicate t false ++ flags) := by
  rw [unset, unset, show (x + t).toNat = x.toNat + t by omega, List.replicate_add,
    List.append_assoc]

theorem oldFlags_keeps (t : ℕ) : oldFlags (List.replicate t .keep) = List.replicate t false := by
  induction t with
  | zero => rfl
  | succ t ih => exact congrArg (false :: ·) ih

theorem newFlags_keeps (t : ℕ) : newFlags (List.replicate t .keep) = List.replicate t false := by
  induction t with
  | zero => rfl
  | succ t ih => exact congrArg (false :: ·) ih

variable {ms : List Move}

/-- A chosen path goes on along matching rows. -/
theorem chosen_keeps (h : Chosen M d x y ms) (t : ℕ) (hm : ∀ i : ℕ, i < t → M (x + i) (y + i)) :
    Chosen M d (x + t) (y + t) (ms ++ List.replicate t .keep) := by
  induction t with
  | zero => simpa using h
  | succ t ih =>
    have := (ih fun i hi => hm i (by omega)).keep (hm t (by omega))
    rw [List.append_assoc, ← List.replicate_succ'] at this
    push_cast
    rwa [← add_assoc, ← add_assoc]

/-- Without edits a path only keeps rows. -/
theorem chosen_of_reach_zero (h : Reach M d x y)
    (hd : d = 0) : y = x ∧ Chosen M 0 x x (List.replicate x.toNat .keep) := by
  induction h with
  | origin => exact ⟨rfl, .nil⟩
  | @keep d x y h hm ih =>
    obtain ⟨rfl, hx⟩ := ih hd
    have hnonneg := h.nonneg.1
    rw [show (y + 1).toNat = y.toNat + 1 by omega, List.replicate_succ']
    exact ⟨rfl, hx.keep hm⟩
  | del => omega
  | ins => omega

/-- The backtrack from a furthest point flags the edits of the chosen path to it. -/
theorem backtrack_spec {traces : List (ℤ → ℤ)}
    (htraces : ∀ i vi, traces[i]? = some vi → Snapshot (Match old new mode) i vi) (d : ℕ)
    (x y : ℤ) (F G : List Bool) (hd : d < traces.length)
    (hfrontier : Frontier (Match old new mode) d (x - y) x) :
    ∃ ms, Chosen (Match old new mode) d x y ms ∧
      backtrack traces d x y (unset x F) (unset y G) =
        some (oldFlags ms ++ F, newFlags ms ++ G) := by
  induction d generalizing x y F G with
  | zero =>
    have hreach := hfrontier.1
    rw [sub_sub_cancel] at hreach
    obtain ⟨rfl, hchosen⟩ := chosen_of_reach_zero hreach rfl
    exact ⟨_, hchosen, by rw [backtrack, oldFlags_keeps, newFlags_keeps]⟩
  | succ d ih =>
    have hvd : traces[d + 1]? = some traces[d + 1] := List.getElem?_eq_getElem hd
    generalize traces[d + 1] = vd at hvd
    have hv := htraces _ _ hvd
    have hround : OnRound (d + 1) (x - y) := by
      have := hfrontier.1.onRound
      rwa [sub_sub_cancel] at this
    obtain ⟨hfurthest, hle, hkept⟩ := furthest_spec hv hround
    rw [hfurthest.unique hfrontier] at hle hkept
    obtain ⟨-, hforemost⟩ := arrival_spec hv hround
    -- the path arrives at `x₀` on this diagonal and keeps `t` rows from there
    generalize hk : x - y = k at *
    generalize hx₀ : arrival vd (d + 1) k = x₀ at *
    obtain ⟨t, rfl⟩ : ∃ t : ℕ, x = x₀ + t := ⟨(x - x₀).toNat, by omega⟩
    obtain ⟨y₀, hy₀⟩ : ∃ y₀, y₀ = x₀ - k := ⟨_, rfl⟩
    obtain rfl : y = y₀ + t := by omega
    rw [← hy₀] at hforemost
    have hkeeps : ∀ i : ℕ, i < t → Match old new mode (x₀ + i) (y₀ + i) := by
      intro i hi
      have := hkept (x₀ + i) (by omega) (by omega)
      rwa [show x₀ + (i : ℤ) - k = y₀ + i by omega] at this
    rw [backtrack, hvd]
    dsimp only [Option.bind_eq_bind, Option.bind_some]
    rw [hk]
    rw [arrival] at hx₀
    split
    case isTrue hdown =>
      rw [if_pos hdown] at hx₀
      have hprev : Frontier (Match old new mode) d (k + 1) x₀ :=
        hx₀ ▸ hv _ (foremost_down hv hround hdown).1
      have hnonneg := hprev.1.nonneg
      obtain ⟨y₁, rfl⟩ : ∃ y₁, y₀ = y₁ + 1 := ⟨y₀ - 1, by omega⟩
      have hwalk : walkBack (vd (k + 1)) (vd (k + 1) - (k + 1)) (x₀ + t).toNat (x₀ + t)
          (y₁ + 1 + t) = (x₀, y₁ + 1) :=
        walkBack_spec (by omega) (by omega) (.inl hx₀) t (by omega)
      rw [hwalk]
      obtain ⟨ms, hchosen, hback⟩ := ih x₀ y₁ (List.replicate t false ++ F)
        (true :: List.replicate t false ++ G) (by omega)
        (by rwa [show x₀ - y₁ = k + 1 by omega])
      refine ⟨ms ++ [.ins] ++ List.replicate t .keep,
        chosen_keeps (hchosen.ins hforemost) t hkeeps, ?_⟩
      dsimp only
      rw [add_sub_cancel_right, setFlag_unset t (by omega), unset_keeps t (by omega)]
      dsimp only [Option.bind_some]
      rw [hback]
      simp only [oldFlags_append, newFlags_append, oldFlags_keeps, newFlags_keeps,
        List.append_assoc]
      rfl
    case isFalse hright =>
      rw [if_neg hright] at hx₀
      have hins : ¬ Reach (Match old new mode) d x₀ (y₀ - 1) := by
        rw [hy₀, ← hx₀]
        exact not_reach_of_right hv hright
      have hprev : Frontier (Match old new mode) d (k - 1) (x₀ - 1) := by
        rw [← hx₀, add_sub_cancel_right]
        exact hv _ (foremost_right hv hround hright).1
      have hnonneg := hprev.1.nonneg
      obtain ⟨x₁, rfl⟩ : ∃ x₁, x₀ = x₁ + 1 := ⟨x₀ - 1, by omega⟩
      have hwalk : walkBack (vd (k - 1)) (vd (k - 1) - (k - 1)) (x₁ + 1 + t).toNat
          (x₁ + 1 + t) (y₀ + t) = (x₁ + 1, y₀) :=
        walkBack_spec (by omega) (by omega) (.inr (by omega)) t (by omega)
      rw [hwalk]
      rw [add_sub_cancel_right] at hprev
      obtain ⟨ms, hchosen, hback⟩ := ih x₁ y₀ (true :: List.replicate t false ++ F)
        (List.replicate t false ++ G) (by omega)
        (by rwa [show x₁ - y₀ = k - 1 by omega])
      refine ⟨ms ++ [.del] ++ List.replicate t .keep,
        chosen_keeps (hchosen.del hforemost hins) t hkeeps, ?_⟩
      dsimp only
      rw [add_sub_cancel_right, setFlag_unset t (by omega), unset_keeps t (by omega)]
      dsimp only [Option.bind_some]
      rw [hback]
      simp only [oldFlags_append, newFlags_append, oldFlags_keeps, newFlags_keeps,
        List.append_assoc]
      rfl

/-! ### The flags of a search -/

/-- No run of flagged lines can be slid down by a line. -/
def Fixed (lines : List DiffLine) (mode : WhitespaceMode) (changed : List Bool) : Prop :=
  ∀ s e, RunTo changed s e → sameLine lines mode s e = false

/-- What the search makes of two line lists: flags for every line that leave matching lines
unset, in runs that cannot be slid. -/
structure Flags (old new : List DiffLine) (mode : WhitespaceMode) (F G : List Bool) : Prop where
  length_old : F.length = old.length
  length_new : G.length = new.length
  aligned : Aligned (Match old new mode) 0 0 F G
  fixed_old : Fixed old mode F
  fixed_new : Fixed new mode G

variable {s e : ℕ}

theorem sameLine_eq_true {lines : List DiffLine}
    (h : sameLine lines mode s e = true) : ∃ a b, lines[s]? = some a ∧ lines[e]? = some b ∧
      a.hasNewline = b.hasNewline ∧ wsKey a.text mode = wsKey b.text mode := by
  rw [sameLine] at h
  split at h
  · rename_i a b ha hb
    exact ⟨a, b, ha, hb, by simpa [linesEqual] using h⟩
  · cases h

/-- Equal old lines match the same new lines. -/
theorem match_of_sameLine_old {w : ℤ} (h : sameLine old mode s e = true)
    (hm : Match old new mode e w) : Match old new mode s w := by
  obtain ⟨a, b, ha, hb, hnl, hkey⟩ := sameLine_eq_true h
  obtain ⟨-, hw, b', c, hb', hc, hbc⟩ := exists_of_match hm
  obtain ⟨w, rfl⟩ : ∃ n : ℕ, w = n := ⟨w.toNat, by omega⟩
  rw [Int.toNat_natCast] at hb' hc
  obtain rfl := Option.some.inj (hb.symm.trans hb')
  refine match_natCast.2 ⟨a, c, ha, hc, ?_⟩
  rw [linesEqual] at hbc ⊢
  rw [hnl, hkey]
  exact hbc

/-- Equal new lines match the same old lines. -/
theorem match_of_sameLine_new {w : ℤ} (h : sameLine new mode s e = true)
    (hm : Match old new mode w e) : Match old new mode w s := by
  obtain ⟨a, b, ha, hb, hnl, hkey⟩ := sameLine_eq_true h
  obtain ⟨hw, -, c, b', hc, hb', hbc⟩ := exists_of_match hm
  obtain ⟨w, rfl⟩ : ∃ n : ℕ, w = n := ⟨w.toNat, by omega⟩
  rw [Int.toNat_natCast] at hb' hc
  obtain rfl := Option.some.inj (hb.symm.trans hb')
  refine match_natCast.2 ⟨c, a, hc, ha, ?_⟩
  rw [linesEqual] at hbc ⊢
  rw [hnl, hkey]
  exact hbc

/-- The edits of a traced path are in place. -/
theorem flags_of_traced (h : Traced (Match old new mode) d old.length new.length ms) :
    Flags old new mode (oldFlags ms) (newFlags ms) where
  length_old := by exact_mod_cast h.length_flags.1.symm
  length_new := by exact_mod_cast h.length_flags.2.symm
  aligned := h.follows.aligned
  fixed_old s e hrun := by
    obtain ⟨w, hm, hne⟩ := h.old_run hrun
    by_contra hsame
    exact hne (match_of_sameLine_old (by simpa using hsame) hm)
  fixed_new s e hrun := by
    obtain ⟨w, hm, hne⟩ := h.new_run hrun
    by_contra hsame
    exact hne (match_of_sameLine_new (by simpa using hsame) hm)

theorem not_match_of_nil (h : old = [] ∨ new = []) (x y : ℤ) : ¬ Match old new mode x y := by
  intro hm
  obtain ⟨-, -, a, b, ha, hb, -⟩ := exists_of_match hm
  rcases h with rfl | rfl
  · exact nomatch ha
  · exact nomatch hb

/-- The moves of the chosen path with the fewest edits are what the search flags. -/
theorem myersChangedCore_chosen (old new : List DiffLine) (mode : WhitespaceMode) :
    ∃ d ms, Chosen (Match old new mode) d old.length new.length ms ∧
      (∀ d' < d, ¬ Reach (Match old new mode) d' old.length new.length) ∧
      myersChangedCore old new mode = some (oldFlags ms, newFlags ms) := by
  rw [myersChangedCore]
  dsimp only
  split
  case isTrue hold =>
    have hnone : ∀ x y, ¬ Match old new mode x y :=
      not_match_of_nil (.inl (List.length_eq_zero_iff.1 hold))
    refine ⟨new.length, List.replicate new.length .ins, ?_, fun d' hd' hreach => ?_, ?_⟩
    · rw [hold]
      exact chosen_inss hnone _
    · have := hreach.add_eq hnone
      omega
    · rw [hold, oldFlags, newFlags, List.filterMap_replicate, List.filterMap_replicate]
      rfl
  case isFalse hold =>
    split
    case isTrue hnew =>
      have hnone : ∀ x y, ¬ Match old new mode x y :=
        not_match_of_nil (.inr (List.length_eq_zero_iff.1 hnew))
      refine ⟨old.length, List.replicate old.length .del, ?_, fun d' hd' hreach => ?_, ?_⟩
      · rw [hnew]
        exact chosen_dels hnone _
      · have := hreach.add_eq hnone
        omega
      · rw [hnew, oldFlags, newFlags, List.filterMap_replicate, List.filterMap_replicate]
        rfl
    case isFalse hnew =>
      obtain ⟨found, traces, hsearch, hlt, htraces, hfrontier, hleast⟩ :=
        @search_spec old new mode (old.length + new.length + 1) 0 (fun _ => 0) [] rfl rfl rfl
          (by rintro _ _ ⟨⟩) (by rintro _ ⟨⟩)
      obtain ⟨ms, hchosen, hback⟩ :=
        backtrack_spec htraces found old.length new.length [] [] hlt hfrontier
      rw [hsearch]
      refine ⟨found, ms, hchosen, hleast, ?_⟩
      simpa [unset] using hback

theorem myersChangedCore_spec (old new : List DiffLine) (mode : WhitespaceMode) :
    ∃ F G, myersChangedCore old new mode = some (F, G) ∧ Flags old new mode F G := by
  obtain ⟨d, ms, hchosen, -, hcore⟩ := myersChangedCore_chosen old new mode
  exact ⟨_, _, hcore, flags_of_traced hchosen.traced⟩

/-! ### Setting the common leading run aside -/

/-- Lines of the common leading run match. -/
theorem match_of_lt_commonPrefix {old new : List DiffLine} {i : ℕ}
    (h : i < commonPrefix mode old new) : Match old new mode i i := by
  induction old generalizing new i with
  | nil => simp [commonPrefix] at h
  | cons a old ih =>
    cases new with
    | nil => simp [commonPrefix] at h
    | cons b new =>
      rw [commonPrefix] at h
      split at h
      case isFalse => omega
      case isTrue hab =>
        cases i with
        | zero => exact match_natCast.2 ⟨a, b, rfl, rfl, hab⟩
        | succ i =>
          obtain ⟨a', b', ha, hb, hab'⟩ := match_natCast.1
            (ih (show i < commonPrefix mode old new by omega))
          exact match_natCast.2 ⟨a', b', ha, hb, hab'⟩

theorem commonPrefix_le {old new : List DiffLine} :
    commonPrefix mode old new ≤ old.length ∧ commonPrefix mode old new ≤ new.length := by
  rcases Nat.eq_zero_or_pos (commonPrefix mode old new) with hzero | hpos
  · omega
  · have hlast : commonPrefix mode old new - 1 < commonPrefix mode old new := by omega
    have := lt_of_match (match_of_lt_commonPrefix hlast)
    omega

/-- Matching lines behind the leading run match in the whole lists. -/
theorem match_of_drop {pre : ℕ} (h : Match (old.drop pre) (new.drop pre) mode i j) :
    Match old new mode ((pre + i : ℕ) : ℤ) ((pre + j : ℕ) : ℤ) := by
  obtain ⟨a, b, ha, hb, hab⟩ := match_natCast.1 h
  rw [List.getElem?_drop] at ha hb
  exact match_natCast.2 ⟨a, b, ha, hb, hab⟩

theorem sameLine_drop (lines : List DiffLine) (pre s e : ℕ) :
    sameLine (lines.drop pre) mode s e = sameLine lines mode (pre + s) (pre + e) := by
  rw [sameLine, sameLine, List.getElem?_drop, List.getElem?_drop]

variable {F : List Bool}

/-- A run of flags starts behind a leading run of unset ones. -/
theorem runTo_of_append {pre : ℕ} (h : RunTo (List.replicate pre false ++ F) s e) :
    pre ≤ s ∧ RunTo F (s - pre) (e - pre) := by
  have hpre : pre ≤ s := by
    by_contra hlt
    have hset := h.set s le_rfl h.lt
    rw [List.getElem?_append_left (by rw [List.length_replicate]; omega),
      List.getElem?_replicate, if_pos (by omega)] at hset
    cases hset
  have hbehind : ∀ j, pre ≤ j → (List.replicate pre false ++ F)[j]? = F[j - pre]? := by
    intro j hj
    rw [List.getElem?_append_right (by rwa [List.length_replicate]), List.length_replicate]
  have hlt := h.lt
  refine ⟨hpre, by omega, fun j hj hje => ?_, ?_⟩
  · have := h.set (pre + j) (by omega) (by omega)
    rwa [hbehind _ (by omega), Nat.add_sub_cancel_left] at this
  · rw [← hbehind e (by omega)]
    exact h.unset

theorem fixed_append {lines : List DiffLine} {pre : ℕ}
    (h : Fixed (lines.drop pre) mode F) : Fixed lines mode (List.replicate pre false ++ F) := by
  intro s e hrun
  obtain ⟨hpre, hrun'⟩ := runTo_of_append hrun
  have hlt := hrun.lt
  have := h _ _ hrun'
  rwa [sameLine_drop, Nat.add_sub_cancel' hpre, Nat.add_sub_cancel' (by omega)] at this

variable {G : List Bool}

/-- Alignments behind the leading run are alignments there. -/
theorem aligned_shift {M' : ℤ → ℤ → Prop} {pre : ℕ}
    (hM : ∀ i j : ℕ, M' i j → M ((pre + i : ℕ) : ℤ) ((pre + j : ℕ) : ℤ))
    (h : Aligned M' i j F G) : Aligned M (pre + i) (pre + j) F G := by
  induction h with
  | nil => exact .nil _ _
  | del _ ih => exact .del ih
  | ins _ ih => exact .ins ih
  | keep hm _ ih => exact .keep (hM _ _ hm) ih

/-- A leading run that matches can be put before an alignment. -/
theorem aligned_keeps (n i j : ℕ) (hM : ∀ t < n, M ((i + t : ℕ) : ℤ) ((j + t : ℕ) : ℤ))
    (h : Aligned M (i + n) (j + n) F G) :
    Aligned M i j (List.replicate n false ++ F) (List.replicate n false ++ G) := by
  induction n generalizing i j with
  | zero => exact h
  | succ n ih =>
    refine .keep (hM 0 (by omega)) (ih (i + 1) (j + 1) (fun t ht => ?_) ?_)
    · have := hM (t + 1) (by omega)
      rwa [show i + 1 + t = i + (t + 1) by omega, show j + 1 + t = j + (t + 1) by omega]
    · rwa [show i + 1 + n = i + (n + 1) by omega, show j + 1 + n = j + (n + 1) by omega]

theorem myersChanged_spec (old new : List DiffLine) (mode : WhitespaceMode) :
    ∃ F G, myersChanged old new mode = some (F, G) ∧ Flags old new mode F G := by
  obtain ⟨hleold, hlenew⟩ := @commonPrefix_le mode old new
  have hlead := fun i => @match_of_lt_commonPrefix mode old new i
  obtain ⟨F, G, hcore, hflags⟩ := myersChangedCore_spec (old.drop (commonPrefix mode old new))
    (new.drop (commonPrefix mode old new)) mode
  rw [myersChanged, hcore]
  generalize commonPrefix mode old new = pre at *
  refine ⟨_, _, rfl, ?_, ?_, ?_, fixed_append hflags.fixed_old, fixed_append hflags.fixed_new⟩
  · rw [List.length_append, List.length_replicate, hflags.length_old, List.length_drop]
    omega
  · rw [List.length_append, List.length_replicate, hflags.length_new, List.length_drop]
    omega
  · refine aligned_keeps pre 0 0 (fun t ht => ?_) ?_
    · rw [Nat.zero_add]
      exact hlead t ht
    · have := aligned_shift (fun i j => match_of_drop) hflags.aligned
      rwa [Nat.add_zero, ← Nat.zero_add pre] at this

/-! ### Sliding changes nothing -/

theorem runEnd_spec (changed : List Bool) (n i : ℕ) :
    i ≤ runEnd changed n i ∧ runEnd changed n i ≤ i + n ∧
      (∀ j, i ≤ j → j < runEnd changed n i → changed[j]? = some true) ∧
      (runEnd changed n i < i + n → changed[runEnd changed n i]? ≠ some true) := by
  induction n generalizing i with
  | zero =>
    rw [runEnd]
    exact ⟨le_rfl, le_rfl, fun j hj hlt => by omega, fun h => by omega⟩
  | succ n ih =>
    rw [runEnd]
    split
    case isFalse h => exact ⟨le_rfl, by omega, fun j hj hlt => by omega, fun _ => h⟩
    case isTrue h =>
      obtain ⟨hle, hle', hset, hunset⟩ := ih (i + 1)
      refine ⟨by omega, by omega, fun j hj hlt => ?_, fun hlt => hunset (by omega)⟩
      rcases hj.lt_or_eq with hj | rfl
      · exact hset j hj hlt
      · exact h

/-- The slide of a run that is in place is over at once. -/
theorem slide_eq {lines : List DiffLine} {changed : List Bool}
    (hlen : changed.length = lines.length) (hfixed : Fixed lines mode changed)
    (hset : changed[i]? = some true) :
    slide lines mode n changed i (runEnd changed lines.length i) =
      (changed, runEnd changed lines.length i) := by
  cases n with
  | zero => rfl
  | succ n =>
    obtain ⟨hle, -, hrun, hunset⟩ := runEnd_spec changed lines.length i
    generalize runEnd changed lines.length i = e at *
    rw [slide, if_neg]
    intro hsame
    obtain ⟨-, b, -, hb, -⟩ := sameLine_eq_true hsame
    have he : e < changed.length := hlen ▸ (List.getElem?_eq_some_iff.1 hb).1
    have hne := hunset (by omega)
    have hlt : i < e := by
      rcases hle.lt_or_eq with h | rfl
      · exact h
      · exact absurd hset hne
    have hfalse : changed[e]? = some false := by
      rw [List.getElem?_eq_getElem he] at hne ⊢
      cases h : changed[e] with
      | false => rfl
      | true => exact absurd (congrArg some h) hne
    rw [hfixed i e ⟨hlt, hrun, hfalse⟩] at hsame
    cases hsame

/-- Flags whose runs are in place are left as they are. -/
theorem compactChanges_eq {lines : List DiffLine} {changed : List Bool}
    (hlen : changed.length = lines.length) (hfixed : Fixed lines mode changed) :
    compactChanges lines mode changed = changed := by
  suffices h : ∀ n i, compactFrom lines mode n i changed = changed from h _ _
  intro n
  induction n with
  | zero => exact fun i => rfl
  | succ n ih =>
    intro i
    rw [compactFrom]
    split
    · split
      · rename_i hset
        dsimp only
        rw [slide_eq hlen hfixed hset]
        exact ih _
      · exact ih _
    · rfl

/-! ### The script -/

/-- The old line an op takes. -/
def DiffOp.old? : DiffOp → Option ℕ
  | .equal oi _ => some oi
  | .delete oi => some oi
  | .insert _ => none

/-- The new line an op takes. -/
def DiffOp.new? : DiffOp → Option ℕ
  | .equal _ ni => some ni
  | .delete _ => none
  | .insert ni => some ni

/-- From old line `i` and new line `j` on, the ops take the next `n` and `m` lines in order, and
pair only lines that match. -/
structure Spells (M : ℤ → ℤ → Prop) (ops : List DiffOp) (i n j m : ℕ) : Prop where
  old_eq : ops.filterMap DiffOp.old? = List.range' i n
  new_eq : ops.filterMap DiffOp.new? = List.range' j m
  match_of_mem : ∀ oi ni, DiffOp.equal oi ni ∈ ops → M oi ni

variable {M : ℤ → ℤ → Prop}

theorem Spells.equal {ops : List DiffOp} {i n j m : ℕ} (hm : M i j)
    (h : Spells M ops (i + 1) n (j + 1) m) : Spells M (.equal i j :: ops) i (n + 1) j (m + 1) where
  old_eq := congrArg (i :: ·) h.old_eq
  new_eq := congrArg (j :: ·) h.new_eq
  match_of_mem oi ni hmem := by
    rcases List.mem_cons.1 hmem with heq | hmem
    · cases heq
      exact hm
    · exact h.match_of_mem oi ni hmem

theorem filterMap_old?_edits (dels inss : List ℕ) :
    (dels.map DiffOp.delete ++ inss.map DiffOp.insert).filterMap DiffOp.old? = dels := by
  rw [List.filterMap_append, List.filterMap_map, List.filterMap_map]
  have hdels : dels.filterMap (DiffOp.old? ∘ DiffOp.delete) = dels := List.filterMap_some
  have hinss : inss.filterMap (DiffOp.old? ∘ DiffOp.insert) = [] :=
    List.filterMap_eq_nil_iff.2 fun _ _ => rfl
  rw [hdels, hinss, List.append_nil]

theorem filterMap_new?_edits (dels inss : List ℕ) :
    (dels.map DiffOp.delete ++ inss.map DiffOp.insert).filterMap DiffOp.new? = inss := by
  rw [List.filterMap_append, List.filterMap_map, List.filterMap_map]
  have hdels : dels.filterMap (DiffOp.new? ∘ DiffOp.delete) = [] :=
    List.filterMap_eq_nil_iff.2 fun _ _ => rfl
  have hinss : inss.filterMap (DiffOp.new? ∘ DiffOp.insert) = inss := List.filterMap_some
  rw [hdels, hinss, List.nil_append]

variable {m a : ℕ}

/-- Edits put before the ops that come after them. -/
theorem Spells.edits {ops : List DiffOp} {b : ℕ} (h : Spells M ops (i + a) n (j + b) m) :
    Spells M ((List.range' i a).map DiffOp.delete ++ (List.range' j b).map DiffOp.insert ++ ops)
      i (a + n) j (b + m) where
  old_eq := by
    rw [List.filterMap_append, filterMap_old?_edits, h.old_eq, ← List.range'_append_1]
  new_eq := by
    rw [List.filterMap_append, filterMap_new?_edits, h.new_eq, ← List.range'_append_1]
  match_of_mem oi ni hmem := by
    rw [List.mem_append, List.mem_append] at hmem
    rcases hmem with (hmem | hmem) | hmem
    · simp at hmem
    · simp at hmem
    · exact h.match_of_mem oi ni hmem

/-- The lines passed over as flagged are those of the leading run of flags. -/
theorem flagged_eq (changed : List Bool) (n i : ℕ) (hn : changed.length ≤ i + n) :
    flagged changed n i = List.range' i ((changed.drop i).takeWhile id).length := by
  induction n generalizing i with
  | zero =>
    rw [flagged, List.drop_eq_nil_iff.2 (by omega)]
    rfl
  | succ n ih =>
    rw [flagged]
    by_cases hi : i < changed.length
    · rw [List.drop_eq_getElem_cons hi, List.getElem?_eq_getElem hi, ih (i + 1) (by omega)]
      cases changed[i] with
      | false => rfl
      | true => rfl
    · rw [List.getElem?_eq_none (by omega), List.drop_eq_nil_iff.2 (by omega)]
      rfl

theorem dropWhile_drop (l : List Bool) (i : ℕ) :
    (l.drop i).dropWhile id = l.drop (i + ((l.drop i).takeWhile id).length) := by
  have h : (l.drop i).drop ((l.drop i).takeWhile id).length = (l.drop i).dropWhile id := by
    conv_lhs => rw [← @List.takeWhile_append_dropWhile _ id (l.drop i)]
    exact List.drop_left' (by rw [List.takeWhile_append_dropWhile])
  rw [← h, List.drop_drop]

/-- Where no flag leads, the list is at its end or at an unset flag. -/
theorem eq_nil_or_false {l : List Bool} (h : (l.takeWhile id).length = 0) :
    l = [] ∨ ∃ l', l = false :: l' := by
  cases l with
  | nil => exact .inl rfl
  | cons b l =>
    cases b with
    | false => exact .inr ⟨l, rfl⟩
    | true => simp at h

/-- Aligned flags are spelled out. A round passes at least one line, for the lines left unset on
the two sides pair up. -/
theorem scriptFrom_spec (rounds i j : ℕ) (hi : i ≤ F.length)
    (hj : j ≤ G.length) (h : Aligned M i j (F.drop i) (G.drop j))
    (hrounds : (F.length - i) + (G.length - j) ≤ rounds) :
    ∃ ops, scriptFrom F.length G.length F G rounds i j = some ops ∧
      Spells M ops i (F.length - i) j (G.length - j) := by
  induction rounds generalizing i j with
  | zero =>
    rw [scriptFrom, if_neg (by omega), Nat.sub_eq_zero_of_le (by omega),
      Nat.sub_eq_zero_of_le (by omega)]
    exact ⟨[], rfl, rfl, rfl, fun _ _ hmem => nomatch hmem⟩
  | succ rounds ih =>
    rw [scriptFrom]
    split
    case isFalse hend =>
      rw [Nat.sub_eq_zero_of_le (by omega), Nat.sub_eq_zero_of_le (by omega)]
      exact ⟨[], rfl, rfl, rfl, fun _ _ hmem => nomatch hmem⟩
    case isTrue hmore =>
      dsimp only
      split
      case isTrue hboth =>
        obtain ⟨hlti, hltj, hF, hG⟩ := hboth
        rw [List.getElem?_eq_getElem hlti, Option.some.injEq] at hF
        rw [List.getElem?_eq_getElem hltj, Option.some.injEq] at hG
        rw [List.drop_eq_getElem_cons hlti, List.drop_eq_getElem_cons hltj, hF, hG] at h
        cases h with
        | keep hm h =>
          obtain ⟨ops, hops, hspells⟩ := ih (i + 1) (j + 1) hlti hltj h (by omega)
          rw [hops]
          refine ⟨_, rfl, ?_⟩
          have := hspells.equal hm
          rwa [show F.length - (i + 1) + 1 = F.length - i by omega,
            show G.length - (j + 1) + 1 = G.length - j by omega] at this
      case isFalse hedit =>
        have hrest := h.drop_dels.drop_inss
        rw [dropWhile_drop, dropWhile_drop] at hrest
        rw [flagged_eq F _ _ (by omega), flagged_eq G _ _ (by omega), List.length_range',
          List.length_range']
        have hlea := List.IsPrefix.length_le (List.takeWhile_prefix (l := F.drop i) id)
        have hleb := List.IsPrefix.length_le (List.takeWhile_prefix (l := G.drop j) id)
        rw [List.length_drop] at hlea hleb
        have hpos : 0 < ((F.drop i).takeWhile id).length + ((G.drop j).takeWhile id).length := by
          by_contra hzero
          have hF := @eq_nil_or_false (F.drop i) (by omega)
          have hG := @eq_nil_or_false (G.drop j) (by omega)
          rcases hF with hF | ⟨F', hF⟩ <;> rcases hG with hG | ⟨G', hG⟩
          · rw [List.drop_eq_nil_iff] at hF hG
            omega
          · rw [hF, hG] at h
            exact h.not_nil_left rfl
          · rw [hF, hG] at h
            exact h.not_nil_right rfl
          · have hF' := congrArg (·[0]?) hF
            have hG' := congrArg (·[0]?) hG
            simp only [List.getElem?_drop, Nat.add_zero, List.getElem?_cons_zero] at hF' hG'
            exact hedit ⟨(List.getElem?_eq_some_iff.1 hF').1,
              (List.getElem?_eq_some_iff.1 hG').1, hF', hG'⟩
        generalize ((F.drop i).takeWhile id).length = a at *
        generalize ((G.drop j).takeWhile id).length = b at *
        obtain ⟨ops, hops, hspells⟩ := ih (i + a) (j + b) (by omega) (by omega) hrest (by omega)
        rw [hops]
        refine ⟨_, rfl, ?_⟩
        have := hspells.edits
        rwa [show a + (F.length - (i + a)) = F.length - i by omega,
          show b + (G.length - (j + b)) = G.length - j by omega] at this

/-- The edit script is there, takes the lines of each side in order, and pairs matching ones. -/
theorem editScript_spec (old new : List DiffLine) (mode : WhitespaceMode) :
    ∃ ops, editScript old new mode = some ops ∧
      Spells (Match old new mode) ops 0 old.length 0 new.length := by
  obtain ⟨F, G, hchanged, hflags⟩ := myersChanged_spec old new mode
  obtain ⟨ops, hops, hspells⟩ := scriptFrom_spec (F.length + G.length) 0 0 (Nat.zero_le _)
    (Nat.zero_le _) hflags.aligned le_rfl
  refine ⟨ops, ?_, ?_⟩
  · rw [editScript, hchanged]
    dsimp only [Option.bind_eq_bind, Option.bind_some]
    rw [compactChanges_eq hflags.length_old hflags.fixed_old,
      compactChanges_eq hflags.length_new hflags.fixed_new, scriptFromFlags, ← hflags.length_old,
      ← hflags.length_new]
    exact hops
  · rwa [Nat.sub_zero, Nat.sub_zero, hflags.length_old, hflags.length_new] at hspells

/-- The lines that flags leave unset. -/
def unmarked (lines : List DiffLine) (changed : List Bool) : List DiffLine :=
  ((lines.zip changed).filter fun p => !p.2).map Prod.fst

/-- The edit script of two line lists always comes to an end. It takes the lines of each side
once and in order, and pairs only lines that are equal under the mode. The search flags every
line, and sliding the runs of each side leaves the same lines unmarked. -/
theorem editScript_aligned (old new : List DiffLine) (mode : WhitespaceMode) :
    (∃ ops, editScript old new mode = some ops ∧
      ops.filterMap DiffOp.old? = List.range old.length ∧
      ops.filterMap DiffOp.new? = List.range new.length ∧
      ∀ i j, DiffOp.equal i j ∈ ops →
        ∃ a b, old[i]? = some a ∧ new[j]? = some b ∧ linesEqual a b mode = true) ∧
    ∃ oldChanged newChanged, myersChanged old new mode = some (oldChanged, newChanged) ∧
      oldChanged.length = old.length ∧ newChanged.length = new.length ∧
      unmarked old (compactChanges old mode oldChanged) = unmarked old oldChanged ∧
      unmarked new (compactChanges new mode newChanged) = unmarked new newChanged := by
  constructor
  · obtain ⟨ops, hops, hspells⟩ := editScript_spec old new mode
    refine ⟨ops, hops, ?_, ?_, fun i j hmem => match_natCast.1 (hspells.match_of_mem i j hmem)⟩
    · rw [hspells.old_eq, List.range_eq_range']
    · rw [hspells.new_eq, List.range_eq_range']
  · obtain ⟨F, G, hchanged, hflags⟩ := myersChanged_spec old new mode
    refine ⟨F, G, hchanged, hflags.length_old, hflags.length_new, ?_, ?_⟩
    · rw [compactChanges_eq hflags.length_old hflags.fixed_old]
    · rw [compactChanges_eq hflags.length_new hflags.fixed_new]

/-! ### Reading a script -/

theorem isSome_editScript (old new : List DiffLine) (mode : WhitespaceMode) :
    (editScript old new mode).isSome := by
  obtain ⟨ops, hops, -⟩ := editScript_spec old new mode
  rw [hops]
  rfl

/-- The edit script, which is always there. -/
def editOps (old new : List DiffLine) (mode : WhitespaceMode) : List DiffOp :=
  (editScript old new mode).get (isSome_editScript old new mode)

/-- From lines `i` and `j` on, `ops` take the lines of the two sides up to `n` and `m` in order,
and pair only lines that match. -/
inductive Script (M : ℤ → ℤ → Prop) (n m : ℕ) : ℕ → ℕ → List DiffOp → Prop
  | done : Script M n m n m []
  | equal {i j : ℕ} {ops : List DiffOp} (hm : M i j) (h : Script M n m (i + 1) (j + 1) ops) :
      Script M n m i j (.equal i j :: ops)
  | delete {i j : ℕ} {ops : List DiffOp} (h : Script M n m (i + 1) j ops) :
      Script M n m i j (.delete i :: ops)
  | insert {i j : ℕ} {ops : List DiffOp} (h : Script M n m i (j + 1) ops) :
      Script M n m i j (.insert j :: ops)

theorem Script.le {ops : List DiffOp} (h : Script M n m i j ops) : i ≤ n ∧ j ≤ m := by
  induction h <;> omega

theorem range'_eq_cons {l : List ℕ} (h : a :: l = List.range' i n) :
    a = i ∧ ∃ n', n = n' + 1 ∧ l = List.range' (i + 1) n' := by
  cases n with
  | zero => cases h
  | succ n =>
    obtain ⟨rfl, rfl⟩ := List.cons.inj h
    exact ⟨rfl, n, rfl, rfl⟩

/-- What the ops spell is a script. -/
theorem Spells.script {ops : List DiffOp} (h : Spells M ops i n j m) :
    Script M (i + n) (j + m) i j ops := by
  induction ops generalizing i n j m with
  | nil =>
    have hn : n = 0 := by simpa using (congrArg List.length h.old_eq).symm
    have hm : m = 0 := by simpa using (congrArg List.length h.new_eq).symm
    subst hn hm
    exact .done
  | cons op ops ih =>
    obtain ⟨hold, hnew, hmem⟩ := h
    have hmem' : ∀ oi ni, DiffOp.equal oi ni ∈ ops → M oi ni := fun oi ni h =>
      hmem oi ni (List.mem_cons_of_mem _ h)
    cases op with
    | equal oi ni =>
      obtain ⟨rfl, n, rfl, hold'⟩ := range'_eq_cons hold
      obtain ⟨rfl, m, rfl, hnew'⟩ := range'_eq_cons hnew
      have := ih ⟨hold', hnew', hmem'⟩
      rw [add_assoc, add_assoc, add_comm 1, add_comm 1] at this
      exact .equal (hmem oi ni List.mem_cons_self) this
    | delete oi =>
      obtain ⟨rfl, n, rfl, hold'⟩ := range'_eq_cons hold
      have := ih ⟨hold', hnew, hmem'⟩
      rw [add_assoc, add_comm 1] at this
      exact .delete this
    | insert ni =>
      obtain ⟨rfl, m, rfl, hnew'⟩ := range'_eq_cons hnew
      have := ih ⟨hold, hnew', hmem'⟩
      rw [add_assoc, add_comm 1] at this
      exact .insert this

/-- The edit script of two line lists spells out all of their lines. -/
theorem spells_editOps (old new : List DiffLine) (mode : WhitespaceMode) :
    Spells (Match old new mode) (editOps old new mode) 0 old.length 0 new.length := by
  obtain ⟨ops, hops, hspells⟩ := editScript_spec old new mode
  have heq : editOps old new mode = ops := by
    rw [editOps]
    exact Option.get_of_eq_some _ hops
  exact heq ▸ hspells

/-- It is a script over all of their lines. -/
theorem script_editOps (old new : List DiffLine) (mode : WhitespaceMode) :
    Script (Match old new mode) old.length new.length 0 0 (editOps old new mode) := by
  have := (spells_editOps old new mode).script
  rwa [Nat.zero_add, Nat.zero_add] at this

/-! ### A text against itself -/

theorem linesEqual_self (l : DiffLine) (mode : WhitespaceMode) : linesEqual l l mode = true := by
  simp [linesEqual]

theorem commonPrefix_self (lines : List DiffLine) : commonPrefix mode lines lines = lines.length := by
  induction lines with
  | nil => rfl
  | cons l lines ih => rw [commonPrefix, if_pos (linesEqual_self l mode), ih, List.length_cons]

/-- Without a flag every op pairs two lines. -/
theorem scriptFrom_unset {rounds : ℕ} (hrounds : n ≤ i + rounds) :
    scriptFrom n n (List.replicate n false) (List.replicate n false) rounds i i =
      some ((List.range' i (n - i)).map fun i => .equal i i) := by
  induction rounds generalizing i with
  | zero =>
    rw [scriptFrom, if_neg (by omega), Nat.sub_eq_zero_of_le (by omega)]
    rfl
  | succ rounds ih =>
    rw [scriptFrom]
    split
    case isTrue hmore =>
      have hlt : i < n := by omega
      have hunset : (List.replicate n false)[i]? = some false := by
        rw [List.getElem?_replicate, if_pos hlt]
      rw [if_pos ⟨hlt, hlt, hunset, hunset⟩, ih (by omega),
        show n - i = n - (i + 1) + 1 by omega]
      rfl
    case isFalse hend =>
      rw [Nat.sub_eq_zero_of_le (by omega)]
      rfl

/-- Between a text and itself nothing changed. -/
theorem editOps_self (lines : List DiffLine) (mode : WhitespaceMode) :
    editOps lines lines mode = (List.range lines.length).map fun i => .equal i i := by
  have hchanged : myersChanged lines lines mode =
      some (List.replicate lines.length false, List.replicate lines.length false) := by
    rw [myersChanged, commonPrefix_self, List.drop_length]
    simp [myersChangedCore]
  obtain ⟨F, G, hF, hflags⟩ := myersChanged_spec lines lines mode
  rw [hchanged] at hF
  obtain ⟨rfl, rfl⟩ := Prod.mk.inj (Option.some.inj hF)
  have hscript : editScript lines lines mode =
      some ((List.range' 0 (lines.length - 0)).map fun i => .equal i i) := by
    rw [editScript, hchanged]
    dsimp only [Option.bind_eq_bind, Option.bind_some]
    rw [compactChanges_eq hflags.length_old hflags.fixed_old, scriptFromFlags,
      scriptFrom_unset (by omega)]
  rw [editOps, Option.get_of_eq_some _ hscript, Nat.sub_zero, List.range_eq_range']

end Mkit.LineDiff
