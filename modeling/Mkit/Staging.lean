import Mkit.Hunks

/-!
# Staging Hunks

`enumerate_hunks` and `apply_hunks_subset` of `ops/diff.rs`: the hunks between two texts with
their lines, and the text in which only some of them are applied.

The regions that the headers give are the ranges of the hunks (`applyHunksFrom_eq`), so the
result is the edit script with the selected changes made and the others left
(`applyHunksSubset_exact`).
-/

namespace Mkit.LineDiff

/-- Context lines of a patch. -/
def PATCH_CONTEXT : ℕ := 3

inductive HunkLineKind
  | context
  | added
  | removed
  deriving DecidableEq

/-- A line of a hunk, and where it comes from. -/
structure HunkLine where
  kind : HunkLineKind
  line : DiffLine
  deriving DecidableEq

/-- A hunk with its lines. -/
structure PatchHunk where
  oldStart : ℕ
  oldLen : ℕ
  newStart : ℕ
  newLen : ℕ
  lines : List HunkLine
  deriving DecidableEq

def hunkLine (old new : List DiffLine) : DiffOp → Option HunkLine
  | .equal oi _ => old[oi]?.map (HunkLine.mk .context)
  | .delete oi => old[oi]?.map (HunkLine.mk .removed)
  | .insert ni => new[ni]?.map (HunkLine.mk .added)

def toPatchHunk (old new : List DiffLine) (hunk : Hunk) : PatchHunk where
  oldStart := hunk.oldStart
  oldLen := hunk.oldLen
  newStart := hunk.newStart
  newLen := hunk.newLen
  lines := hunk.ops.filterMap (hunkLine old new)

def enumerateHunks (old new : Bytes) : Option (List PatchHunk) :=
  if isBinary old || isBinary new then none
  else
    let oldLines := splitLines old
    let newLines := splitLines new
    let ops := editOps oldLines newLines .exact
    some ((groupHunks ops PATCH_CONTEXT).map (toPatchHunk oldLines newLines))

/-- Apply the selected ones of the hunks from index `i` on, with the base written up to line
`cursor`. -/
def applyHunksFrom (old : List DiffLine) (selected : List ℕ) : ℕ → ℕ → List PatchHunk → Bytes
  | cursor, _, [] => rawLines (old.drop cursor)
  | cursor, i, h :: hunks =>
    let regionStart := min (hunkFrom h.oldStart h.oldLen) old.length
    let regionEnd := min (regionStart + h.oldLen) old.length
    rawLines ((old.take regionStart).drop cursor) ++
      (if i ∈ selected then
        rawLines ((h.lines.filter (·.kind ≠ .removed)).map (·.line))
      else rawLines ((old.take regionEnd).drop regionStart)) ++
      applyHunksFrom old selected regionEnd (i + 1) hunks

def applyHunksSubset (base : Bytes) (hunks : List PatchHunk) (selected : List ℕ) : Bytes :=
  applyHunksFrom (splitLines base) selected 0 0 hunks

/-! ### The staged lines of a script -/

/-- Some selected index is that of a range that holds position `p`. -/
def selectedAt (ranges : List (ℕ × ℕ)) (selected : List ℕ) (p : ℕ) : Bool :=
  selected.any fun i => ranges[i]?.any fun r => r.1 ≤ p ∧ p < r.2

/-- What staging leaves of an op: both sides' line, a deleted line that is not selected, an
inserted line that is. -/
def stagedLine (old new : List DiffLine) (isSelected : Bool) : DiffOp → List DiffLine
  | .equal oi _ => old[oi]?.toList
  | .delete oi => if isSelected then [] else old[oi]?.toList
  | .insert ni => if isSelected then new[ni]?.toList else []

/-- The lines that staging leaves, in the order of the script. -/
def stagedLines (old new : List DiffLine) (ops : List DiffOp) (ranges : List (ℕ × ℕ))
    (selected : List ℕ) : List DiffLine :=
  gather (fun p => stagedLine old new (selectedAt ranges selected p)) 0 ops

variable {old new : List DiffLine} {ops : List DiffOp} {ranges : List (ℕ × ℕ)}
  {selected : List ℕ}

theorem stagedLine_true (op : DiffOp) : stagedLine old new true op = appliedLine old new op := by
  cases op <;> rfl

theorem stagedLine_false (op : DiffOp) : stagedLine old new false op = oldLine old op := by
  cases op <;> rfl

/-- An op that pairs two lines keeps the old one. -/
theorem stagedLine_of_isEqual {op : DiffOp} (hop : op.isEqual = true) (isSelected : Bool) :
    stagedLine old new isSelected op = oldLine old op := by
  cases op with
  | equal => rfl
  | delete => cases hop
  | insert => cases hop

/-- The lines of a hunk that are not removed. -/
theorem map_line_filter (old new : List DiffLine) (l : List DiffOp) :
    ((l.filterMap (hunkLine old new)).filter (·.kind ≠ .removed)).map (·.line) =
      l.flatMap (appliedLine old new) := by
  induction l with
  | nil => rfl
  | cons op l ih =>
    rw [List.flatMap_cons, ← ih]
    cases op with
    | equal oi ni =>
      rw [List.filterMap_cons, hunkLine, appliedLine]
      cases old[oi]? <;> rfl
    | delete oi =>
      rw [List.filterMap_cons, hunkLine, appliedLine]
      cases old[oi]? <;> rfl
    | insert ni =>
      rw [List.filterMap_cons, hunkLine, appliedLine]
      cases new[ni]? <;> rfl

/-- At most one range holds a position. -/
theorem index_unique (hapart : ranges.Pairwise fun r r' => r.2 < r'.1) {i j p : ℕ}
    {r r' : ℕ × ℕ} (hr : ranges[i]? = some r) (hr' : ranges[j]? = some r') (hp : In r p)
    (hp' : In r' p) : i = j := by
  obtain ⟨hi, rfl⟩ := List.getElem?_eq_some_iff.1 hr
  obtain ⟨hj, rfl⟩ := List.getElem?_eq_some_iff.1 hr'
  have hsep := List.pairwise_iff_getElem.1 hapart
  dsimp only [In] at hp hp'
  rcases lt_trichotomy i j with hlt | heq | hgt
  · have := hsep i j hi hj hlt
    omega
  · exact heq
  · have := hsep j i hj hi hgt
    omega

/-- The index of the range that holds a position decides whether it is selected. -/
theorem selectedAt_of_in (hapart : ranges.Pairwise fun r r' => r.2 < r'.1) {i p : ℕ}
    {r : ℕ × ℕ} (hr : ranges[i]? = some r) (hp : In r p) :
    selectedAt ranges selected p = decide (i ∈ selected) := by
  rw [Bool.eq_iff_iff, decide_eq_true_iff, selectedAt, List.any_eq_true]
  constructor
  · rintro ⟨j, hj, hany⟩
    rw [Option.any_eq_true] at hany
    obtain ⟨r', hr', hp'⟩ := hany
    rwa [index_unique hapart hr hr' hp (of_decide_eq_true hp')]
  · intro hi
    refine ⟨i, hi, ?_⟩
    rw [hr, Option.any_some]
    exact decide_eq_true hp

/-- A change is selected when every range is. -/
theorem Grouped.selectedAt_of_change {context : ℕ}
    (h : Grouped ops context (changePositions ops) ranges)
    (hall : ∀ i < ranges.length, i ∈ selected) {p : ℕ} {op : DiffOp} (hop : ops[p]? = some op)
    (hchange : op.isEqual = false) : selectedAt ranges selected p = true := by
  obtain ⟨r, hr, hin⟩ := h.holds p (mem_changePositions.2 ⟨op, hop, hchange⟩)
  obtain ⟨i, hi⟩ := List.mem_iff_getElem?.1 hr
  rw [selectedAt_of_in h.apart hi hin]
  exact decide_eq_true (hall i (List.getElem?_eq_some_iff.1 hi).1)

/-- Applying hunks splices what staging leaves of their ranges. -/
theorem applyHunksFrom_eq (h : Takes old new ops) {g : ℕ → DiffOp → List DiffLine}
    {rs : List (ℕ × ℕ)} {i cursor : ℕ} (hbounds : ∀ r ∈ rs, r.1 < r.2 ∧ r.2 ≤ ops.length)
    (hfront : ∀ r ∈ rs, (slice ops r).filterMap DiffOp.old? = [] → oldAt ops r.1 = 0)
    (hg : ∀ j r, rs[j]? = some r → ∀ p op, In r p →
      g p op = stagedLine old new (decide (i + j ∈ selected)) op) :
    applyHunksFrom old selected cursor i
        (rs.map fun r => toPatchHunk old new (buildHunk (slice ops r))) =
      rawLines (spliceFrom old cursor (rs.map (segment ops g))) := by
  induction rs generalizing i cursor with
  | nil => rfl
  | cons r rs ih =>
    obtain ⟨hlt, hle⟩ := hbounds r List.mem_cons_self
    have hrest := @ih (i + 1) (oldAt ops r.2)
      (fun r' hr' => hbounds r' (List.mem_cons_of_mem r hr'))
      (fun r' hr' => hfront r' (List.mem_cons_of_mem r hr')) fun j r' hr' => by
        have := hg (j + 1) r' hr'
        rwa [show i + (j + 1) = i + 1 + j by omega] at this
    obtain ⟨holdLen, -, holdStart, -⟩ := buildHunk_spec (slice ops r)
    obtain ⟨hstart, hend⟩ := hunkFrom_slice h.old_eq hlt.le (hfront r List.mem_cons_self)
    obtain ⟨-, hmono, hlen⟩ := filterMap_slice h.old_eq hlt.le
    -- what staging leaves of the range is what is written for the hunk
    have hwritten : gather g r.1 (slice ops r) =
        (slice ops r).flatMap (stagedLine old new (decide (i ∈ selected))) := by
      rw [← gather_const _ r.1]
      refine gather_congr fun j op hop => hg 0 r rfl _ op ?_
      have := (getElem?_slice hop).2
      exact ⟨Nat.le_add_right _ _, this⟩
    have hregion : (if i ∈ selected then
          rawLines ((((slice ops r).filterMap (hunkLine old new)).filter
            (·.kind ≠ .removed)).map (·.line))
        else rawLines ((old.take (oldAt ops r.2)).drop (oldAt ops r.1))) =
        rawLines (gather g r.1 (slice ops r)) := by
      rw [hwritten, map_line_filter, ← h.slice_oldLine hlt.le]
      split
      case isTrue hi =>
        rw [decide_eq_true hi]
        exact congrArg rawLines (List.flatMap_congr fun op _ => (stagedLine_true op).symm)
      case isFalse hi =>
        rw [decide_eq_false hi]
        exact congrArg rawLines (List.flatMap_congr fun op _ => (stagedLine_false op).symm)
    have hops : (buildHunk (slice ops r)).ops = slice ops r := rfl
    rw [List.map_cons, List.map_cons, applyHunksFrom, spliceFrom, segment_baseEnd h hlt.le]
    simp only [toPatchHunk, hops, holdLen, holdStart, hstart,
      min_eq_left (hmono.trans hlen), hend, min_eq_left hlen] at hrest ⊢
    rw [hrest, hregion]
    simp only [rawLines, List.flatMap_append]
    rfl

/-- With context, applying the hunks of a script leaves its staged lines. -/
theorem applyHunksFrom_hunkRanges (h : Takes old new ops) {context : ℕ} (hcontext : 1 ≤ context)
    (selected : List ℕ) : applyHunksFrom old selected 0 0
        ((hunkRanges ops context).map fun r => toPatchHunk old new (buildHunk (slice ops r))) =
      rawLines (stagedLines old new ops (hunkRanges ops context) selected) := by
  have hgrouped := grouped_hunkRanges ops context
  have hsplice := splice_ranges (g := fun p =>
      stagedLine old new (selectedAt (hunkRanges ops context) selected p)) h (Nat.zero_le _)
    (fun _ _ => Nat.zero_le _) hgrouped.bounds hgrouped.apart fun p op _ hop hfree =>
      stagedLine_of_isEqual (hgrouped.isEqual_of_free hop hfree) _
  refine (applyHunksFrom_eq h hgrouped.bounds
    (fun r hr => takenAt_eq_zero DiffOp.old?_of_isEqual hcontext hr) fun j r hr p op hp => ?_).trans
    (congrArg rawLines hsplice)
  rw [Nat.zero_add, selectedAt_of_in hgrouped.apart hr hp]

/-- With every hunk selected the staged lines are the new ones. -/
theorem stagedLines_all (h : Takes old new ops) {context : ℕ}
    (hmatch : ∀ oi ni, DiffOp.equal oi ni ∈ ops → Match old new .exact oi ni)
    (hall : ∀ i < (hunkRanges ops context).length, i ∈ selected) :
    stagedLines old new ops (hunkRanges ops context) selected = new := by
  have hgrouped := grouped_hunkRanges ops context
  refine Eq.trans (gather_congr fun p op hop => ?_)
    ((gather_const (appliedLine old new) 0 ops).trans (h.flatMap_appliedLine hmatch))
  rw [Nat.zero_add]
  cases op with
  | equal oi ni => rfl
  | delete oi =>
    rw [hgrouped.selectedAt_of_change hall hop rfl]
    rfl
  | insert ni =>
    rw [hgrouped.selectedAt_of_change hall hop rfl]
    rfl

/-- With no hunk selected the staged lines are the old ones. -/
theorem stagedLines_none (h : Takes old new ops) (hnone : ∀ i < ranges.length, i ∉ selected) :
    stagedLines old new ops ranges selected = old := by
  have hselected : ∀ p, selectedAt ranges selected p = false := by
    intro p
    rw [← Bool.not_eq_true, selectedAt, List.any_eq_true]
    rintro ⟨i, hi, hany⟩
    rw [Option.any_eq_true] at hany
    obtain ⟨r, hr, -⟩ := hany
    exact hnone i (List.getElem?_eq_some_iff.1 hr).1 hi
  rw [stagedLines]
  simp only [hselected]
  rw [gather_const, List.flatMap_congr fun op _ => stagedLine_false op, h.flatMap_oldLine]

/-- Between two texts that are not binary, each change of the edit script lies in exactly one
hunk. Applying a selection of the hunks leaves, in the order of the script, the lines that both
sides have, the deleted ones whose hunk is not selected and the inserted ones whose hunk is: the
new text when every hunk is selected, the old one when none is. -/
theorem applyHunksSubset_exact {old new : Bytes} (hold : isBinary old = false)
    (hnew : isBinary new = false) : let oldLines := splitLines old
    let newLines := splitLines new
    let ops := editOps oldLines newLines .exact
    let ranges := hunkRanges ops PATCH_CONTEXT
    ∃ hunks, enumerateHunks old new = some hunks ∧
      hunks = ranges.map (fun r => toPatchHunk oldLines newLines (buildHunk (slice ops r))) ∧
      (∀ p ∈ changePositions ops, ∃! i : ℕ, ∃ r, ranges[i]? = some r ∧ In r p) ∧
      ∀ selected,
        applyHunksSubset old hunks selected =
          rawLines (stagedLines oldLines newLines ops ranges selected) ∧
        ((∀ i < hunks.length, i ∈ selected) → applyHunksSubset old hunks selected = new) ∧
        ((∀ i < hunks.length, i ∉ selected) → applyHunksSubset old hunks selected = old) := by
  intro oldLines newLines ops ranges
  have htakes : Takes oldLines newLines ops := takes_editOps _ _ _
  have hgrouped := grouped_hunkRanges ops PATCH_CONTEXT
  refine ⟨_, ?_, rfl, fun p hp => ?_, fun selected => ?_⟩
  · have hhunks : enumerateHunks old new =
        some ((groupHunks ops PATCH_CONTEXT).map (toPatchHunk oldLines newLines)) := by
      rw [enumerateHunks, hold, hnew]
      rfl
    rw [hhunks, groupHunks_eq, List.map_map]
    rfl
  · obtain ⟨r, hr, hin⟩ := hgrouped.holds p hp
    obtain ⟨i, hi⟩ := List.mem_iff_getElem?.1 hr
    exact ⟨i, ⟨r, hi, hin⟩, fun j ⟨r', hj, hin'⟩ => index_unique hgrouped.apart hj hi hin' hin⟩
  · have hstaged := applyHunksFrom_hunkRanges htakes (show 1 ≤ PATCH_CONTEXT by decide) selected
    rw [List.length_map]
    refine ⟨hstaged, fun hall => ?_, fun hnone => ?_⟩
    · refine hstaged.trans ?_
      rw [stagedLines_all htakes (spells_editOps _ _ _).match_of_mem hall, rawLines_splitLines]
    · refine hstaged.trans ?_
      rw [stagedLines_none htakes hnone, rawLines_splitLines]

/-- A line replaced, seven kept and a line added. -/
theorem applyHunksSubset_exact_two :
    let old := [97, 10, 98, 10, 98, 10, 98, 10, 98, 10, 98, 10, 98, 10, 98, 10]
    let new := [99, 10, 98, 10, 98, 10, 98, 10, 98, 10, 98, 10, 98, 10, 98, 10, 100, 10]
    let oldLines := splitLines old
    let newLines := splitLines new
    let ops := editOps oldLines newLines .exact
    let ranges := hunkRanges ops PATCH_CONTEXT
    ∃ hunks, enumerateHunks old new = some hunks ∧
      hunks = ranges.map (fun r => toPatchHunk oldLines newLines (buildHunk (slice ops r))) ∧
      (∀ p ∈ changePositions ops, ∃! i : ℕ, ∃ r, ranges[i]? = some r ∧ In r p) ∧
      ∀ selected,
        applyHunksSubset old hunks selected =
          rawLines (stagedLines oldLines newLines ops ranges selected) ∧
        ((∀ i < hunks.length, i ∈ selected) → applyHunksSubset old hunks selected = new) ∧
        ((∀ i < hunks.length, i ∉ selected) → applyHunksSubset old hunks selected = old) :=
  applyHunksSubset_exact (by decide) (by decide)

end Mkit.LineDiff
