import Mkit.Hunks

/-!
# Unified Hunks

`unified_hunks_opts` of `ops/diff.rs`: the hunks between two texts, for any number of context
lines and any comparison of lines, and how they are rendered.

The header of a side that has lines always finds them; that of a side without lines says line
zero, which is right only at the front of the file (`locatesSide_iff`). Context keeps such sides
at the front. Without context one is elsewhere exactly when a run of changes that only deletes or
only inserts follows a line that both sides have (`LoneRun`), and those are all the ways in which
headers mislead (`headersLocate_iff`).
-/

namespace Mkit.LineDiff

/-! ### Rendering -/

/-- One side of a header: the length is left out when it is one. -/
def hunkRange (start len : ℕ) : Bytes :=
  if len = 1 then Text.decimal start
  else Text.decimal start ++ [0x2c] ++ Text.decimal len

/-- ASCII `\ No newline at end of file` and a newline. -/
def NO_NEWLINE : Bytes :=
  [0x5c, 0x20, 0x4e, 0x6f, 0x20, 0x6e, 0x65, 0x77, 0x6c, 0x69, 0x6e, 0x65, 0x20, 0x61, 0x74, 0x20,
    0x65, 0x6e, 0x64, 0x20, 0x6f, 0x66, 0x20, 0x66, 0x69, 0x6c, 0x65, 0x0a]

def emitLine (sign : UInt8) (l : DiffLine) : Bytes :=
  sign :: l.text ++ [0x0a] ++ if l.hasNewline then [] else NO_NEWLINE

def renderOp (old new : List DiffLine) : DiffOp → Bytes
  | .equal oi _ => (old[oi]?.map (emitLine 0x20)).getD []
  | .delete oi => (old[oi]?.map (emitLine 0x2d)).getD []
  | .insert ni => (new[ni]?.map (emitLine 0x2b)).getD []

/-- The header `@@ -<old> +<new> @@` and the lines. -/
def renderHunk (old new : List DiffLine) (hunk : Hunk) : Bytes :=
  [0x40, 0x40, 0x20, 0x2d] ++ hunkRange hunk.oldStart hunk.oldLen ++ [0x20, 0x2b] ++
    hunkRange hunk.newStart hunk.newLen ++ [0x20, 0x40, 0x40, 0x0a] ++
    hunk.ops.flatMap (renderOp old new)

/-- The end of every context window is a word. -/
def windowsFit (ops : List DiffOp) (context : ℕ) : Bool :=
  (changePositions ops).all fun pos => pos + context + 1 < 2 ^ 64

/-- The hunks between two texts. The ends of the windows are checked sums, so without them
fitting it panics. -/
def hunksBetween (old new : Bytes) (context : ℕ) (mode : WhitespaceMode) : Option (List Hunk) :=
  let ops := editOps (splitLines old) (splitLines new) mode
  if windowsFit ops context then some (groupHunks ops context) else none

/-- `none` is a panic, `some none` a binary text. -/
def unifiedHunksOpts (old new : Bytes) (context : ℕ) (mode : WhitespaceMode) :
    Option (Option Bytes) :=
  if isBinary old || isBinary new then some none
  else
    (hunksBetween old new context mode).map fun hunks =>
      some (hunks.flatMap (renderHunk (splitLines old) (splitLines new)))

/-! ### Where headers point -/

/-- One side of a header locates the lines `lines` of its hunk, which stand behind the first
`before` lines of that side. -/
structure LocatesSide (start len before : ℕ) (lines : List ℕ) : Prop where
  len_eq : len = lines.length
  first : lines ≠ [] → 0 < start ∧ lines.head? = some (start - 1)
  empty : lines = [] → start = before

/-- The header of a hunk locates the stretch `r` of the script. -/
structure Locates (ops : List DiffOp) (r : ℕ × ℕ) (hunk : Hunk) : Prop where
  ops_eq : hunk.ops = slice ops r
  old : LocatesSide hunk.oldStart hunk.oldLen (oldAt ops r.1) (hunk.ops.filterMap DiffOp.old?)
  new : LocatesSide hunk.newStart hunk.newLen (newAt ops r.1) (hunk.ops.filterMap DiffOp.new?)

/-- One hunk ends before the other starts, on both sides. -/
structure Precedes (h h' : Hunk) : Prop where
  old : hunkFrom h.oldStart h.oldLen + h.oldLen < hunkFrom h'.oldStart h'.oldLen
  new : hunkFrom h.newStart h.newLen + h.newLen < hunkFrom h'.newStart h'.newLen

/-- A hunk as what it replaces, where its header says. -/
def Hunk.patch (old new : List DiffLine) (hunk : Hunk) : MergeRegion where
  baseStart := hunkFrom hunk.oldStart hunk.oldLen
  baseLen := hunk.oldLen
  new := hunk.ops.flatMap (appliedLine old new)

/-- The hunks that are rendered stand where their headers say, in order and apart, and where
lines are compared exactly they make the new text of the old one. -/
def HeadersLocate (old new : Bytes) (context : ℕ) (mode : WhitespaceMode) : Prop :=
  let oldLines := splitLines old
  let newLines := splitLines new
  let ops := editOps oldLines newLines mode
  ∃ hunks,
    unifiedHunksOpts old new context mode =
      some (some (hunks.flatMap (renderHunk oldLines newLines))) ∧
    hunksBetween old new context mode = some hunks ∧
    List.Forall₂ (Locates ops) (hunkRanges ops context) hunks ∧
    hunks.Pairwise Precedes ∧
    (mode = .exact →
      rawLines (spliceFrom oldLines 0 (hunks.map (Hunk.patch oldLines newLines))) = new)

/-- A whole run of changes, behind two lines that are paired, that only inserts or only
deletes. -/
structure LoneRun (ops : List DiffOp) (r : ℕ × ℕ) : Prop where
  bounds : r.1 < r.2 ∧ r.2 ≤ ops.length
  before : ∃ op, 0 < r.1 ∧ ops[r.1 - 1]? = some op ∧ op.isEqual = true
  changes : ∀ p op, In r p → ops[p]? = some op → op.isEqual = false
  behind : ∀ op, ops[r.2]? = some op → op.isEqual = true
  oneSided : (slice ops r).filterMap DiffOp.old? = [] ∨ (slice ops r).filterMap DiffOp.new? = []

/-- Sides of ranges without lines stand at the front of their file. -/
def Fronted (f : DiffOp → Option ℕ) (ops : List DiffOp) (ranges : List (ℕ × ℕ)) : Prop :=
  ∀ r ∈ ranges, (slice ops r).filterMap f = [] → takenAt f ops r.1 = 0

variable {old new : List DiffLine} {ops : List DiffOp} {ranges : List (ℕ × ℕ)} {context : ℕ}
  {f : DiffOp → Option ℕ}

theorem locatesSide_iff {before : ℕ} {lines : List ℕ} :
    LocatesSide (lines.head?.elim 0 (· + 1)) lines.length before lines ↔
      (lines = [] → before = 0) := by
  constructor
  · intro h hnil
    have := h.empty hnil
    rw [hnil] at this
    exact this.symm
  · intro h
    refine ⟨rfl, fun hne => ?_, fun hnil => ?_⟩
    · obtain ⟨i, lines, rfl⟩ := List.exists_cons_of_ne_nil hne
      exact ⟨Nat.succ_pos i, rfl⟩
    · rw [hnil, h hnil]
      rfl

/-- The header of a range locates it when its sides without lines stand at the front. -/
theorem locates_iff {r : ℕ × ℕ} : Locates ops r (buildHunk (slice ops r)) ↔
    ((slice ops r).filterMap DiffOp.old? = [] → oldAt ops r.1 = 0) ∧
      ((slice ops r).filterMap DiffOp.new? = [] → newAt ops r.1 = 0) := by
  obtain ⟨holdLen, hnewLen, holdStart, hnewStart⟩ := buildHunk_spec (slice ops r)
  have hops : (buildHunk (slice ops r)).ops = slice ops r := rfl
  constructor
  · rintro ⟨-, hold, hnew⟩
    rw [holdLen, holdStart, hops] at hold
    rw [hnewLen, hnewStart, hops] at hnew
    exact ⟨locatesSide_iff.1 hold, locatesSide_iff.1 hnew⟩
  · rintro ⟨hold, hnew⟩
    refine ⟨rfl, ?_, ?_⟩
    · rw [holdLen, holdStart, hops]
      exact locatesSide_iff.2 hold
    · rw [hnewLen, hnewStart, hops]
      exact locatesSide_iff.2 hnew

/-! ### Ranges without context -/

/-- Next to a range stand no changes. -/
theorem Grouped.isEqual_beside (h : Grouped ops context (changePositions ops) ranges) {p : ℕ}
    {r : ℕ × ℕ} (hr : r ∈ ranges) (hp : p + 1 = r.1 ∨ p = r.2) {op : DiffOp}
    (hop : ops[p]? = some op) : op.isEqual = true := by
  refine h.isEqual_of_free hop fun r' hr' hin => ?_
  obtain ⟨hlt, -⟩ := h.bounds r hr
  dsimp only [In] at hin
  by_cases heq : r' = r
  · subst heq
    omega
  · have : Std.Symm fun r r' : ℕ × ℕ => r.2 < r'.1 ∨ r'.2 < r.1 := ⟨fun _ _ => Or.symm⟩
    have hor : ranges.Pairwise fun r r' => r.2 < r'.1 ∨ r'.2 < r.1 := h.apart.imp Or.inl
    have := hor.forall hr' hr heq
    omega

/-- Without context a range is a whole run of changes. -/
theorem Grouped.loneRun (h : Grouped ops 0 (changePositions ops) ranges) {r : ℕ × ℕ}
    (hr : r ∈ ranges) (hfirst : r.1 ≠ 0) (hside : (slice ops r).filterMap DiffOp.old? = [] ∨
      (slice ops r).filterMap DiffOp.new? = []) : LoneRun ops r where
  bounds := h.bounds r hr
  before := by
    obtain ⟨hlt, hle⟩ := h.bounds r hr
    have hop : ops[r.1 - 1]? = some ops[r.1 - 1] := List.getElem?_eq_getElem (by omega)
    exact ⟨_, by omega, hop, h.isEqual_beside hr (.inl (by omega)) hop⟩
  changes p op hin hop := by
    obtain ⟨op', hop', hchange⟩ := mem_changePositions.1 (h.only rfl r hr p hin)
    rwa [Option.some.inj (hop.symm.trans hop')]
  behind op hop := h.isEqual_beside hr (.inr rfl) hop
  oneSided := hside

/-- Without context a whole run of changes is a range. -/
theorem LoneRun.mem {r : ℕ × ℕ} (hrun : LoneRun ops r)
    (h : Grouped ops 0 (changePositions ops) ranges) : r ∈ ranges := by
  obtain ⟨hlt, hle⟩ := hrun.bounds
  have hchange : ∀ p, In r p → p ∈ changePositions ops := by
    intro p hin
    have hop : ops[p]? = some ops[p] := List.getElem?_eq_getElem (by have := hin.2; omega)
    exact mem_changePositions.2 ⟨_, hop, hrun.changes p _ hin hop⟩
  have hunchanged : ∀ p op, ops[p]? = some op → op.isEqual = true → p ∉ changePositions ops := by
    intro p op hop hequal hmem
    obtain ⟨op', hop', hchange⟩ := mem_changePositions.1 hmem
    obtain rfl := Option.some.inj (hop.symm.trans hop')
    rw [hequal] at hchange
    cases hchange
  obtain ⟨r', hr', hin'⟩ := h.holds r.1 (hchange r.1 ⟨le_rfl, hlt⟩)
  obtain ⟨-, hle'⟩ := h.bounds r' hr'
  dsimp only [In] at hin'
  have hstart : r'.1 = r.1 := by
    by_contra hne
    obtain ⟨op, hpos, hop, hequal⟩ := hrun.before
    exact hunchanged _ op hop hequal (h.only rfl r' hr' _ ⟨by omega, by omega⟩)
  have hend : r'.2 = r.2 := by
    rcases lt_trichotomy r'.2 r.2 with hlt' | heq | hgt
    · -- the run goes on behind the range
      have hop : ops[r'.2]? = some ops[r'.2] := List.getElem?_eq_getElem (by omega)
      have hequal := h.isEqual_beside hr' (.inr rfl) hop
      rw [hrun.changes _ _ ⟨by omega, hlt'⟩ hop] at hequal
      cases hequal
    · exact heq
    · have hop : ops[r.2]? = some ops[r.2] := List.getElem?_eq_getElem (by omega)
      exact absurd (h.only rfl r' hr' _ ⟨by omega, hgt⟩)
        (hunchanged _ _ hop (hrun.behind _ hop))
  have : r' = r := Prod.ext hstart hend
  exact this ▸ hr'

/-- Sides without lines stand at the front when there is context, or no run that changes only one
side. -/
theorem fronted_iff (ops : List DiffOp) (context : ℕ) :
    (Fronted DiffOp.old? ops (hunkRanges ops context) ∧
      Fronted DiffOp.new? ops (hunkRanges ops context)) ↔
      (context ≠ 0 ∨ ¬ ∃ r, LoneRun ops r) := by
  have hgrouped := grouped_hunkRanges ops context
  constructor
  · rintro ⟨hold, hnew⟩
    rw [or_iff_not_imp_left, not_not]
    rintro rfl ⟨r, hrun⟩
    have hr := hrun.mem hgrouped
    obtain ⟨op, hpos, hop, hequal⟩ := hrun.before
    rcases hrun.oneSided with hnone | hnone
    · have := takenAt_lt hop (op.old?_of_isEqual hequal) (Nat.sub_lt hpos one_pos)
      rw [hold r hr hnone] at this
      omega
    · have := takenAt_lt hop (op.new?_of_isEqual hequal) (Nat.sub_lt hpos one_pos)
      rw [hnew r hr hnone] at this
      omega
  · intro h
    have hfront : ∀ {f : DiffOp → Option ℕ}, (∀ op, op.isEqual = true → f op ≠ none) →
        (∀ r : ℕ × ℕ, (slice ops r).filterMap f = [] →
          (slice ops r).filterMap DiffOp.old? = [] ∨ (slice ops r).filterMap DiffOp.new? = []) →
        Fronted f ops (hunkRanges ops context) := by
      intro f hequal hside r hr hnone
      by_cases hcontext : context = 0
      · subst hcontext
        by_contra hne
        have hfirst : r.1 ≠ 0 := fun hzero => hne (by rw [hzero]; rfl)
        exact (h.resolve_left (not_not.2 rfl))
          ⟨r, hgrouped.loneRun hr hfirst (hside r hnone)⟩
      · exact takenAt_eq_zero hequal (Nat.pos_of_ne_zero hcontext) hr hnone
    exact ⟨hfront DiffOp.old?_of_isEqual fun _ => .inl, hfront DiffOp.new?_of_isEqual fun _ => .inr⟩

/-! ### When headers locate their hunks -/

/-- Hunks of ranges come in order and apart. -/
theorem precedes_of_fronted (h : Takes old new ops)
    (hold : Fronted DiffOp.old? ops (hunkRanges ops context))
    (hnew : Fronted DiffOp.new? ops (hunkRanges ops context)) :
    (groupHunks ops context).Pairwise Precedes := by
  have hgrouped := grouped_hunkRanges ops context
  rw [groupHunks_eq, List.pairwise_map]
  refine hgrouped.apart.imp_of_mem fun {r r'} hr hr' hlt => ?_
  have hr₁ := (hgrouped.bounds r hr).1.le
  obtain ⟨hlt', hle'⟩ := hgrouped.bounds r' hr'
  -- the op behind the first range takes a line of each side
  have hop : ops[r.2]? = some ops[r.2] := List.getElem?_eq_getElem (by omega)
  have hequal := hgrouped.isEqual_beside hr (.inr rfl) hop
  obtain ⟨holdLen, hnewLen, holdStart, hnewStart⟩ := buildHunk_spec (slice ops r)
  obtain ⟨holdLen', hnewLen', holdStart', hnewStart'⟩ := buildHunk_spec (slice ops r')
  constructor
  · rw [holdLen, holdStart, holdLen', holdStart', (hunkFrom_slice h.old_eq hr₁ (hold r hr)).1,
      (hunkFrom_slice h.old_eq hr₁ (hold r hr)).2,
      (hunkFrom_slice h.old_eq hlt'.le (hold r' hr')).1]
    exact takenAt_lt hop (DiffOp.old?_of_isEqual _ hequal) hlt
  · rw [hnewLen, hnewStart, hnewLen', hnewStart', (hunkFrom_slice h.new_eq hr₁ (hnew r hr)).1,
      (hunkFrom_slice h.new_eq hr₁ (hnew r hr)).2,
      (hunkFrom_slice h.new_eq hlt'.le (hnew r' hr')).1]
    exact takenAt_lt hop (DiffOp.new?_of_isEqual _ hequal) hlt

/-- Replacing what the headers point at makes what the script keeps and adds. -/
theorem splice_patches (h : Takes old new ops)
    (hold : Fronted DiffOp.old? ops (hunkRanges ops context))
    (hmatch : ∀ oi ni, DiffOp.equal oi ni ∈ ops → Match old new .exact oi ni) :
    spliceFrom old 0 ((groupHunks ops context).map (Hunk.patch old new)) = new := by
  have hgrouped := grouped_hunkRanges ops context
  have hpatches : (groupHunks ops context).map (Hunk.patch old new) =
      (hunkRanges ops context).map (segment ops fun _ => appliedLine old new) := by
    rw [groupHunks_eq, List.map_map]
    refine List.map_congr_left fun r hr => ?_
    have hr₁ := (hgrouped.bounds r hr).1.le
    obtain ⟨holdLen, -, holdStart, -⟩ := buildHunk_spec (slice ops r)
    rw [Function.comp_apply, Hunk.patch, segment, holdLen, holdStart,
      (hunkFrom_slice h.old_eq hr₁ (hold r hr)).1, (numbered_slice h.old_eq hr₁).1, gather_const]
    rfl
  have hsplice := splice_ranges (g := fun _ => appliedLine old new) h (Nat.zero_le _)
    (fun _ _ => Nat.zero_le _) hgrouped.bounds hgrouped.apart fun p op _ hop hfree => by
      have hequal := hgrouped.isEqual_of_free hop hfree
      cases op with
      | equal => rfl
      | delete => cases hequal
      | insert => cases hequal
  rw [hpatches]
  exact hsplice.trans ((gather_const _ 0 ops).trans (h.flatMap_appliedLine hmatch))

theorem headersLocate_iff_fronted {old new : Bytes} (hold : isBinary old = false)
    (hnew : isBinary new = false) (context : ℕ) (mode : WhitespaceMode) {ops : List DiffOp}
    (hops : editOps (splitLines old) (splitLines new) mode = ops) :
    HeadersLocate old new context mode ↔
      windowsFit ops context = true ∧ Fronted DiffOp.old? ops (hunkRanges ops context) ∧
        Fronted DiffOp.new? ops (hunkRanges ops context) := by
  have htakes := takes_editOps (splitLines old) (splitLines new) mode
  have hspells := spells_editOps (splitLines old) (splitLines new) mode
  rw [hops] at htakes hspells
  constructor
  · rintro ⟨hunks, -, hbetween, hlocates, -, -⟩
    rw [hops] at hlocates
    rw [hunksBetween, hops] at hbetween
    split at hbetween
    case isFalse => cases hbetween
    case isTrue hfit =>
      obtain rfl := Option.some.inj hbetween
      rw [groupHunks_eq, List.forall₂_map_right_iff, List.forall₂_same] at hlocates
      exact ⟨hfit, fun r hr => (locates_iff.1 (hlocates r hr)).1,
        fun r hr => (locates_iff.1 (hlocates r hr)).2⟩
  · rintro ⟨hfit, hfold, hfnew⟩
    have hbetween : hunksBetween old new context mode = some (groupHunks ops context) := by
      rw [hunksBetween, hops]
      exact if_pos hfit
    refine ⟨groupHunks ops context, ?_, hbetween, ?_, precedes_of_fronted htakes hfold hfnew, ?_⟩
    · rw [unifiedHunksOpts, hold, hnew, hbetween]
      rfl
    · rw [hops, groupHunks_eq, List.forall₂_map_right_iff, List.forall₂_same]
      exact fun r hr => locates_iff.2 ⟨hfold r hr, hfnew r hr⟩
    · rintro rfl
      rw [splice_patches htakes hfold hspells.match_of_mem, rawLines_splitLines]

/-- Between two texts that are not binary, headers locate their hunks exactly when the ends of
the context windows fit a word and there is context, or no whole run of changes behind two lines
that are paired only inserts or only deletes. -/
theorem headersLocate_iff {old new : Bytes} (hold : isBinary old = false)
    (hnew : isBinary new = false) (context : ℕ) (mode : WhitespaceMode) :
    HeadersLocate old new context mode ↔
      windowsFit (editOps (splitLines old) (splitLines new) mode) context = true ∧
        (context ≠ 0 ∨ ¬ ∃ r, LoneRun (editOps (splitLines old) (splitLines new) mode) r) := by
  rw [← fronted_iff]
  exact headersLocate_iff_fronted hold hnew context mode rfl

/-- A line added between two. -/
theorem headersLocate_iff_added : let old := [97, 10, 98, 10]
    let new := [97, 10, 120, 10, 98, 10]
    HeadersLocate old new 3 .exact ↔
      windowsFit (editOps (splitLines old) (splitLines new) .exact) 3 = true ∧
        (3 ≠ 0 ∨ ¬ ∃ r, LoneRun (editOps (splitLines old) (splitLines new) .exact) r) :=
  headersLocate_iff (by decide) (by decide) 3 .exact

/-- Without context the same line is placed behind line zero of the old text. -/
theorem headersLocate_added : let old := [97, 10, 98, 10]
    let new := [97, 10, 120, 10, 98, 10]
    isBinary old = false ∧ isBinary new = false ∧
      hunksBetween old new 0 .exact = some [⟨0, 0, 2, 1, [.insert 1]⟩] ∧
      ¬ HeadersLocate old new 0 .exact := by
  refine ⟨by decide, by decide, by decide, fun h => ?_⟩
  have hops : editOps (splitLines [97, 10, 98, 10]) (splitLines [97, 10, 120, 10, 98, 10])
      .exact = [.equal 0 0, .insert 1, .equal 1 2] := by decide
  obtain ⟨-, hold, -⟩ := (headersLocate_iff_fronted (by decide) (by decide) 0 .exact hops).1 h
  exact absurd (hold (1, 2) (by decide) rfl) (by decide)

end Mkit.LineDiff
