import Mkit.LineDiff
import Mathlib.Data.List.Pairwise
import Mathlib.Data.List.Sort

/-!
# The Line Merge

`merge_blob_3way` of `ops/diff.rs`: each side's edit script against the base is cut into changed
regions anchored on base lines; when no region of one side overlaps one of the other, all of
them are spliced onto the base in order.

A side is what its own regions make of the base (`Regions`, `changedRegions_spec`). Regions that
do not overlap have one order on the base (`ascending_sorted`, `eq_of_ascending`), which makes
the merge symmetric and neutral for an unchanged side (`mergeBlob3way_symmetric`). What is
spliced are lines, but what is written are their bytes: an unterminated last line of one side is
glued to the lines that the other appends behind the base, and nothing else goes wrong
(`mergeBlob3way_lines_iff`).
-/

namespace Mkit.LineDiff

/-- Bytes looked at to tell binary content. -/
def BINARY_SNIFF_LEN : ℕ := 8000

def isBinary (bytes : Bytes) : Bool :=
  (bytes.take BINARY_SNIFF_LEN).any (· = 0)

/-! ### Regions -/

/-- A run of base lines that one side replaced by `new`. -/
structure MergeRegion where
  baseStart : ℕ
  baseLen : ℕ
  new : List DiffLine
  deriving DecidableEq

/-- First base line behind a region. -/
abbrev MergeRegion.baseEnd (r : MergeRegion) : ℕ := r.baseStart + r.baseLen

/-- Cut a script into regions. `cur` is the region that is being read, and `baseIdx` the next
base line. -/
def regionsFrom (side : List DiffLine) : List DiffOp → Option MergeRegion → ℕ → List MergeRegion
  | [], cur, _ => cur.toList
  | .equal bi _ :: ops, cur, _ => cur.toList ++ regionsFrom side ops none (bi + 1)
  | .delete bi :: ops, cur, baseIdx =>
    let r := cur.getD { baseStart := baseIdx, baseLen := 0, new := [] }
    regionsFrom side ops (some { r with baseLen := r.baseLen + 1 }) (bi + 1)
  | .insert si :: ops, cur, baseIdx =>
    let r := cur.getD { baseStart := baseIdx, baseLen := 0, new := [] }
    regionsFrom side ops (some { r with new := r.new ++ side[si]?.toList }) baseIdx

def changedRegions (base side : List DiffLine) : List MergeRegion :=
  regionsFrom side (editOps base side .exact) none 0

/-- A pure insertion overlaps strictly inside a modified span, or where the other inserts. -/
def regionOverlaps (a b : MergeRegion) : Bool :=
  match decide (a.baseLen = 0), decide (b.baseLen = 0) with
  | true, true => a.baseStart = b.baseStart
  | true, false => b.baseStart < a.baseStart && a.baseStart < b.baseEnd
  | false, true => a.baseStart < b.baseStart && b.baseStart < a.baseEnd
  | false, false => a.baseStart < b.baseEnd && b.baseStart < a.baseEnd

def regionsOverlap (ours theirs : List MergeRegion) : Bool :=
  ours.any fun a => theirs.any fun b => regionOverlaps a b

/-- Order of the sort keys `(baseStart, baseLen)`. -/
def regionLe (a b : MergeRegion) : Bool :=
  a.baseStart < b.baseStart || (a.baseStart = b.baseStart && a.baseLen ≤ b.baseLen)

/-- Splice regions onto the base from line `cursor` on. -/
def applyFrom (base : List DiffLine) : ℕ → List MergeRegion → Bytes
  | cursor, [] => rawLines (base.drop cursor)
  | cursor, r :: rs =>
    rawLines ((base.take r.baseStart).drop cursor) ++ rawLines r.new ++
      applyFrom base r.baseEnd rs

def applyMergeRegions (base : List DiffLine) (ours theirs : List MergeRegion) : Bytes :=
  applyFrom base 0 ((ours ++ theirs).mergeSort regionLe)

def mergeBlob3way (base ours theirs : Bytes) : Option Bytes :=
  if ours = theirs then some ours
  else if isBinary base || isBinary ours || isBinary theirs then none
  else
    let baseLines := splitLines base
    let oursRegions := changedRegions baseLines (splitLines ours)
    let theirsRegions := changedRegions baseLines (splitLines theirs)
    if regionsOverlap oursRegions theirsRegions then none
    else some (applyMergeRegions baseLines oursRegions theirsRegions)

/-! ### Splicing lines -/

/-- The lines that splicing writes from line `cursor` on. -/
def spliceFrom (base : List DiffLine) : ℕ → List MergeRegion → List DiffLine
  | cursor, [] => base.drop cursor
  | cursor, r :: rs =>
    (base.take r.baseStart).drop cursor ++ r.new ++ spliceFrom base r.baseEnd rs

theorem applyFrom_eq (base : List DiffLine) (cursor : ℕ) (rs : List MergeRegion) :
    applyFrom base cursor rs = rawLines (spliceFrom base cursor rs) := by
  induction rs generalizing cursor with
  | nil => rfl
  | cons r rs ih =>
    rw [applyFrom, spliceFrom, ih]
    simp only [rawLines, List.flatMap_append]

variable {i j : ℕ}

/-- Lines that match exactly are the same line. -/
theorem eq_of_match_exact {old new : List DiffLine} (h : Match old new .exact i j) :
    ∃ l, old[i]? = some l ∧ new[j]? = some l := by
  obtain ⟨a, b, ha, hb, hab⟩ := match_natCast.1 h
  obtain ⟨ta, na⟩ := a
  obtain ⟨tb, nb⟩ := b
  rw [linesEqual, Bool.and_eq_true, decide_eq_true_eq, decide_eq_true_eq] at hab
  obtain ⟨rfl, rfl⟩ : na = nb ∧ ta = tb := hab
  exact ⟨_, ha, hb⟩

/-- Regions from line `cursor` of the base on make `lines`. -/
structure Makes (base : List DiffLine) (cursor : ℕ) (lines : List DiffLine)
    (rs : List MergeRegion) : Prop where
  splice_eq : spliceFrom base cursor rs = lines
  apart : rs.Pairwise fun r r' => r.baseEnd < r'.baseStart
  starts : ∀ r ∈ rs, cursor ≤ r.baseStart
  within : ∀ r ∈ rs, r.baseEnd ≤ base.length
  changes : ∀ r ∈ rs, r.baseLen = 0 → r.new ≠ []

variable {rs : List MergeRegion}

/-- A base line that comes before all regions is kept. -/
theorem spliceFrom_keep {base : List DiffLine} {l : DiffLine}
    (hl : base[i]? = some l) (hrs : ∀ r ∈ rs, i + 1 ≤ r.baseStart) :
    spliceFrom base i rs = l :: spliceFrom base (i + 1) rs := by
  obtain ⟨hi, rfl⟩ := List.getElem?_eq_some_iff.1 hl
  cases rs with
  | nil => exact List.drop_eq_getElem_cons hi
  | cons r rs =>
    have hr := hrs r List.mem_cons_self
    have hlen : i < (base.take r.baseStart).length := by
      rw [List.length_take]
      omega
    rw [spliceFrom, spliceFrom, List.drop_eq_getElem_cons hlen, List.getElem_take]
    rfl

/-- A region at the cursor is what comes first. -/
theorem spliceFrom_here (base : List DiffLine) (r : MergeRegion) (rs : List MergeRegion) :
    spliceFrom base r.baseStart (r :: rs) = r.new ++ spliceFrom base r.baseEnd rs := by
  rw [spliceFrom, List.drop_eq_nil_of_le (by rw [List.length_take]; omega), List.nil_append]

/-- The regions read off a script make the rest of the side, behind what the region being read
has already. -/
theorem makes_regionsFrom {base side : List DiffLine} {ops : List DiffOp}
    (h : Script (Match base side .exact) base.length side.length i j ops) :
    Makes base i (side.drop j) (regionsFrom side ops none i) ∧
      ∀ r : MergeRegion, r.baseEnd = i → (r.baseLen = 0 → r.new ≠ []) →
        Makes base r.baseStart (r.new ++ side.drop j) (regionsFrom side ops (some r) i) := by
  induction h with
  | done =>
    rw [List.drop_length]
    refine ⟨⟨List.drop_length, .nil, by simp [regionsFrom], by simp [regionsFrom],
      by simp [regionsFrom]⟩, fun r hr hchange =>
      ⟨?_, List.pairwise_singleton _ r, ?_, ?_, ?_⟩⟩
    · rw [regionsFrom, Option.toList_some, spliceFrom_here, hr, spliceFrom, List.drop_length]
    · intro r' hr'
      rw [List.mem_singleton.1 hr']
    · intro r' hr'
      rw [List.mem_singleton.1 hr', hr]
    · intro r' hr'
      rwa [List.mem_singleton.1 hr']
  | @equal i j ops hm h ih =>
    obtain ⟨hnone, -⟩ := ih
    obtain ⟨l, hbase, hside⟩ := eq_of_match_exact hm
    have hdrop : side.drop j = l :: side.drop (j + 1) := by
      obtain ⟨hj, rfl⟩ := List.getElem?_eq_some_iff.1 hside
      exact List.drop_eq_getElem_cons hj
    have hkeep : spliceFrom base i (regionsFrom side ops none (i + 1)) = side.drop j := by
      rw [spliceFrom_keep hbase hnone.starts, hnone.splice_eq, hdrop]
    refine ⟨⟨hkeep, hnone.apart, fun r hr => ?_, hnone.within, hnone.changes⟩,
      fun r hr hchange => ?_⟩
    · have := hnone.starts r hr
      omega
    rw [regionsFrom, Option.toList_some, List.singleton_append]
    refine ⟨?_, ?_, ?_, ?_, ?_⟩
    · rw [spliceFrom_here, hr, hkeep]
    · refine List.Pairwise.cons (fun r' hr' => ?_) hnone.apart
      have := hnone.starts r' hr'
      omega
    · intro r' hr'
      rcases List.mem_cons.1 hr' with rfl | hr'
      · exact le_rfl
      · have := hnone.starts r' hr'
        have hle : r.baseStart ≤ r.baseEnd := Nat.le_add_right _ _
        omega
    · intro r' hr'
      rcases List.mem_cons.1 hr' with rfl | hr'
      · have := h.le.1
        omega
      · exact hnone.within r' hr'
    · intro r' hr'
      rcases List.mem_cons.1 hr' with rfl | hr'
      · exact hchange
      · exact hnone.changes r' hr'
  | @delete i j ops h ih =>
    rw [regionsFrom]
    refine ⟨ih.2 { baseStart := i, baseLen := 1, new := [] } rfl (fun h => nomatch h),
      fun r hr hchange => ?_⟩
    rw [regionsFrom]
    exact ih.2 { r with baseLen := r.baseLen + 1 } (by rw [← hr]; rfl) (fun h => nomatch h)
  | @insert i j ops h ih =>
    have hj : j < side.length := h.le.2
    have hdrop : side.drop j = side[j] :: side.drop (j + 1) := List.drop_eq_getElem_cons hj
    rw [regionsFrom, List.getElem?_eq_getElem hj, Option.toList_some]
    have hstart := ih.2 { baseStart := i, baseLen := 0, new := [side[j]] } rfl
      fun _ => List.cons_ne_nil _ _
    refine ⟨by rw [hdrop]; exact hstart, fun r hr hchange => ?_⟩
    rw [regionsFrom, List.getElem?_eq_getElem hj, Option.toList_some]
    have := ih.2 { r with new := r.new ++ [side[j]] } hr fun _ => by simp
    rw [hdrop]
    simpa using this

/-- The changed regions of a side make that side. -/
theorem changedRegions_spec (base side : List DiffLine) :
    Makes base 0 side (changedRegions base side) :=
  (makes_regionsFrom (script_editOps base side .exact)).1

/-! ### The order of regions -/

/-- One region lies behind the other, and they do not stand at the same place. -/
structure Clear (a b : MergeRegion) : Prop where
  disjoint : a.baseEnd ≤ b.baseStart ∨ b.baseEnd ≤ a.baseStart
  distinct : ¬ (a.baseStart = b.baseStart ∧ a.baseLen = b.baseLen)

variable {a b : MergeRegion}

theorem Clear.symm (h : Clear a b) : Clear b a :=
  ⟨h.disjoint.symm, fun hkey => h.distinct ⟨hkey.1.symm, hkey.2.symm⟩⟩

theorem clear_of_lt (h : a.baseEnd < b.baseStart) : Clear a b := by
  unfold MergeRegion.baseEnd at h
  exact ⟨.inl h.le, fun hkey => by omega⟩

/-- Regions that do not overlap are clear of each other. -/
theorem clear_of_not_overlaps (h : regionOverlaps a b = false) : Clear a b := by
  rw [regionOverlaps] at h
  unfold MergeRegion.baseEnd at h
  split at h
  · rename_i ha hb
    have ha := of_decide_eq_true ha
    have hb := of_decide_eq_true hb
    have h := of_decide_eq_false h
    exact ⟨by unfold MergeRegion.baseEnd; omega, by omega⟩
  · rename_i ha hb
    have ha := of_decide_eq_true ha
    have hb := of_decide_eq_false hb
    rw [Bool.and_eq_false_iff, decide_eq_false_iff_not, decide_eq_false_iff_not] at h
    exact ⟨by unfold MergeRegion.baseEnd; omega, by omega⟩
  · rename_i ha hb
    have ha := of_decide_eq_false ha
    have hb := of_decide_eq_true hb
    rw [Bool.and_eq_false_iff, decide_eq_false_iff_not, decide_eq_false_iff_not] at h
    exact ⟨by unfold MergeRegion.baseEnd; omega, by omega⟩
  · rename_i ha hb
    have ha := of_decide_eq_false ha
    have hb := of_decide_eq_false hb
    rw [Bool.and_eq_false_iff, decide_eq_false_iff_not, decide_eq_false_iff_not] at h
    exact ⟨by unfold MergeRegion.baseEnd; omega, by omega⟩

theorem regionOverlaps_comm (a b : MergeRegion) : regionOverlaps a b = regionOverlaps b a := by
  rw [regionOverlaps, regionOverlaps]
  cases ha : decide (a.baseLen = 0) <;> cases hb : decide (b.baseLen = 0)
  · exact Bool.and_comm _ _
  · rfl
  · rfl
  · rw [Bool.eq_iff_iff, decide_eq_true_eq, decide_eq_true_eq]
    exact eq_comm

theorem regionsOverlap_eq_false {ours theirs : List MergeRegion} :
    regionsOverlap ours theirs = false ↔
      ∀ a ∈ ours, ∀ b ∈ theirs, regionOverlaps a b = false := by
  simp [regionsOverlap]

theorem regionsOverlap_comm (ours theirs : List MergeRegion) :
    regionsOverlap ours theirs = regionsOverlap theirs ours := by
  rw [Bool.eq_iff_iff, ← not_iff_not, Bool.not_eq_true, Bool.not_eq_true,
    regionsOverlap_eq_false, regionsOverlap_eq_false]
  constructor
  · intro h b hb a ha
    rw [regionOverlaps_comm]
    exact h a ha b hb
  · intro h a ha b hb
    rw [regionOverlaps_comm]
    exact h b hb a ha

/-- Regions in the order of the base, none reaching into the next. -/
def Ascending (rs : List MergeRegion) : Prop :=
  rs.Pairwise fun r r' => r.baseEnd ≤ r'.baseStart

theorem regionLe_trans (a b c : MergeRegion) (hab : regionLe a b = true)
    (hbc : regionLe b c = true) : regionLe a c = true := by
  simp only [regionLe, Bool.or_eq_true, Bool.and_eq_true, decide_eq_true_eq] at *
  omega

theorem regionLe_total (a b : MergeRegion) : (regionLe a b || regionLe b a) = true := by
  simp only [regionLe, Bool.or_eq_true, Bool.and_eq_true, decide_eq_true_eq]
  omega

/-- Clear regions ascend once they are sorted. -/
theorem ascending_mergeSort (h : rs.Pairwise Clear) : Ascending (rs.mergeSort regionLe) := by
  have hsorted := List.pairwise_mergeSort regionLe_trans regionLe_total rs
  have hclear := ((List.mergeSort_perm rs regionLe).pairwise_iff Clear.symm).2 h
  refine (hsorted.and hclear).imp fun {a b} hab => ?_
  obtain ⟨hle, hdisjoint, -⟩ := hab
  simp only [regionLe, Bool.or_eq_true, Bool.and_eq_true, decide_eq_true_eq] at hle
  unfold MergeRegion.baseEnd at hdisjoint ⊢
  omega

variable {rs' : List MergeRegion}

/-- Clear regions ascend in one order only. -/
theorem eq_of_ascending (hclear : rs.Pairwise Clear)
    (hrs : Ascending rs) (hrs' : Ascending rs') (hperm : rs.Perm rs') : rs = rs' := by
  refine hperm.eq_of_pairwise (fun a b ha hb hab hba => ?_) hrs hrs'
  by_contra hne
  have : Std.Symm Clear := ⟨fun _ _ => Clear.symm⟩
  have hc := hclear.forall ha (hperm.symm.subset hb) hne
  unfold MergeRegion.baseEnd at hab hba
  exact hc.distinct (by omega)

/-- The regions of two sides that do not overlap. -/
structure Sides (base ours theirs : List DiffLine) (rs rs' : List MergeRegion) : Prop where
  ours : Makes base 0 ours rs
  theirs : Makes base 0 theirs rs'
  clear : ∀ a ∈ rs, ∀ b ∈ rs', regionOverlaps a b = false

theorem Sides.symm {base ours theirs : List DiffLine}
    (h : Sides base ours theirs rs rs') : Sides base theirs ours rs' rs where
  ours := h.theirs
  theirs := h.ours
  clear b hb a ha := by
    rw [regionOverlaps_comm]
    exact h.clear a ha b hb

theorem Sides.pairwise_clear {base ours theirs : List DiffLine}
    (h : Sides base ours theirs rs rs') : (rs ++ rs').Pairwise Clear :=
  List.pairwise_append.2 ⟨h.ours.apart.imp clear_of_lt, h.theirs.apart.imp clear_of_lt,
    fun a ha b hb => clear_of_not_overlaps (h.clear a ha b hb)⟩

theorem applyMergeRegions_comm {base ours theirs : List DiffLine}
    (h : Sides base ours theirs rs rs') :
    applyMergeRegions base rs rs' = applyMergeRegions base rs' rs := by
  have hperm : ((rs ++ rs').mergeSort regionLe).Perm ((rs' ++ rs).mergeSort regionLe) :=
    (List.mergeSort_perm _ _).trans (List.perm_append_comm.trans (List.mergeSort_perm _ _).symm)
  have hclear := ((List.mergeSort_perm (rs ++ rs') regionLe).pairwise_iff Clear.symm).2
    h.pairwise_clear
  rw [applyMergeRegions, applyMergeRegions, eq_of_ascending hclear
    (ascending_mergeSort h.pairwise_clear) (ascending_mergeSort h.symm.pairwise_clear) hperm]

/-- Regions of one side are in order already. -/
theorem applyMergeRegions_nil {base side : List DiffLine}
    (h : Makes base 0 side rs) : applyMergeRegions base [] rs = rawLines side := by
  have hsorted : rs.mergeSort regionLe = rs := by
    refine List.mergeSort_of_pairwise (h.apart.imp fun {a b} hab => ?_)
    simp only [regionLe, Bool.or_eq_true, decide_eq_true_eq]
    unfold MergeRegion.baseEnd at hab
    omega
  rw [applyMergeRegions, List.nil_append, hsorted, applyFrom_eq, h.splice_eq]

/-! ### Symmetry and unchanged sides -/

theorem changedRegions_self (lines : List DiffLine) : changedRegions lines lines = [] := by
  have h : ∀ (is : List ℕ) (i : ℕ),
      regionsFrom lines (is.map fun i => DiffOp.equal i i) none i = [] := by
    intro is
    induction is with
    | nil => exact fun i => rfl
    | cons a is ih => exact fun i => ih (a + 1)
  rw [changedRegions, editOps_self]
  exact h _ _

/-- The order of the two sides does not matter. -/
theorem mergeBlob3way_comm (base ours theirs : Bytes) :
    mergeBlob3way base ours theirs = mergeBlob3way base theirs ours := by
  by_cases heq : ours = theirs
  · rw [heq]
  · have hbinary : (isBinary base || isBinary ours || isBinary theirs) =
        (isBinary base || isBinary theirs || isBinary ours) := Bool.or_right_comm _ _ _
    rw [mergeBlob3way, mergeBlob3way, if_neg heq, if_neg (Ne.symm heq), hbinary]
    dsimp only
    rw [regionsOverlap_comm]
    cases hoverlap : regionsOverlap (changedRegions (splitLines base) (splitLines theirs))
        (changedRegions (splitLines base) (splitLines ours)) with
    | true => rfl
    | false =>
      rw [applyMergeRegions_comm ⟨changedRegions_spec _ _, changedRegions_spec _ _, ?_⟩]
      rw [regionsOverlap_comm] at hoverlap
      exact regionsOverlap_eq_false.1 hoverlap

/-- Against an unchanged side the other side is the result. -/
theorem mergeBlob3way_base {base theirs : Bytes} (hbase : isBinary base = false)
    (htheirs : isBinary theirs = false) : mergeBlob3way base base theirs = some theirs := by
  by_cases heq : base = theirs
  · rw [mergeBlob3way, if_pos heq, heq]
  · rw [mergeBlob3way, if_neg heq, if_neg (by simp [hbase, htheirs])]
    dsimp only
    rw [changedRegions_self, if_neg (by simp [regionsOverlap]),
      applyMergeRegions_nil (changedRegions_spec _ _), rawLines_splitLines]

/-- The line merge is symmetric in its sides, and a side that did not change leaves the other as
it is. -/
theorem mergeBlob3way_symmetric {base ours theirs : Bytes} (hbase : isBinary base = false)
    (hours : isBinary ours = false) (htheirs : isBinary theirs = false) :
    mergeBlob3way base ours theirs = mergeBlob3way base theirs ours ∧
      mergeBlob3way base base theirs = some theirs ∧
      mergeBlob3way base ours base = some ours := by
  refine ⟨mergeBlob3way_comm base ours theirs, mergeBlob3way_base hbase htheirs, ?_⟩
  rw [mergeBlob3way_comm]
  exact mergeBlob3way_base hbase hours

/-- The base `a`, where one side appends `b` without a newline and the other puts `c` first. -/
theorem mergeBlob3way_symmetric_unterminated : let base := [97, 10]
    let ours := [97, 10, 98]
    let theirs := [99, 10, 97, 10]
    mergeBlob3way base ours theirs = mergeBlob3way base theirs ours ∧
      mergeBlob3way base base theirs = some theirs ∧
      mergeBlob3way base ours base = some ours :=
  mergeBlob3way_symmetric (by decide) (by decide) (by decide)

/-! ### The spliced lines as lines of a text -/

section Spliced

variable {base : List DiffLine}

/-- A new line of a region is spliced in. -/
theorem mem_spliceFrom {cursor : ℕ} {rs : List MergeRegion} {r : MergeRegion} (hr : r ∈ rs)
    {l : DiffLine} (hl : l ∈ r.new) : l ∈ spliceFrom base cursor rs := by
  induction rs generalizing cursor with
  | nil => cases hr
  | cons r' rs ih =>
    rw [spliceFrom, List.mem_append, List.mem_append]
    rcases List.mem_cons.1 hr with rfl | hr
    · exact .inl (.inr hl)
    · exact .inr (ih hr)

/-- Every spliced line is a base line or a new line of a region. -/
theorem of_mem_spliceFrom {cursor : ℕ} {rs : List MergeRegion} {l : DiffLine}
    (hl : l ∈ spliceFrom base cursor rs) : l ∈ base ∨ ∃ r ∈ rs, l ∈ r.new := by
  induction rs generalizing cursor with
  | nil => exact .inl (List.drop_subset _ _ hl)
  | cons r rs ih =>
    rw [spliceFrom, List.mem_append, List.mem_append] at hl
    rcases hl with (hl | hl) | hl
    · exact .inl (List.take_subset _ _ (List.drop_subset _ _ hl))
    · exact .inr ⟨r, List.mem_cons_self, hl⟩
    · rcases ih hl with hl | ⟨r', hr', hl⟩
      · exact .inl hl
      · exact .inr ⟨r', List.mem_cons_of_mem r hr', hl⟩

/-- What is spliced up to a region, that region, and what is spliced behind it. -/
theorem spliceFrom_append (cursor : ℕ) (rs rs' : List MergeRegion) (r : MergeRegion) :
    ∃ before, spliceFrom base cursor (rs ++ r :: rs') =
        before ++ r.new ++ spliceFrom base r.baseEnd rs' ∧
      ((∀ r' ∈ rs, r'.baseEnd < r.baseStart) → cursor < r.baseStart →
        ∀ l, base[r.baseStart - 1]? = some l → l ∈ before) := by
  induction rs generalizing cursor with
  | nil =>
    refine ⟨(base.take r.baseStart).drop cursor, rfl, fun _ hlt l hl => ?_⟩
    obtain ⟨hlen, rfl⟩ := List.getElem?_eq_some_iff.1 hl
    rw [List.mem_iff_getElem?]
    refine ⟨r.baseStart - 1 - cursor, ?_⟩
    rw [List.getElem?_drop, List.getElem?_take, if_pos (by omega),
      show cursor + (r.baseStart - 1 - cursor) = r.baseStart - 1 by omega,
      List.getElem?_eq_getElem hlen]
  | cons r' rs ih =>
    obtain ⟨before, heq, hmem⟩ := ih r'.baseEnd
    refine ⟨(base.take r'.baseStart).drop cursor ++ r'.new ++ before, ?_,
      fun hends _ l hl => ?_⟩
    · rw [List.cons_append, spliceFrom, heq]
      simp only [List.append_assoc]
    · exact List.mem_append_right _ (hmem (fun r'' hr'' =>
        hends r'' (List.mem_cons_of_mem r' hr'')) (hends r' List.mem_cons_self) l hl)

variable {side : List DiffLine} {rs : List MergeRegion} {r : MergeRegion}

/-- The new lines of a region are terminated, and closed when the base goes on behind it. -/
theorem Makes.new_terminated (h : Makes base 0 side rs) (hside : Terminated side) (hr : r ∈ rs) :
    Terminated r.new ∧ (r.baseEnd < base.length → Closed r.new) := by
  obtain ⟨rs₁, rs₂, rfl⟩ := List.append_of_mem hr
  obtain ⟨before, heq, -⟩ := @spliceFrom_append base 0 rs₁ rs₂ r
  rw [← h.splice_eq, heq] at hside
  by_cases hbehind : spliceFrom base r.baseEnd rs₂ = []
  · rw [hbehind, List.append_nil] at hside
    constructor
    · by_cases hnil : r.new = []
      · rw [hnil]
        exact fun _ h => nomatch h
      · exact ((terminated_append hnil).1 hside).2
    · intro hlt
      -- the base line behind the region is spliced next
      exfalso
      obtain ⟨l, hl⟩ : ∃ l, base[r.baseEnd]? = some l := ⟨_, List.getElem?_eq_getElem hlt⟩
      have happart := (List.pairwise_append.1 h.apart).2.1
      rw [List.pairwise_cons] at happart
      rw [spliceFrom_keep hl fun r' hr' => happart.1 r' hr'] at hbehind
      cases hbehind
  · have hclosed := (closed_append.1 ((terminated_append hbehind).1 hside).1).2
    exact ⟨hclosed.terminated, fun _ => hclosed⟩

/-- A side that inserts behind the base keeps the base's last line, which has its newline. -/
theorem Makes.closed_base (h : Makes base 0 side rs) (hside : Terminated side)
    (hbase : Terminated base) (hr : r ∈ rs) (hstart : r.baseStart = base.length) : Closed base := by
  rcases List.eq_nil_or_concat base with rfl | ⟨init, last, rfl⟩
  · exact fun _ h => nomatch h
  rw [List.concat_eq_append] at *
  have hlast : last.hasNewline = true := by
    obtain ⟨rs₁, rs₂, rfl⟩ := List.append_of_mem hr
    have happart := List.pairwise_append.1 h.apart
    obtain ⟨before, heq, hmem⟩ := @spliceFrom_append (init ++ [last]) 0 rs₁ rs₂ r
    have hlen : (init ++ [last]).length = init.length + 1 := by simp
    have hin : last ∈ before := by
      refine hmem (fun r' hr' => happart.2.2 r' hr' r List.mem_cons_self) (by omega) last ?_
      rw [hstart, hlen, Nat.add_sub_cancel, List.getElem?_concat_length]
    have hwithin := h.within r hr
    unfold MergeRegion.baseEnd at hwithin
    have hnew : r.new ++ spliceFrom (init ++ [last]) r.baseEnd rs₂ ≠ [] :=
      List.append_ne_nil_of_left_ne_nil (h.changes r hr (by omega)) _
    rw [← h.splice_eq, heq, List.append_assoc, terminated_append hnew] at hside
    exact hside.1 last hin
  refine closed_append.2 ⟨?_, fun l hl => ?_⟩
  · exact ((terminated_append (List.cons_ne_nil _ _)).1 hbase).1
  · rwa [List.mem_singleton.1 hl]

/-- Over a closed base, a side is closed when its regions are. -/
theorem Makes.closed_iff (h : Makes base 0 side rs) (hbase : Closed base) :
    Closed side ↔ ∀ r ∈ rs, Closed r.new := by
  rw [← h.splice_eq]
  constructor
  · exact fun hclosed r hr l hl => hclosed l (mem_spliceFrom hr hl)
  · intro hclosed l hl
    rcases of_mem_spliceFrom hl with hl | ⟨r, hr, hl⟩
    · exact hbase l hl
    · exact hclosed r hr l hl

/-- Splicing regions that do not append keeps lines terminated. -/
theorem terminated_spliceFrom (hbase : Terminated base) {cursor : ℕ} (hasc : Ascending rs)
    (hwithin : ∀ r ∈ rs, r.baseEnd ≤ base.length) (hstart : ∀ r ∈ rs, r.baseStart < base.length)
    (hnew : ∀ r ∈ rs, Terminated r.new ∧ (r.baseEnd < base.length → Closed r.new)) :
    Terminated (spliceFrom base cursor rs) := by
  induction rs generalizing cursor with
  | nil => exact hbase.drop cursor
  | cons r rs ih =>
    obtain ⟨hr, hrest⟩ := List.pairwise_cons.1 hasc
    have hkept : Closed ((base.take r.baseStart).drop cursor) := fun l hl =>
      hbase.closed_take (hstart r List.mem_cons_self) l (List.drop_subset _ _ hl)
    obtain ⟨hterm, hclosed⟩ := hnew r List.mem_cons_self
    have hbehind := @ih r.baseEnd hrest (fun r' hr' => hwithin r' (List.mem_cons_of_mem r hr'))
      (fun r' hr' => hstart r' (List.mem_cons_of_mem r hr'))
      fun r' hr' => hnew r' (List.mem_cons_of_mem r hr')
    rw [spliceFrom]
    by_cases hnil : spliceFrom base r.baseEnd rs = []
    · rw [hnil, List.append_nil]
      by_cases hnew : r.new = []
      · rw [hnew, List.append_nil]
        exact hkept.terminated
      · exact (terminated_append hnew).2 ⟨hkept, hterm⟩
    · rw [terminated_append hnil]
      refine ⟨closed_append.2 ⟨hkept, hclosed ?_⟩, hbehind⟩
      -- a region that reaches the end of the base has nothing behind it
      by_contra hend
      have hle := hwithin r List.mem_cons_self
      cases rs with
      | nil =>
        rw [spliceFrom, List.drop_eq_nil_iff] at hnil
        omega
      | cons r' rs =>
        have := hr r' List.mem_cons_self
        have := hstart r' (List.mem_cons_of_mem r List.mem_cons_self)
        omega

/-- A region behind the base is spliced last. -/
theorem spliceFrom_concat (cursor : ℕ) (rs : List MergeRegion) (hstart : base.length ≤ r.baseStart) :
    spliceFrom base cursor (rs ++ [r]) = spliceFrom base cursor rs ++ r.new := by
  induction rs generalizing cursor with
  | nil =>
    have hend : base.length ≤ r.baseEnd := hstart.trans (Nat.le_add_right _ _)
    rw [List.nil_append, spliceFrom, spliceFrom, spliceFrom, List.take_of_length_le hstart,
      List.drop_eq_nil_iff.2 hend, List.append_nil]
  | cons r' rs ih =>
    rw [List.cons_append, spliceFrom, spliceFrom, ih]
    simp only [List.append_assoc]

variable {ours theirs : List DiffLine} {rs' : List MergeRegion}

theorem Sides.within (h : Sides base ours theirs rs rs') (hr : r ∈ rs ++ rs') :
    r.baseEnd ≤ base.length := by
  rcases List.mem_append.1 hr with hr | hr
  · exact h.ours.within r hr
  · exact h.theirs.within r hr

theorem Sides.changes (h : Sides base ours theirs rs rs') (hr : r ∈ rs ++ rs') :
    r.baseLen = 0 → r.new ≠ [] := by
  rcases List.mem_append.1 hr with hr | hr
  · exact h.ours.changes r hr
  · exact h.theirs.changes r hr

/-- When neither side appends, the spliced lines are terminated. -/
theorem Sides.terminated_of_not_append (h : Sides base ours theirs rs rs')
    (hbase : Terminated base) (hours : Terminated ours) (htheirs : Terminated theirs)
    {all : List MergeRegion} (hperm : all.Perm (rs ++ rs')) (hasc : Ascending all)
    (hnone : ∀ r ∈ rs ++ rs', r.baseStart ≠ base.length) : Terminated (spliceFrom base 0 all) := by
  refine terminated_spliceFrom hbase hasc (fun r hr => h.within (hperm.subset hr))
    (fun r hr => ?_) fun r hr => ?_
  · have hle := h.within (hperm.subset hr)
    have hne := hnone r (hperm.subset hr)
    unfold MergeRegion.baseEnd at hle
    omega
  · rcases List.mem_append.1 (hperm.subset hr) with hr | hr
    · exact h.ours.new_terminated hours hr
    · exact h.theirs.new_terminated htheirs hr

/-- When one side appends, the spliced lines are terminated exactly when the other side is
closed. -/
theorem Sides.terminated_of_append (h : Sides base ours theirs rs rs') (hbase : Terminated base)
    (htheirs : Terminated theirs) {all : List MergeRegion} (hperm : all.Perm (rs ++ rs'))
    (hasc : Ascending all) {e : MergeRegion} (he : e ∈ rs') (hstart : e.baseStart = base.length) :
    Terminated (spliceFrom base 0 all) ↔ Closed ours := by
  have hclosed := h.theirs.closed_base htheirs hbase he hstart
  have hmem : e ∈ rs ++ rs' := List.mem_append_right rs he
  have hwithin := h.within hmem
  unfold MergeRegion.baseEnd at hwithin
  -- nothing comes behind the region that appends
  obtain ⟨init, tail, rfl⟩ := List.append_of_mem (hperm.symm.subset hmem)
  have hnodup := (hperm.pairwise_iff Clear.symm).2 h.pairwise_clear
  have htail : tail = [] := by
    rcases List.eq_nil_or_concat tail with rfl | ⟨tail', r, rfl⟩
    · rfl
    · rw [List.concat_eq_append] at *
      have hr : r ∈ tail' ++ [r] := by simp
      have hclear := (List.pairwise_cons.1 (List.pairwise_append.1 hnodup).2.1).1 r hr
      have hbehind := (List.pairwise_cons.1 (List.pairwise_append.1 hasc).2.1).1 r hr
      have hle := h.within (hperm.subset (List.mem_append_right init (List.mem_cons_of_mem e hr)))
      unfold MergeRegion.baseEnd at hbehind hle
      exact absurd ⟨by omega, by omega⟩ hclear.distinct
  subst htail
  rw [spliceFrom_concat 0 init hstart.ge,
    terminated_append (h.changes hmem (by omega))]
  have hpieces : Closed (spliceFrom base 0 init) ↔ ∀ r ∈ init, Closed r.new := by
    constructor
    · exact fun hc r hr l hl => hc l (mem_spliceFrom hr hl)
    · intro hc l hl
      rcases of_mem_spliceFrom hl with hl | ⟨r, hr, hl⟩
      · exact hclosed l hl
      · exact hc r hr l hl
  rw [and_iff_left (h.theirs.new_terminated htheirs he).1, hpieces, h.ours.closed_iff hclosed]
  -- the regions before it are those of the other side, and closed ones of its own
  have hinit : ∀ r, r ∈ init → r ∈ rs ++ rs' := fun r hr =>
    hperm.subset (List.mem_append_left _ hr)
  constructor
  · intro hc r hr
    have hin := hperm.symm.subset (List.mem_append_left rs' hr)
    rcases List.mem_append.1 hin with hin | hin
    · exact hc r hin
    · obtain rfl := List.mem_singleton.1 hin
      have hself := h.clear r hr r he
      have hover : regionOverlaps r r = true := by
        have hzero : r.baseLen = 0 := by omega
        simp [regionOverlaps, hzero]
      rw [hover] at hself
      cases hself
  · intro hc r hr
    rcases List.mem_append.1 (hinit r hr) with hr' | hr'
    · exact hc r hr'
    · refine (h.theirs.new_terminated htheirs hr').2 ?_
      have hne : r ≠ e := by
        rintro rfl
        have := (List.pairwise_append.1 hnodup).2.2 r hr r List.mem_cons_self
        exact this.distinct ⟨rfl, rfl⟩
      have hsymm : Std.Symm fun a b : MergeRegion =>
          a.baseEnd < b.baseStart ∨ b.baseEnd < a.baseStart := ⟨fun _ _ => Or.symm⟩
      have hor : rs'.Pairwise fun a b : MergeRegion =>
          a.baseEnd < b.baseStart ∨ b.baseEnd < a.baseStart := h.theirs.apart.imp Or.inl
      have happart := hor.forall hr' he hne
      have hle := h.within (hinit r hr)
      unfold MergeRegion.baseEnd at happart hle ⊢
      omega

end Spliced

/-! ### What the merge writes -/

/-- The lines with those from `r.baseStart` to `r.baseEnd` replaced by the region's. -/
def replaceRegion (r : MergeRegion) (lines : List DiffLine) : List DiffLine :=
  lines.take r.baseStart ++ r.new ++ lines.drop r.baseEnd

/-- `lines` are the base with every region replaced by its new lines, the last region first, so
that each is replaced where it stands in the base. -/
def Replaced (base : List DiffLine) (regions : List MergeRegion) (lines : List DiffLine) : Prop :=
  ∃ rs, rs.Perm regions ∧ Ascending rs ∧ lines = rs.foldr replaceRegion base

/-- The regions that two sides change, those of equal sides counted once. -/
def mergedRegions (base ours theirs : Bytes) : List MergeRegion :=
  if ours = theirs then changedRegions (splitLines base) (splitLines ours)
  else
    changedRegions (splitLines base) (splitLines ours) ++
      changedRegions (splitLines base) (splitLines theirs)

/-- Replacing regions one by one is splicing them. -/
theorem foldr_replaceRegion {base : List DiffLine} {cursor : ℕ}
    (hasc : Ascending rs) (hstarts : ∀ r ∈ rs, cursor ≤ r.baseStart)
    (hwithin : ∀ r ∈ rs, r.baseEnd ≤ base.length) :
    rs.foldr replaceRegion base = base.take cursor ++ spliceFrom base cursor rs := by
  induction rs generalizing cursor with
  | nil => exact (List.take_append_drop cursor base).symm
  | cons r rs ih =>
    obtain ⟨hr, hrest⟩ := List.pairwise_cons.1 hasc
    have hstart := hstarts r List.mem_cons_self
    have hend := hwithin r List.mem_cons_self
    have hle : r.baseStart ≤ r.baseEnd := Nat.le_add_right _ _
    have hlen : (base.take r.baseEnd).length = r.baseEnd := by
      rw [List.length_take]
      omega
    rw [List.foldr_cons, ih hrest hr fun r' hr' => hwithin r' (List.mem_cons_of_mem r hr'),
      replaceRegion, List.drop_left' hlen, List.take_append_of_le_length (by omega),
      List.take_take, min_eq_left hle, spliceFrom, ← List.append_assoc, ← List.append_assoc]
    have hcut : base.take cursor ++ (base.take r.baseStart).drop cursor =
        base.take r.baseStart := by
      rw [← min_eq_left hstart, ← List.take_take, min_eq_left hstart, List.take_append_drop]
    rw [hcut]

/-- A side appends when one of its changed regions stands behind the last line of the base. -/
def Appends (base side : Bytes) : Prop :=
  ∃ r ∈ changedRegions (splitLines base) (splitLines side),
    r.baseStart = (splitLines base).length

/-- A side that ends without a newline meets lines that the other side appends. -/
def Glues (base ours theirs : Bytes) : Prop :=
  ours ≠ theirs ∧ ((Unterminated ours ∧ Appends base theirs) ∨
    (Unterminated theirs ∧ Appends base ours))

theorem terminated_splitLines (text : Bytes) : Terminated (splitLines text) :=
  (split_iff.2 rfl).terminated

theorem unterminated_iff {text : Bytes} : Unterminated text ↔ ¬ Closed (splitLines text) :=
  (split_iff.2 rfl).unterminated_iff

/-- The spliced lines of two sides that do not overlap are terminated exactly when neither side
glues to the other. -/
theorem Sides.terminated_iff {base ours theirs : Bytes}
    (h : Sides (splitLines base) (splitLines ours) (splitLines theirs)
      (changedRegions (splitLines base) (splitLines ours))
      (changedRegions (splitLines base) (splitLines theirs)))
    (hne : ours ≠ theirs) {all : List MergeRegion}
    (hperm : all.Perm (changedRegions (splitLines base) (splitLines ours) ++
      changedRegions (splitLines base) (splitLines theirs))) (hasc : Ascending all) :
    Terminated (spliceFrom (splitLines base) 0 all) ↔ ¬ Glues base ours theirs := by
  have hbase := terminated_splitLines base
  have hours := terminated_splitLines ours
  have htheirs := terminated_splitLines theirs
  -- both sides appending would overlap
  have hboth : ¬ (Appends base ours ∧ Appends base theirs) := by
    rintro ⟨⟨a, ha, hastart⟩, b, hb, hbstart⟩
    have hover := h.clear a ha b hb
    have hazero : a.baseLen = 0 := by
      have := h.ours.within a ha
      unfold MergeRegion.baseEnd at this
      omega
    have hbzero : b.baseLen = 0 := by
      have := h.theirs.within b hb
      unfold MergeRegion.baseEnd at this
      omega
    simp [regionOverlaps, hazero, hbzero, hastart, hbstart] at hover
  rw [Glues, and_iff_right hne, unterminated_iff, unterminated_iff]
  by_cases happ : Appends base theirs
  · obtain ⟨e, he, hstart⟩ := id happ
    have hother : ¬ Appends base ours := fun hours => hboth ⟨hours, happ⟩
    rw [h.terminated_of_append hbase htheirs hperm hasc he hstart]
    simp [happ, hother]
  · by_cases happ' : Appends base ours
    · obtain ⟨e, he, hstart⟩ := id happ'
      rw [h.symm.terminated_of_append hbase hours (hperm.trans List.perm_append_comm) hasc he
        hstart]
      simp [happ, happ']
    · refine iff_of_true (h.terminated_of_not_append hbase hours htheirs hperm hasc
        fun r hr hstart => ?_) (by simp [happ, happ'])
      rcases List.mem_append.1 hr with hr | hr
      · exact happ' ⟨r, hr, hstart⟩
      · exact happ ⟨r, hr, hstart⟩

/-- The merged text has the lines of the base with each changed region replaced by its new lines,
all of them whole lines of the three texts. -/
def MergesLines (base ours theirs merged : Bytes) : Prop :=
  ∃ lines, Replaced (splitLines base) (mergedRegions base ours theirs) lines ∧
    splitLines merged = lines ∧
    ∀ l ∈ splitLines merged, l ∈ splitLines base ∨ l ∈ splitLines ours ∨ l ∈ splitLines theirs

theorem makes_changedRegions (base side : Bytes) : Makes (splitLines base) 0 (splitLines side)
      (changedRegions (splitLines base) (splitLines side)) :=
  changedRegions_spec _ _

theorem Makes.ascending {base side : List DiffLine} {cursor : ℕ}
    (h : Makes base cursor side rs) : Ascending rs :=
  h.apart.imp Nat.le_of_lt

/-- Merging a text with itself replaces its regions. -/
theorem mergesLines_self (base side : Bytes) : MergesLines base side side side := by
  have h := makes_changedRegions base side
  refine ⟨splitLines side, ⟨_, ?_, h.ascending, ?_⟩, rfl, fun l hl => .inr (.inl hl)⟩
  · rw [mergedRegions, if_pos rfl]
  · rw [foldr_replaceRegion h.ascending h.starts h.within, h.splice_eq]
    rfl

/-- Merging two sides that do not overlap gives the right lines exactly when neither glues to
the other. -/
theorem Sides.mergesLines_iff {base ours theirs : Bytes}
    (h : Sides (splitLines base) (splitLines ours) (splitLines theirs)
      (changedRegions (splitLines base) (splitLines ours))
      (changedRegions (splitLines base) (splitLines theirs))) (hne : ours ≠ theirs) :
    MergesLines base ours theirs (applyMergeRegions (splitLines base)
      (changedRegions (splitLines base) (splitLines ours))
      (changedRegions (splitLines base) (splitLines theirs))) ↔ ¬ Glues base ours theirs := by
  have hasc := ascending_mergeSort h.pairwise_clear
  have hperm := List.mergeSort_perm (changedRegions (splitLines base) (splitLines ours) ++
    changedRegions (splitLines base) (splitLines theirs)) regionLe
  rw [applyMergeRegions, applyFrom_eq, ← h.terminated_iff hne hperm hasc]
  have hclear := (hperm.pairwise_iff Clear.symm).2 h.pairwise_clear
  generalize List.mergeSort (changedRegions (splitLines base) (splitLines ours) ++
    changedRegions (splitLines base) (splitLines theirs)) regionLe = all at *
  -- where the lines come from
  have hsource : ∀ l ∈ spliceFrom (splitLines base) 0 all,
      l ∈ splitLines base ∨ l ∈ splitLines ours ∨ l ∈ splitLines theirs := by
    intro l hl
    rcases of_mem_spliceFrom hl with hl | ⟨r, hr, hl⟩
    · exact .inl hl
    · rcases List.mem_append.1 (hperm.subset hr) with hr | hr
      · have := @mem_spliceFrom (splitLines base) 0 _ r hr l hl
        rw [h.ours.splice_eq] at this
        exact .inr (.inl this)
      · have := @mem_spliceFrom (splitLines base) 0 _ r hr l hl
        rw [h.theirs.splice_eq] at this
        exact .inr (.inr this)
  have hline : ∀ l ∈ spliceFrom (splitLines base) 0 all, IsLine l := by
    intro l hl
    rcases hsource l hl with hl | hl | hl
    all_goals exact (split_iff.2 rfl).isLine l hl
  have hwithin : ∀ r ∈ all, r.baseEnd ≤ (splitLines base).length := fun r hr =>
    h.within (hperm.subset hr)
  have hfoldr : all.foldr replaceRegion (splitLines base) =
      spliceFrom (splitLines base) 0 all := by
    rw [foldr_replaceRegion hasc (fun r _ => Nat.zero_le _) hwithin]
    rfl
  rw [← splitLines_rawLines_iff hline]
  constructor
  · rintro ⟨lines, ⟨rs, hrs, hrsasc, rfl⟩, hsplit, -⟩
    rw [mergedRegions, if_neg hne] at hrs
    rwa [← eq_of_ascending hclear hasc hrsasc (hperm.trans hrs.symm), hfoldr] at hsplit
  · intro hsplit
    refine ⟨_, ⟨all, ?_, hasc, hfoldr.symm⟩, hsplit, fun l hl => hsource l (hsplit ▸ hl)⟩
    rwa [mergedRegions, if_neg hne]

/-- A merge has the right lines exactly when no side that ends without a newline meets lines
that the other side appends to the base. -/
theorem mergeBlob3way_lines_iff {base ours theirs merged : Bytes}
    (h : mergeBlob3way base ours theirs = some merged) :
    MergesLines base ours theirs merged ↔ ¬ Glues base ours theirs := by
  rw [mergeBlob3way] at h
  split at h
  case isTrue heq =>
    obtain rfl := Option.some.inj h
    subst heq
    exact iff_of_true (mergesLines_self base ours) fun hglues => hglues.1 rfl
  case isFalse hne =>
    split at h
    · cases h
    · dsimp only at h
      split at h
      · cases h
      · rename_i hoverlap
        obtain rfl := Option.some.inj h
        refine Sides.mergesLines_iff ⟨makes_changedRegions _ _, makes_changedRegions _ _, ?_⟩ hne
        exact regionsOverlap_eq_false.1 (by simpa using hoverlap)

/-- A merge of two sides whose regions ascend as they stand. -/
theorem mergeBlob3way_of_sorted {base ours theirs : Bytes}
    (hne : ours ≠ theirs) (hbinary : (isBinary base || isBinary ours || isBinary theirs) = false)
    (hours : changedRegions (splitLines base) (splitLines ours) = rs)
    (htheirs : changedRegions (splitLines base) (splitLines theirs) = rs')
    (hclear : regionsOverlap rs rs' = false)
    (hsorted : (rs ++ rs').Pairwise fun a b => regionLe a b = true) :
    mergeBlob3way base ours theirs = some (applyFrom (splitLines base) 0 (rs ++ rs')) := by
  rw [mergeBlob3way, if_neg hne, if_neg (by rw [hbinary]; exact Bool.false_ne_true)]
  dsimp only
  rw [hours, htheirs, if_neg (by rw [hclear]; exact Bool.false_ne_true), applyMergeRegions,
    List.mergeSort_of_pairwise hsorted]

/-- The base `x y`, where one side replaces `x` by `z` and the other appends `w`. -/
theorem mergeBlob3way_lines_iff_appended :
    mergeBlob3way [120, 10, 121, 10] [122, 10, 121, 10] [120, 10, 121, 10, 119, 10] =
        some [122, 10, 121, 10, 119, 10] ∧
      (MergesLines [120, 10, 121, 10] [122, 10, 121, 10] [120, 10, 121, 10, 119, 10]
          [122, 10, 121, 10, 119, 10] ↔
        ¬ Glues [120, 10, 121, 10] [122, 10, 121, 10] [120, 10, 121, 10, 119, 10]) := by
  have hmerge : mergeBlob3way [120, 10, 121, 10] [122, 10, 121, 10] [120, 10, 121, 10, 119, 10] =
      some [122, 10, 121, 10, 119, 10] :=
    mergeBlob3way_of_sorted (by decide) (by decide) rfl rfl (by decide) (by decide)
  exact ⟨hmerge, mergeBlob3way_lines_iff hmerge⟩

/-- The base `x y`, where one side replaces `y` by `z` without a newline and the other appends
`w`: the result has a line `zw`. -/
theorem mergeBlob3way_glues :
    mergeBlob3way [120, 10, 121, 10] [120, 10, 122] [120, 10, 121, 10, 119, 10] =
        some [120, 10, 122, 119, 10] ∧
      ¬ MergesLines [120, 10, 121, 10] [120, 10, 122] [120, 10, 121, 10, 119, 10]
        [120, 10, 122, 119, 10] := by
  refine ⟨mergeBlob3way_of_sorted (by decide) (by decide) rfl rfl (by decide) (by decide), ?_⟩
  rintro ⟨lines, -, -, hwhole⟩
  have hglued : (⟨[122, 119], true⟩ : DiffLine) ∈ splitLines [120, 10, 122, 119, 10] := by decide
  exact absurd (hwhole _ hglued) (by decide)

end Mkit.LineDiff
