import Mkit.LineMerge

/-!
# Hunks

How `ops/diff.rs` groups an edit script into hunks and numbers them.

A hunk is a range of positions of the script. The ranges lie apart and hold every change
(`Grouped`, `grouped_hunkRanges`), so what lies between them is the same on both sides, and
replacing the old lines of each range is a splice (`splice_ranges`). A side of a hunk that has
lines is numbered by the first of them (`numbered_slice`); with context, a side without lines
stands at the front of its file (`takenAt_eq_zero`).
-/

namespace Mkit.LineDiff

/-! ### Grouping -/

def DiffOp.isEqual : DiffOp → Bool
  | .equal _ _ => true
  | _ => false

/-- Positions of the ops that are changes. -/
def changePositions (ops : List DiffOp) : List ℕ :=
  (ops.zipIdx.filter fun p => !p.1.isEqual).map Prod.snd

/-- Add a window to the ranges, or join it to the last one when they touch. -/
def addRange (ranges : List (ℕ × ℕ)) (start stop : ℕ) : List (ℕ × ℕ) :=
  match ranges.getLast? with
  | some last =>
    if start ≤ last.2 then ranges.dropLast ++ [(last.1, max last.2 stop)]
    else ranges ++ [(start, stop)]
  | none => [(start, stop)]

/-- The ranges of positions that changes and their context cover. -/
def hunkRanges (ops : List DiffOp) (context : ℕ) : List (ℕ × ℕ) :=
  (changePositions ops).foldl
    (fun ranges pos => addRange ranges (pos - context) (min (pos + context + 1) ops.length)) []

/-- A group of ops with the numbers of its header. -/
structure Hunk where
  oldStart : ℕ
  oldLen : ℕ
  newStart : ℕ
  newLen : ℕ
  ops : List DiffOp
  deriving DecidableEq

/-- First lines and lengths of the two sides of a hunk, as far as its ops have been read. -/
structure HunkSpan where
  oldStart : Option ℕ
  newStart : Option ℕ
  oldLen : ℕ
  newLen : ℕ

def HunkSpan.read (span : HunkSpan) : DiffOp → HunkSpan
  | .equal oi ni =>
    { oldStart := span.oldStart.or (some oi), newStart := span.newStart.or (some ni)
      oldLen := span.oldLen + 1, newLen := span.newLen + 1 }
  | .delete oi =>
    { span with oldStart := span.oldStart.or (some oi), oldLen := span.oldLen + 1 }
  | .insert ni =>
    { span with newStart := span.newStart.or (some ni), newLen := span.newLen + 1 }

/-- Line numbers start at one; a side without lines starts at zero. -/
def buildHunk (slice : List DiffOp) : Hunk :=
  let span := slice.foldl HunkSpan.read ⟨none, none, 0, 0⟩
  { oldStart := span.oldStart.elim 0 (· + 1)
    oldLen := span.oldLen
    newStart := span.newStart.elim 0 (· + 1)
    newLen := span.newLen
    ops := slice }

/-- The ops of a range. -/
def slice (ops : List DiffOp) (r : ℕ × ℕ) : List DiffOp := (ops.drop r.1).take (r.2 - r.1)

def groupHunks (ops : List DiffOp) (context : ℕ) : List Hunk :=
  if changePositions ops = [] then []
  else (hunkRanges ops context).map fun r => buildHunk (slice ops r)

/-- First line of a side, counted from zero. -/
def hunkFrom (start len : ℕ) : ℕ := if len = 0 then start else start - 1

/-! ### The ranges hold the changes -/

/-- A position lies in a range. -/
abbrev In (r : ℕ × ℕ) (p : ℕ) : Prop := r.1 ≤ p ∧ p < r.2

theorem mem_changePositions {ops : List DiffOp} {p : ℕ} :
    p ∈ changePositions ops ↔ ∃ op, ops[p]? = some op ∧ op.isEqual = false := by
  simp [changePositions, List.mem_zipIdx_iff_getElem?, and_comm]

theorem pairwise_changePositions (ops : List DiffOp) : (changePositions ops).Pairwise (· < ·) := by
  have hall : (ops.zipIdx.map Prod.snd).Pairwise (· < ·) := by
    rw [List.zipIdx_map_snd]
    exact List.pairwise_lt_range'
  exact hall.sublist (List.filter_sublist.map _)

/-- The ranges that the changes `done` lead to. -/
structure Grouped (ops : List DiffOp) (context : ℕ) (done : List ℕ) (ranges : List (ℕ × ℕ)) :
    Prop where
  bounds : ∀ r ∈ ranges, r.1 < r.2 ∧ r.2 ≤ ops.length
  apart : ranges.Pairwise fun r r' => r.2 < r'.1
  holds : ∀ p ∈ done, ∃ r ∈ ranges, In r p
  starts : ∀ r ∈ ranges, ∃ p ∈ done, r.1 ≤ p
  ends : ∀ r ∈ ranges, ∃ p ∈ done, r.2 ≤ p + context + 1
  padded : 1 ≤ context → ∀ r ∈ ranges, r.1 = 0 ∨ r.1 ∉ done
  only : context = 0 → ∀ r ∈ ranges, ∀ p, In r p → p ∈ done

variable {ops : List DiffOp} {context p : ℕ} {done : List ℕ} {ranges : List (ℕ × ℕ)}

variable {r : ℕ × ℕ}

/-- A range does not start at a change behind it. -/
theorem Grouped.padded_append (h : Grouped ops context done ranges) (hlt : ∀ q ∈ done, q < p)
    (hcontext : 1 ≤ context) (hr : r ∈ ranges) : r.1 = 0 ∨ r.1 ∉ done ++ [p] := by
  refine (h.padded hcontext r hr).imp_right fun hnot hmem => ?_
  obtain ⟨q, hq, hle⟩ := h.starts r hr
  have := hlt q hq
  rcases List.mem_append.1 hmem with hmem | hmem
  · exact hnot hmem
  · have := List.mem_singleton.1 hmem
    omega

/-- A change behind all ranges starts a range of its own. -/
theorem Grouped.push (h : Grouped ops context done ranges) (hp : p < ops.length)
    (hlt : ∀ q ∈ done, q < p) (hgap : ∀ r ∈ ranges, r.2 < p - context) :
    Grouped ops context (done ++ [p])
      (ranges ++ [(p - context, min (p + context + 1) ops.length)]) := by
  have hpmem : p ∈ done ++ [p] := List.mem_append_right _ (List.mem_singleton_self p)
  refine ⟨?_, ?_, ?_, ?_, ?_, ?_, ?_⟩
  · refine List.forall_mem_append.2 ⟨h.bounds, List.forall_mem_singleton.2 ?_⟩
    dsimp only
    omega
  · refine List.pairwise_append.2 ⟨h.apart, List.pairwise_singleton _ _, fun r hr => ?_⟩
    exact List.forall_mem_singleton.2 (hgap r hr)
  · intro q hq
    rcases List.mem_append.1 hq with hq | hq
    · obtain ⟨r, hr, hin⟩ := h.holds q hq
      exact ⟨r, List.mem_append_left _ hr, hin⟩
    · refine ⟨_, List.mem_append_right _ (List.mem_singleton_self _), ?_⟩
      rw [List.mem_singleton.1 hq]
      dsimp only [In]
      omega
  · refine List.forall_mem_append.2 ⟨fun r hr => ?_, List.forall_mem_singleton.2 ?_⟩
    · obtain ⟨q, hq, hle⟩ := h.starts r hr
      exact ⟨q, List.mem_append_left _ hq, hle⟩
    · exact ⟨p, hpmem, Nat.sub_le _ _⟩
  · refine List.forall_mem_append.2 ⟨fun r hr => ?_, List.forall_mem_singleton.2 ?_⟩
    · obtain ⟨q, hq, hle⟩ := h.ends r hr
      exact ⟨q, List.mem_append_left _ hq, hle⟩
    · exact ⟨p, hpmem, min_le_left _ _⟩
  · refine fun hcontext => List.forall_mem_append.2
      ⟨fun r hr => h.padded_append hlt hcontext hr, List.forall_mem_singleton.2 ?_⟩
    by_cases hzero : p - context = 0
    · exact .inl hzero
    · refine .inr fun hmem => ?_
      rcases List.mem_append.1 hmem with hmem | hmem
      · -- a change at the start of the new range lies in a range before it
        obtain ⟨r, hr, hin⟩ := h.holds _ hmem
        have := hgap r hr
        dsimp only [In] at hin
        omega
      · have := List.mem_singleton.1 hmem
        omega
  · refine fun hcontext => List.forall_mem_append.2 ⟨fun r hr q hin => ?_,
      List.forall_mem_singleton.2 fun q hin => ?_⟩
    · exact List.mem_append_left _ (h.only hcontext r hr q hin)
    · dsimp only [In] at hin
      obtain rfl : q = p := by omega
      exact hpmem

/-- A change whose context reaches the last range joins it. -/
theorem Grouped.join {s e : ℕ} (h : Grouped ops context done (ranges ++ [(s, e)]))
    (hp : p < ops.length) (hlt : ∀ q ∈ done, q < p) (htouch : p - context ≤ e) :
    Grouped ops context (done ++ [p])
      (ranges ++ [(s, max e (min (p + context + 1) ops.length))]) := by
  have hpmem : p ∈ done ++ [p] := List.mem_append_right _ (List.mem_singleton_self p)
  have hlast : (s, e) ∈ ranges ++ [(s, e)] := List.mem_append_right _ (List.mem_singleton_self _)
  have hinit : ∀ r ∈ ranges, r ∈ ranges ++ [(s, e)] := fun r hr => List.mem_append_left _ hr
  obtain ⟨hse, helen⟩ := h.bounds _ hlast
  obtain ⟨q₀, hq₀, hs⟩ := h.starts _ hlast
  obtain ⟨q₁, hq₁, he⟩ := h.ends _ hlast
  have hq₀p := hlt q₀ hq₀
  have hq₁p := hlt q₁ hq₁
  dsimp only at hse helen hs he
  rw [max_eq_right (by omega)]
  refine ⟨?_, ?_, ?_, ?_, ?_, ?_, ?_⟩
  · refine List.forall_mem_append.2 ⟨fun r hr => h.bounds r (hinit r hr),
      List.forall_mem_singleton.2 ?_⟩
    dsimp only
    omega
  · obtain ⟨hranges, -, hbefore⟩ := List.pairwise_append.1 h.apart
    refine List.pairwise_append.2 ⟨hranges, List.pairwise_singleton _ _, fun r hr => ?_⟩
    exact List.forall_mem_singleton.2 (hbefore r hr (s, e) (List.mem_singleton_self _))
  · intro q hq
    have hgrown : In (s, e) q ∨ q = p → In (s, min (p + context + 1) ops.length) q := by
      dsimp only [In]
      omega
    rcases List.mem_append.1 hq with hq | hq
    · obtain ⟨r, hr, hin⟩ := h.holds q hq
      rcases List.mem_append.1 hr with hr | hr
      · exact ⟨r, List.mem_append_left _ hr, hin⟩
      · rw [List.mem_singleton.1 hr] at hin
        exact ⟨_, List.mem_append_right _ (List.mem_singleton_self _), hgrown (.inl hin)⟩
    · exact ⟨_, List.mem_append_right _ (List.mem_singleton_self _),
        hgrown (.inr (List.mem_singleton.1 hq))⟩
  · refine List.forall_mem_append.2 ⟨fun r hr => ?_, List.forall_mem_singleton.2 ?_⟩
    · obtain ⟨q, hq, hle⟩ := h.starts r (hinit r hr)
      exact ⟨q, List.mem_append_left _ hq, hle⟩
    · exact ⟨p, hpmem, hs.trans hq₀p.le⟩
  · refine List.forall_mem_append.2 ⟨fun r hr => ?_, List.forall_mem_singleton.2 ?_⟩
    · obtain ⟨q, hq, hle⟩ := h.ends r (hinit r hr)
      exact ⟨q, List.mem_append_left _ hq, hle⟩
    · exact ⟨p, hpmem, min_le_left _ _⟩
  · exact fun hcontext => List.forall_mem_append.2
      ⟨fun r hr => h.padded_append hlt hcontext (hinit r hr),
        List.forall_mem_singleton.2 (h.padded_append hlt hcontext (r := (s, e)) hlast)⟩
  · refine fun hcontext => List.forall_mem_append.2 ⟨fun r hr q hin => ?_,
      List.forall_mem_singleton.2 fun q hin => ?_⟩
    · exact List.mem_append_left _ (h.only hcontext r (hinit r hr) q hin)
    · dsimp only [In] at hin
      by_cases hq : q = p
      · exact hq ▸ hpmem
      · refine List.mem_append_left _ (h.only hcontext _ hlast q ?_)
        dsimp only [In]
        omega

/-- The next change joins the last range, or starts one behind it. -/
theorem Grouped.addRange (h : Grouped ops context done ranges) (hp : p < ops.length)
    (hlt : ∀ q ∈ done, q < p) : Grouped ops context (done ++ [p])
      (addRange ranges (p - context) (min (p + context + 1) ops.length)) := by
  rcases List.eq_nil_or_concat ranges with rfl | ⟨init, ⟨s, e⟩, rfl⟩
  · exact h.push hp hlt fun _ hr => nomatch hr
  · rw [List.concat_eq_append] at *
    rw [LineDiff.addRange, List.getLast?_concat]
    dsimp only
    split
    case isTrue htouch =>
      rw [List.dropLast_concat]
      exact h.join hp hlt htouch
    case isFalse hgap =>
      refine h.push hp hlt (List.forall_mem_append.2 ⟨fun r hr => ?_, ?_⟩)
      · have hbefore := (List.pairwise_append.1 h.apart).2.2 r hr _ (List.mem_singleton_self _)
        have hse := (h.bounds (s, e) (List.mem_append_right _ (List.mem_singleton_self _))).1
        dsimp only at hbefore hse
        omega
      · exact List.forall_mem_singleton.2 (by omega)

/-- The ranges of a script hold its changes. -/
theorem grouped_hunkRanges (ops : List DiffOp) (context : ℕ) :
    Grouped ops context (changePositions ops) (hunkRanges ops context) := by
  suffices h : ∀ done, done <+: changePositions ops → Grouped ops context done
      (done.foldl (fun ranges pos =>
        addRange ranges (pos - context) (min (pos + context + 1) ops.length)) []) from
    h _ (List.prefix_refl _)
  intro done
  induction done using List.reverseRecOn with
  | nil =>
    intro _
    exact ⟨fun _ h => (nomatch h), .nil, fun _ h => (nomatch h), fun _ h => (nomatch h),
      fun _ h => (nomatch h), fun _ _ h => (nomatch h), fun _ _ h => (nomatch h)⟩
  | append_singleton done p ih =>
    intro hlead
    have hdone := ih ((List.prefix_append done [p]).trans hlead)
    have hpairwise := (pairwise_changePositions ops).sublist hlead.sublist
    obtain ⟨op, hop, -⟩ := mem_changePositions.1 (hlead.subset (List.mem_append_right _
      (List.mem_singleton_self p)))
    rw [List.foldl_concat]
    exact hdone.addRange (List.getElem?_eq_some_iff.1 hop).1 fun q hq =>
      (List.pairwise_append.1 hpairwise).2.2 q hq p (List.mem_singleton_self p)

/-- Outside of the ranges nothing changes. -/
theorem Grouped.isEqual_of_free (h : Grouped ops context (changePositions ops) ranges)
    {op : DiffOp} (hop : ops[p]? = some op) (hfree : ∀ r ∈ ranges, ¬ In r p) :
    op.isEqual = true := by
  by_contra hchange
  obtain ⟨r, hr, hin⟩ := h.holds p (mem_changePositions.2 ⟨op, hop, by simpa using hchange⟩)
  exact hfree r hr hin

/-! ### Lines at the positions of a script -/

/-- Lines of one side that the ops before position `p` take. -/
def takenAt (f : DiffOp → Option ℕ) (ops : List DiffOp) (p : ℕ) : ℕ :=
  ((ops.take p).filterMap f).length

abbrev oldAt (ops : List DiffOp) (p : ℕ) : ℕ := takenAt DiffOp.old? ops p

abbrev newAt (ops : List DiffOp) (p : ℕ) : ℕ := takenAt DiffOp.new? ops p

theorem takenAt_slice (f : DiffOp → Option ℕ) (ops : List DiffOp) (hr : r.1 ≤ r.2) :
    takenAt f ops r.2 = takenAt f ops r.1 + ((slice ops r).filterMap f).length := by
  have htake : ops.take r.2 = ops.take r.1 ++ slice ops r := by
    rw [slice, ← List.take_add, Nat.add_sub_cancel' hr]
  rw [takenAt, takenAt, htake, List.filterMap_append, List.length_append]

theorem getElem?_slice {i : ℕ} {op : DiffOp} (h : (slice ops r)[i]? = some op) :
    ops[r.1 + i]? = some op ∧ r.1 + i < r.2 := by
  have hlt := (List.getElem?_eq_some_iff.1 h).1
  rw [slice, List.length_take] at hlt
  rw [slice, List.getElem?_take, if_pos (by omega), List.getElem?_drop] at h
  exact ⟨h, by omega⟩

theorem mem_slice {op : DiffOp} (hp : In r p) (hop : ops[p]? = some op) : op ∈ slice ops r := by
  rw [List.mem_iff_getElem?]
  refine ⟨p - r.1, ?_⟩
  dsimp only [In] at hp
  rwa [slice, List.getElem?_take, if_pos (by omega), List.getElem?_drop,
    Nat.add_sub_cancel' hp.1]

variable {f : DiffOp → Option ℕ}

/-- An op that takes a line is counted behind it. -/
theorem takenAt_lt {op : DiffOp} {q : ℕ} (hop : ops[p]? = some op)
    (hf : f op ≠ none) (hpq : p < q) : takenAt f ops p < takenAt f ops q := by
  have hpos : (slice ops (p, q)).filterMap f ≠ [] := fun hnil =>
    hf (List.filterMap_eq_nil_iff.1 hnil op (mem_slice ⟨le_rfl, hpq⟩ hop))
  have hlen := List.length_pos_iff.2 hpos
  have htaken := takenAt_slice f ops (r := (p, q)) hpq.le
  dsimp only at htaken
  omega

variable {n : ℕ}

/-- A stretch of ops whose lines count up takes the next ones. -/
theorem filterMap_slice (hf : ops.filterMap f = List.range n) (hr : r.1 ≤ r.2) :
    (slice ops r).filterMap f =
      List.range' (takenAt f ops r.1) (takenAt f ops r.2 - takenAt f ops r.1) ∧
      takenAt f ops r.1 ≤ takenAt f ops r.2 ∧ takenAt f ops r.2 ≤ n := by
  obtain ⟨s, e⟩ := r
  unfold takenAt
  dsimp only at hr ⊢
  have htake : ops.take e = ops.take s ++ slice ops (s, e) := by
    rw [slice, ← List.take_add, Nat.add_sub_cancel' hr]
  have hwhole : (ops.take e).filterMap f ++ (ops.drop e).filterMap f = List.range n := by
    rw [← List.filterMap_append, List.take_append_drop, hf]
  have hlen := congrArg List.length hwhole
  rw [List.length_append, List.length_range] at hlen
  have hlead : (ops.take e).filterMap f = List.range ((ops.take e).filterMap f).length := by
    have := congrArg (List.take ((ops.take e).filterMap f).length) hwhole
    rwa [List.take_left, List.take_range, min_eq_left (by omega)] at this
  rw [htake, List.filterMap_append] at hlead hlen ⊢
  rw [List.length_append] at hlead hlen ⊢
  refine ⟨?_, by omega, by omega⟩
  have := congrArg (List.drop ((ops.take s).filterMap f).length) hlead
  rw [List.drop_left, List.range_eq_range', List.drop_range'] at this
  rw [this]
  simp

/-- The ops take the lines of two texts. -/
structure Takes (old new : List DiffLine) (ops : List DiffOp) : Prop where
  old_eq : ops.filterMap DiffOp.old? = List.range old.length
  new_eq : ops.filterMap DiffOp.new? = List.range new.length

variable {old new : List DiffLine}

theorem takes_editOps (old new : List DiffLine) (mode : WhitespaceMode) :
    Takes old new (editOps old new mode) where
  old_eq := (spells_editOps old new mode).old_eq.trans List.range_eq_range'.symm
  new_eq := (spells_editOps old new mode).new_eq.trans List.range_eq_range'.symm

/-- What a hunk counts: the lines its ops take, and the first of each side. -/
theorem buildHunk_spec (l : List DiffOp) : (buildHunk l).oldLen = (l.filterMap DiffOp.old?).length ∧
      (buildHunk l).newLen = (l.filterMap DiffOp.new?).length ∧
      (buildHunk l).oldStart = (l.filterMap DiffOp.old?).head?.elim 0 (· + 1) ∧
      (buildHunk l).newStart = (l.filterMap DiffOp.new?).head?.elim 0 (· + 1) := by
  have hspan : ∀ span : HunkSpan, l.foldl HunkSpan.read span =
      { oldStart := span.oldStart.or (l.filterMap DiffOp.old?).head?
        newStart := span.newStart.or (l.filterMap DiffOp.new?).head?
        oldLen := span.oldLen + (l.filterMap DiffOp.old?).length
        newLen := span.newLen + (l.filterMap DiffOp.new?).length } := by
    induction l with
    | nil => simp
    | cons op l ih =>
      intro span
      rw [List.foldl_cons, ih]
      cases op with
      | equal oi ni =>
        simp [HunkSpan.read, DiffOp.old?, DiffOp.new?, Nat.add_comm, Nat.add_left_comm]
      | delete oi =>
        simp only [HunkSpan.read, Option.or_assoc, Nat.add_assoc, Nat.add_comm 1]
        rfl
      | insert ni =>
        simp only [HunkSpan.read, Option.or_assoc, Nat.add_assoc, Nat.add_comm 1]
        rfl
  rw [buildHunk, hspan]
  simp

/-- A side that has lines is numbered by the first of them. -/
theorem numbered_slice (hf : ops.filterMap f = List.range n) (hr : r.1 ≤ r.2) :
    ((slice ops r).filterMap f).length = takenAt f ops r.2 - takenAt f ops r.1 ∧
      ((slice ops r).filterMap f).head?.elim 0 (· + 1) =
        if takenAt f ops r.1 = takenAt f ops r.2 then 0 else takenAt f ops r.1 + 1 := by
  obtain ⟨hstretch, hle, -⟩ := filterMap_slice hf hr
  rw [hstretch, List.length_range']
  refine ⟨rfl, ?_⟩
  split
  case isTrue heq =>
    rw [heq, Nat.sub_self]
    rfl
  case isFalse hne =>
    obtain ⟨k, hk⟩ : ∃ k, takenAt f ops r.2 - takenAt f ops r.1 = k + 1 :=
      ⟨takenAt f ops r.2 - takenAt f ops r.1 - 1, by omega⟩
    rw [hk]
    rfl

/-- With context, a side without lines stands at the front of its file. -/
theorem takenAt_eq_zero (hequal : ∀ op, op.isEqual = true → f op ≠ none)
    (hcontext : 1 ≤ context) (hr : r ∈ hunkRanges ops context)
    (hnone : (slice ops r).filterMap f = []) : takenAt f ops r.1 = 0 := by
  have hgrouped := grouped_hunkRanges ops context
  obtain ⟨hlt, hle⟩ := hgrouped.bounds r hr
  rcases hgrouped.padded hcontext r hr with hzero | hfirst
  · rw [hzero, takenAt, List.take_zero]
    rfl
  · -- the first op of the range pairs two lines
    exfalso
    have hop : ops[r.1]? = some ops[r.1] := List.getElem?_eq_getElem (by omega)
    have hpaired : ops[r.1].isEqual = true := by
      by_contra hchange
      exact hfirst (mem_changePositions.2 ⟨_, hop, by simpa using hchange⟩)
    exact hequal _ hpaired (List.filterMap_eq_nil_iff.1 hnone _ (mem_slice ⟨le_rfl, hlt⟩ hop))

/-- The header of a range finds the range, if a side without lines stands at the front. -/
theorem hunkFrom_slice (hf : ops.filterMap f = List.range n) (hr : r.1 ≤ r.2)
    (hfront : (slice ops r).filterMap f = [] → takenAt f ops r.1 = 0) :
    hunkFrom (((slice ops r).filterMap f).head?.elim 0 (· + 1))
        ((slice ops r).filterMap f).length = takenAt f ops r.1 ∧
      takenAt f ops r.1 + ((slice ops r).filterMap f).length = takenAt f ops r.2 := by
  obtain ⟨hlen, hstart⟩ := numbered_slice hf hr
  obtain ⟨-, hle, -⟩ := filterMap_slice hf hr
  refine ⟨?_, by omega⟩
  rw [hunkFrom, hstart, hlen]
  split
  case isTrue hempty =>
    have hnil : (slice ops r).filterMap f = [] := List.length_eq_zero_iff.1 (by omega)
    rw [if_pos (by omega), hfront hnil]
  case isFalse hsome =>
    rw [if_neg (by omega), Nat.add_sub_cancel]

theorem DiffOp.old?_of_isEqual (op : DiffOp) (h : op.isEqual = true) : op.old? ≠ none := by
  cases op with
  | equal => exact Option.some_ne_none _
  | delete => cases h
  | insert => cases h

theorem DiffOp.new?_of_isEqual (op : DiffOp) (h : op.isEqual = true) : op.new? ≠ none := by
  cases op with
  | equal => exact Option.some_ne_none _
  | delete => cases h
  | insert => cases h

/-- The hunks are those of the ranges. -/
theorem groupHunks_eq (ops : List DiffOp) (context : ℕ) :
    groupHunks ops context = (hunkRanges ops context).map fun r => buildHunk (slice ops r) := by
  rw [groupHunks]
  split
  case isTrue hnone =>
    rw [hunkRanges, hnone]
    rfl
  case isFalse => rfl

/-! ### Splicing what the ranges hold -/

/-- What `g` makes of ops that stand from position `p` on. -/
def gather (g : ℕ → DiffOp → List DiffLine) (p : ℕ) (l : List DiffOp) : List DiffLine :=
  (l.zipIdx p).flatMap fun q => g q.2 q.1

/-- The old line of an op. -/
def oldLine (old : List DiffLine) (op : DiffOp) : List DiffLine :=
  (op.old?.bind fun oi => old[oi]?).toList

/-- The new line of an op. -/
def newLine (new : List DiffLine) (op : DiffOp) : List DiffLine :=
  (op.new?.bind fun ni => new[ni]?).toList

/-- The line of an op that a hunk keeps or adds. -/
def appliedLine (old new : List DiffLine) : DiffOp → List DiffLine
  | .equal oi _ => old[oi]?.toList
  | .delete _ => []
  | .insert ni => new[ni]?.toList

variable {g g' : ℕ → DiffOp → List DiffLine}

theorem gather_append (p : ℕ) (l l' : List DiffOp) :
    gather g p (l ++ l') = gather g p l ++ gather g (p + l.length) l' := by
  rw [gather, List.zipIdx_append, List.flatMap_append]
  rfl

/-- Only what `g` makes of the ops at their positions counts. -/
theorem gather_congr {p : ℕ} {l : List DiffOp}
    (h : ∀ i op, l[i]? = some op → g (p + i) op = g' (p + i) op) : gather g p l = gather g' p l := by
  refine List.flatMap_congr fun q hq => ?_
  obtain ⟨hle, hop⟩ := List.mk_mem_zipIdx_iff_le_and_getElem?_sub.1 hq
  have := h (q.2 - p) q.1 hop
  rwa [Nat.add_sub_cancel' hle] at this

theorem gather_const (f : DiffOp → List DiffLine) (p : ℕ) (l : List DiffOp) :
    gather (fun _ => f) p l = l.flatMap f := by
  conv_rhs => rw [← List.zipIdx_map_fst p l, List.flatMap_map]
  rfl

/-- Lines picked by consecutive numbers are a stretch of the text. -/
theorem filterMap_range' (lines : List DiffLine) (a n : ℕ) :
    (List.range' a n).filterMap (fun i => lines[i]?) = (lines.drop a).take n := by
  induction n generalizing a with
  | zero => simp
  | succ n ih =>
    rw [List.range'_succ, List.filterMap_cons, ih]
    by_cases ha : a < lines.length
    · rw [List.getElem?_eq_getElem ha, List.drop_eq_getElem_cons ha, List.take_succ_cons]
    · rw [List.getElem?_eq_none (by omega), List.drop_eq_nil_iff.2 (by omega),
        List.drop_eq_nil_iff.2 (by omega), List.take_nil, List.take_nil]

theorem flatMap_oldLine (old : List DiffLine) (l : List DiffOp) :
    l.flatMap (oldLine old) = (l.filterMap DiffOp.old?).filterMap fun i => old[i]? := by
  rw [List.filterMap_filterMap]
  induction l with
  | nil => rfl
  | cons op l ih =>
    rw [List.flatMap_cons, ih, List.filterMap_cons, oldLine]
    cases op.old?.bind fun oi => old[oi]? <;> rfl

theorem flatMap_newLine (new : List DiffLine) (l : List DiffOp) :
    l.flatMap (newLine new) = (l.filterMap DiffOp.new?).filterMap fun i => new[i]? := by
  rw [List.filterMap_filterMap]
  induction l with
  | nil => rfl
  | cons op l ih =>
    rw [List.flatMap_cons, ih, List.filterMap_cons, newLine]
    cases op.new?.bind fun ni => new[ni]? <;> rfl

/-- The new lines of the whole script are the new text. -/
theorem Takes.flatMap_newLine (h : Takes old new ops) : ops.flatMap (newLine new) = new := by
  rw [LineDiff.flatMap_newLine, h.new_eq, List.range_eq_range', filterMap_range', List.drop_zero,
    List.take_length]

theorem Takes.flatMap_oldLine (h : Takes old new ops) : ops.flatMap (oldLine old) = old := by
  rw [LineDiff.flatMap_oldLine, h.old_eq, List.range_eq_range', filterMap_range', List.drop_zero,
    List.take_length]

/-- Where lines are compared exactly, what the whole script keeps and adds is the new text. -/
theorem Takes.flatMap_appliedLine (h : Takes old new ops)
    (hmatch : ∀ oi ni, DiffOp.equal oi ni ∈ ops → Match old new .exact oi ni) :
    ops.flatMap (appliedLine old new) = new := by
  refine (List.flatMap_congr fun op hop => ?_).trans h.flatMap_newLine
  cases op with
  | equal oi ni =>
    obtain ⟨l, hold, hnew⟩ := eq_of_match_exact (hmatch oi ni hop)
    rw [appliedLine, newLine, hold]
    exact congrArg Option.toList hnew.symm
  | delete oi => rfl
  | insert ni => rfl

/-- The old lines of a stretch of the script are a stretch of the old text. -/
theorem Takes.slice_oldLine (h : Takes old new ops) (hr : r.1 ≤ r.2) :
    (slice ops r).flatMap (oldLine old) = (old.take (oldAt ops r.2)).drop (oldAt ops r.1) := by
  rw [LineDiff.flatMap_oldLine, (filterMap_slice h.old_eq hr).1, filterMap_range', List.drop_take]

theorem length_slice (hr : r.2 ≤ ops.length) : (slice ops r).length = r.2 - r.1 := by
  rw [slice, List.length_take, List.length_drop]
  omega

theorem drop_eq_slice {a b : ℕ} (hab : a ≤ b) : ops.drop a = slice ops (a, b) ++ ops.drop b := by
  have hdrop : (ops.drop a).drop (b - a) = ops.drop b := by
    rw [List.drop_drop, Nat.add_sub_cancel' hab]
  rw [slice, ← hdrop, List.take_append_drop]

/-- What a range holds, as the region that it replaces. -/
def segment (ops : List DiffOp) (g : ℕ → DiffOp → List DiffLine) (r : ℕ × ℕ) : MergeRegion where
  baseStart := oldAt ops r.1
  baseLen := oldAt ops r.2 - oldAt ops r.1
  new := gather g r.1 (slice ops r)

theorem segment_baseEnd (h : Takes old new ops) (hr : r.1 ≤ r.2) :
    (segment ops g r).baseEnd = oldAt ops r.2 :=
  Nat.add_sub_cancel' (filterMap_slice h.old_eq hr).2.1

/-- Where `g` leaves the old line outside of the ranges, splicing what the ranges hold gives what
`g` makes of the whole script. -/
theorem splice_ranges (h : Takes old new ops) {ranges : List (ℕ × ℕ)} {c : ℕ}
    (hc : c ≤ ops.length) (hstart : ∀ r ∈ ranges, c ≤ r.1)
    (hbounds : ∀ r ∈ ranges, r.1 < r.2 ∧ r.2 ≤ ops.length)
    (hapart : ranges.Pairwise fun r r' => r.2 < r'.1)
    (hout : ∀ p op, c ≤ p → ops[p]? = some op → (∀ r ∈ ranges, ¬ In r p) →
      g p op = oldLine old op) :
    spliceFrom old (oldAt ops c) (ranges.map (segment ops g)) = gather g c (ops.drop c) := by
  -- a stretch outside of the ranges is a stretch of the old text
  have hgap : ∀ r : ℕ × ℕ, c ≤ r.1 → r.1 ≤ r.2 →
      (∀ p, In r p → ∀ r' ∈ ranges, ¬ In r' p) →
      gather g r.1 (slice ops r) = (old.take (oldAt ops r.2)).drop (oldAt ops r.1) := by
    intro r hcr hr hfree
    rw [← h.slice_oldLine hr, ← gather_const (oldLine old) r.1]
    refine gather_congr fun i op hop => ?_
    obtain ⟨hop, hlt⟩ := getElem?_slice hop
    exact hout _ op (by omega) hop (hfree _ ⟨by omega, hlt⟩)
  induction ranges generalizing c with
  | nil =>
    have hwhole := hgap (c, ops.length) le_rfl hc fun _ _ _ h => nomatch h
    have hslice : slice ops (c, ops.length) = ops.drop c := by
      rw [slice, List.take_of_length_le (by rw [List.length_drop])]
    have hend : oldAt ops ops.length = old.length := by
      rw [oldAt, takenAt, List.take_length, h.old_eq, List.length_range]
    rw [hslice, hend, List.take_length] at hwhole
    exact hwhole.symm
  | cons r ranges ih =>
    have hcr := hstart r List.mem_cons_self
    obtain ⟨hlt, hle⟩ := hbounds r List.mem_cons_self
    obtain ⟨hr, hrest⟩ := List.pairwise_cons.1 hapart
    have hbefore := hgap (c, r.1) le_rfl hcr fun p hp r' hr' hin => by
      rcases List.mem_cons.1 hr' with rfl | hr'
      · exact absurd hin.1 (by dsimp only [In] at hp; omega)
      · have := hr r' hr'
        dsimp only [In] at hp hin
        omega
    have hbehind := ih hle (fun r' hr' => (hr r' hr').le)
      (fun r' hr' => hbounds r' (List.mem_cons_of_mem r hr')) hrest
      (fun p op hp hop hfree => by
        refine hout p op (by omega) hop fun r' hr' => ?_
        rcases List.mem_cons.1 hr' with rfl | hr'
        · exact fun hin => by omega
        · exact hfree r' hr')
      (fun r' hcr' hr' hfree => hgap r' (by omega) hr' fun p hp r'' hr'' => by
        rcases List.mem_cons.1 hr'' with rfl | hr''
        · exact fun hin => by omega
        · exact hfree p hp r'' hr'')
    have hsplit : ops.drop c = slice ops (c, r.1) ++ (slice ops r ++ ops.drop r.2) := by
      rw [← drop_eq_slice hlt.le]
      exact drop_eq_slice hcr
    have hlen : (slice ops (c, r.1)).length = r.1 - c := length_slice (hlt.le.trans hle)
    rw [List.map_cons, spliceFrom, segment_baseEnd h hlt.le, hbehind, hsplit, gather_append,
      gather_append, hbefore, hlen, length_slice hle, Nat.add_sub_cancel' hcr,
      Nat.add_sub_cancel' hlt.le, List.append_assoc]
    rfl

end Mkit.LineDiff
