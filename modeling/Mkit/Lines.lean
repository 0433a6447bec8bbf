import Mkit.Hash
import Mkit.Lib.Text

/-!
# Lines

How `ops/diff.rs` cuts a text into lines, compares lines and writes them out again.

`Split text lines` says what the cutting computes (`split_iff`). A text is its lines written out
(`rawLines_splitLines`), and lines written out are cut into the same lines again exactly when
only the last of them lacks its newline (`splitLines_rawLines_iff`).
-/

namespace Mkit.LineDiff

/-- A line and whether a newline ended it. -/
structure DiffLine where
  text : Bytes
  hasNewline : Bool
  deriving DecidableEq

/-- Split off lines. Each takes at least a byte, so the length of the text is enough rounds. -/
def splitLinesFrom : ℕ → Bytes → List DiffLine
  | 0, _ => []
  | n + 1, rest =>
    if rest = [] then []
    else
      match rest.findIdx? (· = 0x0A) with
      | some idx =>
        { text := rest.take idx, hasNewline := true } :: splitLinesFrom n (rest.drop (idx + 1))
      | none => [{ text := rest, hasNewline := false }]

def splitLines (text : Bytes) : List DiffLine :=
  splitLinesFrom text.length text

/-- A line as it is written out. -/
def rawLine (l : DiffLine) : Bytes :=
  l.text ++ if l.hasNewline then [0x0A] else []

def rawLines (lines : List DiffLine) : Bytes :=
  lines.flatMap rawLine

/-! ### Comparing lines -/

inductive WhitespaceMode
  | exact
  | ignoreSpaceChange
  | ignoreAllSpace
  deriving DecidableEq

/-- ASCII whitespace and the vertical tab. -/
def isWsByte (b : UInt8) : Bool :=
  b = 0x20 || b = 0x09 || b = 0x0A || b = 0x0C || b = 0x0D || b = 0x0B

def stripAllWs (line : Bytes) : Bytes :=
  line.filter fun b => !isWsByte b

/-- Write a space for each run of whitespace; `inRun` when the byte before was in one. -/
def collapseRuns : Bool → Bytes → Bytes
  | _, [] => []
  | inRun, b :: rest =>
    if isWsByte b then
      if inRun then collapseRuns true rest else 0x20 :: collapseRuns true rest
    else b :: collapseRuns false rest

def collapseWs (line : Bytes) : Bytes :=
  collapseRuns false (line.reverse.dropWhile isWsByte).reverse

/-- What two lines are compared by. -/
def wsKey (text : Bytes) : WhitespaceMode → Bytes
  | .exact => text
  | .ignoreAllSpace => stripAllWs text
  | .ignoreSpaceChange => collapseWs text

def linesEqual (a b : DiffLine) (mode : WhitespaceMode) : Bool :=
  a.hasNewline = b.hasNewline && wsKey a.text mode = wsKey b.text mode

/-! ### Cutting and writing out -/

/-- `lines` are the lines of `text`. -/
inductive Split : Bytes → List DiffLine → Prop
  | nil : Split [] []
  | line {text rest : Bytes} {lines : List DiffLine} (hnl : 0x0A ∉ text) (h : Split rest lines) :
      Split (text ++ 0x0A :: rest) ({ text, hasNewline := true } :: lines)
  | last {text : Bytes} (hne : text ≠ []) (hnl : 0x0A ∉ text) :
      Split text [{ text, hasNewline := false }]

theorem split_splitLinesFrom (n : ℕ) (text : Bytes) (hn : text.length ≤ n) :
    Split text (splitLinesFrom n text) := by
  induction n generalizing text with
  | zero =>
    obtain rfl : text = [] := List.length_eq_zero_iff.1 (by omega)
    exact .nil
  | succ n ih =>
    rw [splitLinesFrom]
    split
    case isTrue hnil => exact hnil ▸ .nil
    case isFalse hne =>
      split
      · rename_i idx hidx
        obtain ⟨hlt, hat, hbefore⟩ := List.findIdx?_eq_some_iff_getElem.1 hidx
        have hnl : 0x0A ∉ text.take idx := by
          intro hmem
          obtain ⟨j, hj, heq⟩ := List.mem_take_iff_getElem.1 hmem
          exact hbefore j (by omega) (by simpa using heq)
        have htext : text = text.take idx ++ 0x0A :: text.drop (idx + 1) := by
          have h0A : text[idx] = 0x0A := by simpa using hat
          rw [← h0A, ← List.drop_eq_getElem_cons hlt, List.take_append_drop]
        have := Split.line hnl (ih (text.drop (idx + 1)) (by rw [List.length_drop]; omega))
        rwa [← htext] at this
      · rename_i hnone
        refine .last hne fun hmem => ?_
        simpa using List.findIdx?_eq_none_iff.1 hnone _ hmem

theorem Split.unique {text : Bytes} {lines lines' : List DiffLine} (h : Split text lines)
    (h' : Split text lines') : lines = lines' := by
  induction h generalizing lines' with
  | nil =>
    generalize ht : ([] : Bytes) = t at h'
    cases h' with
    | nil => rfl
    | line => simp at ht
    | last hne => exact absurd ht.symm hne
  | @line text rest lines hnl _ ih =>
    generalize ht : text ++ 0x0A :: rest = t at h'
    cases h' with
    | nil => simp at ht
    | line hnl' h' =>
      obtain ⟨rfl, rfl⟩ := Text.cut_injective hnl hnl' ht
      rw [ih h']
    | last _ hnl' => exact absurd (ht ▸ by simp) hnl'
  | @last text hne hnl =>
    generalize ht : text = t at h'
    cases h' with
    | nil => exact absurd ht hne
    | line => exact absurd (ht ▸ by simp) hnl
    | last => exact ht ▸ rfl

/-- What the cutting computes. -/
theorem split_iff {text : Bytes} {lines : List DiffLine} :
    Split text lines ↔ splitLines text = lines := by
  have h := split_splitLinesFrom text.length text le_rfl
  exact ⟨fun h' => h.unique h', fun heq => heq ▸ h⟩

theorem Split.rawLines_eq {text : Bytes} {lines : List DiffLine} (h : Split text lines) :
    rawLines lines = text := by
  induction h with
  | nil => rfl
  | line _ _ ih =>
    rw [rawLines, List.flatMap_cons, ← rawLines, ih]
    simp [rawLine]
  | last => simp [rawLines, rawLine]

/-- A text is its lines written out. -/
theorem rawLines_splitLines (text : Bytes) : rawLines (splitLines text) = text :=
  (split_iff.2 rfl).rawLines_eq

/-- A line that a text can have: without a newline inside, and not empty and unterminated. -/
structure IsLine (l : DiffLine) : Prop where
  notMem : 0x0A ∉ l.text
  ne_nil : l.hasNewline = false → l.text ≠ []

theorem Split.isLine {text : Bytes} {lines : List DiffLine} (h : Split text lines) :
    ∀ l ∈ lines, IsLine l := by
  induction h with
  | nil => exact fun _ h => nomatch h
  | line hnl _ ih =>
    intro l hl
    rcases List.mem_cons.1 hl with rfl | hl
    · exact ⟨hnl, fun h => nomatch h⟩
    · exact ih l hl
  | last hne hnl =>
    intro l hl
    obtain rfl := List.mem_singleton.1 hl
    exact ⟨hnl, fun _ => hne⟩

/-- Only the last line can lack its newline. -/
def Terminated (lines : List DiffLine) : Prop := ∀ l ∈ lines.dropLast, l.hasNewline = true

theorem terminated_cons {l : DiffLine} {lines : List DiffLine} :
    Terminated (l :: lines) ↔ (lines ≠ [] → l.hasNewline = true) ∧ Terminated lines := by
  cases lines with
  | nil => simp [Terminated]
  | cons l' lines => simp [Terminated]

theorem Split.terminated {text : Bytes} {lines : List DiffLine} (h : Split text lines) :
    Terminated lines := by
  induction h with
  | nil => exact fun _ h => nomatch h
  | line _ _ ih => exact terminated_cons.2 ⟨fun _ => rfl, ih⟩
  | last => exact fun _ h => nomatch h

theorem split_rawLines {lines : List DiffLine} (hline : ∀ l ∈ lines, IsLine l)
    (h : Terminated lines) : Split (rawLines lines) lines := by
  induction lines with
  | nil => exact .nil
  | cons l lines ih =>
    obtain ⟨htext, hne⟩ := hline l List.mem_cons_self
    obtain ⟨hl, hlines⟩ := terminated_cons.1 h
    have hrest := ih (fun l hl => hline l (List.mem_cons_of_mem _ hl)) hlines
    obtain ⟨text, hasNewline⟩ := l
    rw [rawLines, List.flatMap_cons, ← rawLines]
    cases hasNewline with
    | true =>
      have := Split.line htext hrest
      simpa [rawLine] using this
    | false =>
      obtain rfl : lines = [] := by
        by_contra hcons
        cases hl hcons
      have := Split.last (hne rfl) htext
      simpa [rawLines, rawLine] using this

/-- Lines written out are cut into the same lines exactly when only the last lacks its
newline. -/
theorem splitLines_rawLines_iff {lines : List DiffLine} (hline : ∀ l ∈ lines, IsLine l) :
    splitLines (rawLines lines) = lines ↔ Terminated lines := by
  rw [← split_iff]
  exact ⟨Split.terminated, split_rawLines hline⟩

/-! ### Unterminated texts -/

/-- Every line has its newline. -/
def Closed (lines : List DiffLine) : Prop := ∀ l ∈ lines, l.hasNewline = true

theorem closed_append {lines lines' : List DiffLine} :
    Closed (lines ++ lines') ↔ Closed lines ∧ Closed lines' :=
  List.forall_mem_append

theorem terminated_append {lines lines' : List DiffLine} (h : lines' ≠ []) :
    Terminated (lines ++ lines') ↔ Closed lines ∧ Terminated lines' := by
  rw [Terminated, List.dropLast_append_of_ne_nil h, List.forall_mem_append]
  rfl

theorem Closed.terminated {lines : List DiffLine} (h : Closed lines) : Terminated lines :=
  fun l hl => h l (List.dropLast_subset lines hl)

/-- What comes before the last line is closed. -/
theorem Terminated.closed_take {lines : List DiffLine} (h : Terminated lines) {n : ℕ}
    (hn : n < lines.length) : Closed (lines.take n) := by
  intro l hl
  refine h l ?_
  rw [List.dropLast_eq_take]
  exact List.take_subset_take_left lines (by omega) hl

theorem Terminated.drop {lines : List DiffLine} (h : Terminated lines) (n : ℕ) :
    Terminated (lines.drop n) := by
  intro l hl
  refine h l ?_
  by_cases hnil : lines.drop n = []
  · rw [hnil] at hl
    cases hl
  · rw [← List.take_append_drop n lines, List.dropLast_append_of_ne_nil hnil]
    exact List.mem_append_right _ hl

/-- A text whose last byte is not a newline. -/
def Unterminated (text : Bytes) : Prop := ∃ b, text.getLast? = some b ∧ b ≠ 0x0A

theorem Split.unterminated_iff {text : Bytes} {lines : List DiffLine} (h : Split text lines) :
    Unterminated text ↔ ¬ Closed lines := by
  induction h with
  | nil => simp [Unterminated, Closed]
  | @line text rest lines hnl h ih =>
    have hclosed : Closed ({ text, hasNewline := true } :: lines) ↔ Closed lines := by
      simp [Closed]
    rw [hclosed, ← ih]
    cases rest with
    | nil => simp [Unterminated]
    | cons b rest =>
      have hlast : (text ++ 0x0A :: b :: rest).getLast? = (b :: rest).getLast? := by
        rw [List.getLast?_append, List.getLast?_cons_cons]
        cases hr : (b :: rest).getLast? with
        | none => simp at hr
        | some => rfl
      rw [Unterminated, Unterminated, hlast]
  | @last text hne hnl =>
    refine iff_of_true ⟨text.getLast hne, List.getLast?_eq_some_getLast hne, ?_⟩ ?_
    · intro heq
      exact hnl (heq ▸ List.getLast_mem hne)
    · intro hclosed
      have := hclosed _ (List.mem_singleton_self _)
      cases this

end Mkit.LineDiff
