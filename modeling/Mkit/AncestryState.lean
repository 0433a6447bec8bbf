import Mkit.Lib.Text
import Mkit.Refs

/-!
# Publication Intents

A history publication first makes its intent durable: a small text file naming the
repository, the branch, the ref before and after, and the generation the new snapshot goes
to. The file is one line for each field, closed by a line with the digest of all lines before
it.
-/

namespace Mkit

/-- Longest intent file that is read. -/
def MAX_TRANSACTION : ℕ := 8192

/-- Read a metadata file of at most `limit` bytes; a longer one is the I/O error `io`. -/
def readBounded {ε : Type} (io : ε) (file : Option Bytes) (limit : ℕ) :
    Except ε (Option Bytes) :=
  match file with
  | none => .ok none
  | some bytes => if bytes.length > limit then .error io else .ok (some bytes)

/-- A durable intent. -/
structure Transaction where
  repository : Hash
  fullRef : Bytes
  previous : Option Hash
  previousGeneration : Option Hash
  target : Hash
  generation : Hash
deriving DecidableEq

namespace Transaction

/-- The first line of the file. -/
def HEADER : Bytes :=
  ascii ['m', 'k', 'i', 't', '-', 'h', 'i', 's', 't', 'o', 'r', 'y', '-', 't', 'r', 'a', 'n',
    's', 'a', 'c', 't', 'i', 'o', 'n', '-', 'v', '1']

/-- An optional digest, `-` when absent. -/
def optional : Option Hash → Bytes
  | none => ascii ['-']
  | some h => toHex h

/-- The lines the checksum covers. -/
def lines (tx : Transaction) : List Bytes :=
  [HEADER, toHex tx.repository, tx.fullRef, optional tx.previous,
    optional tx.previousGeneration, toHex tx.target, toHex tx.generation]

/-- Lines, each closed by a newline. -/
def unlines (ls : List Bytes) : Bytes :=
  ls.flatMap fun l => l ++ [NEWLINE]

variable (B : Blake3)

/-- The intent file. -/
def encode (tx : Transaction) : Bytes :=
  unlines tx.lines ++ (toHex (B.hash (unlines tx.lines)) ++ [NEWLINE])

/-- The error of every malformed file. -/
def malformed : RefError :=
  .invalidRef (ascii ['c', 'o', 'r', 'r', 'u', 'p', 't', ' ', 'p', 'e', 'n', 'd', 'i', 'n', 'g',
    ' ', 'h', 'i', 's', 't', 'o', 'r', 'y', ' ', 't', 'r', 'a', 'n', 's', 'a', 'c', 't', 'i',
    'o', 'n'])

/-- A digest line. The reader knows both cases of hex, so the lowercase form is compared. -/
def parseHash (text : Bytes) : Except RefError Hash :=
  match fromHex text with
  | none => .error malformed
  | some h => if toHex h ≠ text then .error malformed else .ok h

/-- An optional digest line. -/
def parseOptional (text : Bytes) : Except RefError (Option Hash) :=
  if text = ascii ['-'] then .ok none else some <$> parseHash text

/-- Decode the intent file. -/
def decode (bytes : Bytes) : Except RefError Transaction :=
  match bytes.splitOn NEWLINE with
  | [l₀, l₁, l₂, l₃, l₄, l₅, l₆, l₇, l₈] => do
    if l₀ ≠ HEADER ∨ l₈ ≠ [] then throw malformed
    if bytes.length < 65 then throw malformed
    let checksum ← parseHash l₇
    if checksum ≠ B.hash (bytes.take (bytes.length - 65)) ∨ ¬ BRANCH_REF_PREFIX <+: l₂ ∨
        validateRefNameGrammar l₂ = false then
      throw malformed
    let repository ← parseHash l₁
    let previous ← parseOptional l₃
    let previousGeneration ← parseOptional l₄
    let target ← parseHash l₅
    let generation ← parseHash l₆
    pure ⟨repository, l₂, previous, previousGeneration, target, generation⟩
  | _ => .error malformed

/-- Read the intent file of a branch. -/
def read (file : Option Bytes) : Except RefError (Option Transaction) := do
  match ← readBounded .io file MAX_TRANSACTION with
  | none => pure none
  | some bytes => some <$> decode B bytes

/-! ### Reading back -/

theorem parseHash_toHex (h : Hash) : parseHash (toHex h) = .ok h := by
  rw [parseHash, fromHex_toHex]
  exact if_neg (not_not.2 rfl)

theorem parseOptional_optional (h : Option Hash) : parseOptional (optional h) = .ok h := by
  cases h with
  | none => rfl
  | some h =>
    have hne : toHex h ≠ ascii ['-'] := by
      intro he
      have hlen := congrArg List.length he
      rw [length_toHex] at hlen
      exact absurd hlen (by decide)
    rw [optional, parseOptional, if_neg hne, parseHash_toHex]
    rfl

theorem newline_notMem_optional (h : Option Hash) : NEWLINE ∉ optional h := by
  cases h with
  | none => decide
  | some h => exact newline_notMem_toHex h

theorem newline_notMem_lines {tx : Transaction} (h : NEWLINE ∉ tx.fullRef) :
    ∀ l ∈ tx.lines, NEWLINE ∉ l := by
  intro l hl
  simp only [lines, List.mem_cons, List.not_mem_nil, or_false] at hl
  rcases hl with rfl | rfl | rfl | rfl | rfl | rfl | rfl
  · decide
  · exact newline_notMem_toHex _
  · exact h
  · exact newline_notMem_optional _
  · exact newline_notMem_optional _
  · exact newline_notMem_toHex _
  · exact newline_notMem_toHex _

/-- The intent of a branch is decoded from its file. -/
theorem decode_encode (br : Branch) {tx : Transaction} (h : tx.fullRef = br.fullRef) :
    decode B (tx.encode B) = .ok tx := by
  set body := unlines tx.lines with hbody
  have hnl : NEWLINE ∉ tx.fullRef := h ▸ br.newline_notMem_fullRef
  have hsplit : (tx.encode B).splitOn NEWLINE = tx.lines ++ [toHex (B.hash body), []] := by
    rw [encode, unlines, Text.splitOn_terminated (newline_notMem_lines hnl),
      List.splitOn_append_cons_self_of_not_mem (newline_notMem_toHex _)]
    rfl
  have hsum : (toHex (B.hash body) ++ [NEWLINE]).length = 65 := by
    rw [List.length_append, length_toHex]
    rfl
  have hlen : (tx.encode B).length = body.length + 65 := by
    rw [encode, List.length_append, hsum]
  have htake : (tx.encode B).take ((tx.encode B).length - 65) = body := by
    rw [hlen, Nat.add_sub_cancel, encode]
    exact List.take_left' rfl
  have hpre : BRANCH_REF_PREFIX <+: tx.fullRef := by
    rw [h]
    exact List.prefix_append _ _
  have hgram : validateRefNameGrammar tx.fullRef = true := h ▸ br.fullRef_grammar
  rw [decode, hsplit, htake, hlen]
  simp only [lines, List.cons_append, List.nil_append, ne_eq, not_true_eq_false, or_self,
    if_false, parseHash_toHex, parseOptional_optional, hpre, hgram]
  rw [if_neg (by omega)]
  simp only [Bind.bind, Except.bind, not_true_eq_false, Bool.true_eq_false, or_self, if_false]
  rfl

/-- The file of an intent stays within the bound. -/
theorem length_encode_le (br : Branch) {tx : Transaction} (h : tx.fullRef = br.fullRef) :
    (tx.encode B).length ≤ MAX_TRANSACTION := by
  have hopt : ∀ o, (optional o).length ≤ 64 := by
    rintro (_ | o)
    · decide
    · exact (length_toHex o).le
  have h₁ := hopt tx.previous
  have h₂ := hopt tx.previousGeneration
  have h₃ := br.length_fullRef
  rw [← h] at h₃
  rw [encode, unlines, lines, MAX_TRANSACTION]
  simp only [List.flatMap_cons, List.flatMap_nil, List.length_append, List.length_cons,
    List.length_nil, length_toHex, HEX_LEN, show HEADER.length = 27 from rfl]
  omega

/-- What is written is read back. -/
theorem read_encode (br : Branch) {tx : Transaction} (h : tx.fullRef = br.fullRef) :
    read B (some (tx.encode B)) = .ok (some tx) := by
  rw [read, readBounded, if_neg (not_lt.2 (length_encode_le B br h))]
  change some <$> decode B (tx.encode B) = _
  rw [decode_encode B br h]
  rfl

end Transaction

end Mkit
