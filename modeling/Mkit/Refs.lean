import Mathlib.Data.List.DropRight
import Mkit.Object

/-!
# Refs

The on-disk form of a ref (lowercase hex and a newline), the grammar of ref names, and the
conditions a ref write is made under.

Text is kept as bytes. The code checks that a ref file is UTF-8 before it trims and parses
it; every text the parsers below accept is ASCII, so that check never decides anything and is
not repeated here.
-/

namespace Mkit

/-- Longest name of a ref. -/
def MAX_REF_NAME_BYTES : ℕ := 512

/-- The namespace of branches, `refs/heads/`. -/
def BRANCH_REF_PREFIX : Bytes :=
  ascii ['r', 'e', 'f', 's', '/', 'h', 'e', 'a', 'd', 's', '/']

/-- Failures of the ref operations. -/
inductive RefError where
  | invalidRefName (name : Bytes)
  | invalidRef (what : Bytes)
  | invalidHead
  | noHead
  | conflict (name : Bytes)
  | io
deriving DecidableEq

/-- The state a ref must be in for a write to go through. -/
inductive RefWriteCondition where
  /-- Write whatever is there. -/
  | any
  /-- Only create. -/
  | missing
  /-- Only replace this value. -/
  | matching (expected : Hash)
deriving DecidableEq

/-! ### The wire form -/

/-- `\n`. -/
def NEWLINE : UInt8 := 0x0a

/-- The 65-byte wire form of a ref: lowercase hex and a newline. -/
def encodeRefWire (h : Hash) : Bytes :=
  toHex h ++ [NEWLINE]

/-- The trailing bytes a ref file may have: `\n`, `\r`, space and tab. -/
def isRefWhitespace (b : UInt8) : Bool :=
  b == 0x0a || b == 0x0d || b == 0x20 || b == 0x09

/-- Read a ref file. -/
def decodeRefWire (data : Bytes) : Option Hash :=
  parseLowercaseHash (data.rdropWhile isRefWhitespace)

/-- The content of a ref file is the digits of `h` with nothing but whitespace behind them. -/
def Spells (data : Bytes) (h : Hash) : Prop :=
  ∃ trailing : Bytes, data = toHex h ++ trailing ∧ ∀ b ∈ trailing, isRefWhitespace b = true

/-- There is no whitespace to trim among hex digits. -/
theorem rdropWhile_toHex (h : Hash) : (toHex h).rdropWhile isRefWhitespace = toHex h := by
  have hws : HEX.all (fun d => !isRefWhitespace d) = true := by decide
  rw [List.rdropWhile_eq_self_iff]
  intro hne
  simpa using List.all_eq_true.1 hws _ (mem_HEX_of_mem_toHex (List.getLast_mem hne))

/-- The wire decoder reads exactly the files that spell a digest. -/
theorem decodeRefWire_eq_some_iff {data : Bytes} {h : Hash} :
    decodeRefWire data = some h ↔ Spells data h := by
  rw [decodeRefWire, parseLowercaseHash_eq_some_iff]
  constructor
  · intro hd
    refine ⟨data.rtakeWhile isRefWhitespace, ?_, fun b hb => List.mem_rtakeWhile_imp hb⟩
    rw [← hd]
    exact List.rdropWhile_append_rtakeWhile.symm
  · rintro ⟨trailing, rfl, hws⟩
    have hall : ∀ b ∈ trailing.reverse, isRefWhitespace b = true :=
      fun b hb => hws b (List.mem_reverse.1 hb)
    rw [List.rdropWhile, List.reverse_append, List.dropWhile_append_of_pos hall]
    exact rdropWhile_toHex h

/-- What is written is read back. -/
@[simp] theorem decodeRefWire_encodeRefWire (h : Hash) : decodeRefWire (encodeRefWire h) = some h :=
  decodeRefWire_eq_some_iff.2 ⟨[NEWLINE], rfl, List.forall_mem_singleton.2 rfl⟩

theorem length_encodeRefWire (h : Hash) : (encodeRefWire h).length = 65 := by
  rw [encodeRefWire, List.length_append, length_toHex]
  rfl

theorem newline_notMem_toHex (h : Hash) : NEWLINE ∉ toHex h :=
  fun hmem => absurd (mem_HEX_of_mem_toHex hmem) (by decide)

theorem encodeRefWire_injective : Function.Injective encodeRefWire := by
  intro a b h
  have h := congrArg decodeRefWire h
  rw [decodeRefWire_encodeRefWire, decodeRefWire_encodeRefWire] at h
  exact Option.some.inj h

/-! ### Names -/

/-- `/`. -/
def SLASH : UInt8 := 0x2f

/-- The bytes of a ref name segment: letters, digits, `.`, `_` and `-`. -/
def isRefByte (b : UInt8) : Bool :=
  (0x30 ≤ b && b ≤ 0x39) || (0x41 ≤ b && b ≤ 0x5a) || (0x61 ≤ b && b ≤ 0x7a) ||
    b == 0x2e || b == 0x5f || b == 0x2d

/-- `.lock`. -/
def LOCK_SUFFIX : Bytes := ascii ['.', 'l', 'o', 'c', 'k']

/-- One segment of a ref name. -/
def validRefSegment (part : Bytes) : Bool :=
  !part.isEmpty && part.head? != some 0x2e && !LOCK_SUFFIX.isSuffixOf part &&
    part.all isRefByte

/-- The grammar of ref names. -/
def validateRefNameGrammar (name : Bytes) : Bool :=
  !name.isEmpty && name.head? != some SLASH &&
    (name.splitOn SLASH).all validRefSegment &&
    (name.splitOn SLASH).getLast? != some (ascii ['H', 'E', 'A', 'D'])

/-- A byte of a text is the separator or lies in one of the parts it separates. -/
theorem mem_splitOn_of_mem {s : Bytes} {sep b : UInt8} (hb : b ∈ s) :
    b = sep ∨ ∃ part ∈ s.splitOn sep, b ∈ part := by
  induction s with
  | nil => cases hb
  | cons c s ih =>
    rw [List.splitOn_cons_eq_if_modifyHead]
    by_cases hc : c = sep
    · rw [if_pos (beq_iff_eq.2 hc)]
      rcases List.mem_cons.1 hb with rfl | hb
      · exact .inl hc
      · rcases ih hb with h | ⟨part, hpart, hb⟩
        · exact .inl h
        · exact .inr ⟨part, List.mem_cons_of_mem _ hpart, hb⟩
    · rw [if_neg (by simpa using hc)]
      obtain ⟨part, parts, hs⟩ := List.exists_cons_of_ne_nil (List.splitOn_ne_nil sep s)
      rw [hs] at ih ⊢
      rw [List.modifyHead_cons]
      rcases List.mem_cons.1 hb with rfl | hb
      · exact .inr ⟨_, List.mem_cons_self, List.mem_cons_self⟩
      · rcases ih hb with h | ⟨part', hpart, hb⟩
        · exact .inl h
        · rcases List.mem_cons.1 hpart with rfl | hpart
          · exact .inr ⟨_, List.mem_cons_self, List.mem_cons_of_mem _ hb⟩
          · exact .inr ⟨part', List.mem_cons_of_mem _ hpart, hb⟩

/-- Every byte of a name in the grammar is a segment byte or a slash. -/
theorem isRefByte_of_grammar {name : Bytes} (h : validateRefNameGrammar name = true)
    {b : UInt8} (hb : b ∈ name) : b = SLASH ∨ isRefByte b = true := by
  simp only [validateRefNameGrammar, Bool.and_eq_true, List.all_eq_true] at h
  refine (mem_splitOn_of_mem hb).imp_right ?_
  rintro ⟨part, hpart, hb⟩
  have hseg := h.1.2 part hpart
  simp only [validRefSegment, Bool.and_eq_true, List.all_eq_true] at hseg
  exact hseg.2 b hb

/-- A branch, under a name that its callers have checked. -/
structure Branch where
  /-- The name below `refs/heads/`. -/
  name : Bytes
  /-- The name is in the grammar. -/
  grammar : validateRefNameGrammar name = true
  /-- The name is within the bound. -/
  bounded : name.length ≤ MAX_REF_NAME_BYTES

/-- `refs/heads/<name>`. -/
def Branch.fullRef (br : Branch) : Bytes :=
  BRANCH_REF_PREFIX ++ br.name

theorem Branch.length_fullRef (br : Branch) : br.fullRef.length ≤ 523 := by
  have h := br.bounded
  rw [MAX_REF_NAME_BYTES] at h
  rw [Branch.fullRef, List.length_append, show BRANCH_REF_PREFIX.length = 11 from rfl]
  omega

/-- The full name of a branch is in the grammar too. -/
theorem Branch.fullRef_grammar (br : Branch) : validateRefNameGrammar br.fullRef = true := by
  have hsplit : br.fullRef.splitOn SLASH =
      ascii ['r', 'e', 'f', 's'] :: ascii ['h', 'e', 'a', 'd', 's'] ::
        br.name.splitOn SLASH := by
    have hcut : br.fullRef = ascii ['r', 'e', 'f', 's'] ++ SLASH ::
        (ascii ['h', 'e', 'a', 'd', 's'] ++ SLASH :: br.name) := rfl
    rw [hcut, List.splitOn_append_cons_self_of_not_mem (by decide),
      List.splitOn_append_cons_self_of_not_mem (by decide)]
  obtain ⟨part, parts, hs⟩ := List.exists_cons_of_ne_nil (List.splitOn_ne_nil SLASH br.name)
  have h := br.grammar
  rw [validateRefNameGrammar, hs] at h
  rw [validateRefNameGrammar, hsplit, hs]
  simp only [Bool.and_eq_true] at h ⊢
  refine ⟨⟨⟨rfl, rfl⟩, ?_⟩, ?_⟩
  · rw [List.all_cons, List.all_cons, h.1.2]
    rfl
  · rw [List.getLast?_cons_cons, List.getLast?_cons_cons]
    exact h.2

theorem Branch.newline_notMem_fullRef (br : Branch) : NEWLINE ∉ br.fullRef := by
  intro h
  rcases isRefByte_of_grammar br.fullRef_grammar h with h | h
  · exact absurd h (by decide)
  · exact absurd h (by decide)

end Mkit
