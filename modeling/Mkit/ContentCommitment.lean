import Mkit.Evidence
import Mkit.Server.Names

/-!
# Content Commitments

The text by which a signed request names its content: one of the three forms `body:<hex>`,
`pack:<hex>:<len>` and `part:<hex>:<index>:<hex>:<len>`. The parser takes the canonical text of
a commitment and no other:

* `ContentCommitment.parse_eq_ok_iff` — `parse text = .ok c` **iff** `text = c.display` and a
  part that `c` names is not empty.
-/

namespace Mkit.WriteAuth

open Server (isHex)
open Text (Numeral)

/-- A malformed envelope, wrong destination, expired request or bad signature. -/
structure AuthError where
  message : String
deriving DecidableEq

/-- Canonical 64-hex digest: lowercase fixed-length hex only. -/
def hex32 (value : Bytes) : Option Hash :=
  if isHex value 32 then fromHex value else none

/-- Canonical unsigned decimal: no sign, no leading zero (`0` itself allowed). -/
def canonicalDecimal {T : Type} (N : Numeral T) (value : Bytes) : Option T := do
  let number ← N.fromStr value
  if N.toString number = value then some number else none

/-- `:`. -/
def COLON : UInt8 := 0x3a

/-- `body:`. -/
def BODY : Bytes := ascii "body:".toList

/-- `pack:`. -/
def PACK : Bytes := ascii "pack:".toList

/-- `part:`. -/
def PART : Bytes := ascii "part:".toList

/-- The fields of a `part:` commitment. -/
structure PartCommitment where
  ticket : Hash
  index : UInt32
  subtree : Hash
  len : UInt64
deriving DecidableEq

/-- A parsed content commitment. -/
inductive ContentCommitment where
  /-- The digest of the exact unary request bytes. -/
  | body (digest : Hash)
  /-- A pack stream. -/
  | pack (id : Hash) (len : UInt64)
  /-- One part stream. -/
  | part (part : PartCommitment)
deriving DecidableEq

/-- The kind of a commitment, without its fields. -/
inductive CommitmentKind where
  | body
  | pack
  | part
deriving DecidableEq

namespace ContentCommitment

/-- The commitment's kind. -/
def kind : ContentCommitment → CommitmentKind
  | body _ => .body
  | pack _ _ => .pack
  | part _ => .part

/-- The fields after `part:`. -/
def parsePart (fields : Bytes) : Option PartCommitment :=
  match fields.splitOn COLON with
  | [ticket, index, subtree, len] => do
    let ticket ← hex32 ticket
    let index ← canonicalDecimal Text.u32 index
    let subtree ← hex32 subtree
    let len ← (canonicalDecimal Text.u64 len).filter (· ≠ 0)
    some ⟨ticket, index, subtree, len⟩
  | _ => none

/-- The fields after `pack:`; every failure is the one error of `parse`. -/
def parsePack (pack : Bytes) : Option (Hash × UInt64) := do
  let (digest, len) ← Text.splitOnce COLON pack
  let id ← hex32 digest
  let len ← canonicalDecimal Text.u64 len
  some (id, len)

/-- Strict canonical parse. -/
def parse (text : Bytes) : Except AuthError ContentCommitment :=
  match text.dropPrefix? BODY with
  | some digest => okOr ⟨"invalid body commitment"⟩ ((hex32 digest).map .body)
  | none =>
    match text.dropPrefix? PACK with
    | some fields =>
      okOr ⟨"invalid pack commitment"⟩ ((parsePack fields).map fun p => pack p.1 p.2)
    | none =>
      match text.dropPrefix? PART with
      | some fields => okOr ⟨"invalid part commitment"⟩ ((parsePart fields).map part)
      | none => .error ⟨"unknown content commitment"⟩

/-- The canonical text. -/
def display : ContentCommitment → Bytes
  | body digest => BODY ++ toHex digest
  | pack id len => PACK ++ (toHex id ++ COLON :: Text.u64.toString len)
  | part p =>
    PART ++ [COLON].intercalate
      [toHex p.ticket, Text.u32.toString p.index, toHex p.subtree, Text.u64.toString p.len]

/-- A part is never empty. -/
def LenNonzero : ContentCommitment → Prop
  | part p => p.len ≠ 0
  | _ => True

end ContentCommitment

/-! ### Fields -/

/-- On lowercase digits both hex parsers read the same. -/
theorem joinNibbles_eq_of_isHex {s : Bytes}
    (h : ∀ b ∈ s, ((0x30 ≤ b && b ≤ 0x39) || (0x61 ≤ b && b ≤ 0x66)) = true) :
    joinNibbles hexNibble s = joinNibbles lowercaseNibble s := by
  have hnibble : ∀ b ∈ s, hexNibble b = lowercaseNibble b := fun b hb => by
    have hb := h b hb
    simp only [Bool.or_eq_true, Bool.and_eq_true, decide_eq_true_eq] at hb
    rw [hexNibble, lowercaseNibble]
    rcases hb with hb | hb
    · rw [if_pos hb, if_pos hb]
    · rw [if_pos hb, if_pos hb]
  induction s using joinNibbles.induct with
  | case1 hi lo rest ih =>
    rw [joinNibbles, joinNibbles, hnibble hi (by simp), hnibble lo (by simp),
      ih (fun b hb => h b (by simp [hb])) fun b hb => hnibble b (by simp [hb])]
  | case2 => rfl
  | case3 b => rfl

/-- A rendered digest is in the canonical form. -/
theorem isHex_toHex (h : Hash) : isHex (toHex h) 32 = true := by
  rw [isHex, length_toHex, Bool.and_eq_true, List.all_eq_true]
  refine ⟨rfl, fun b hb => ?_⟩
  have hdigits : ∀ b ∈ HEX, ((0x30 ≤ b && b ≤ 0x39) || (0x61 ≤ b && b ≤ 0x66)) = true := by
    decide +kernel
  exact hdigits b (mem_HEX_of_mem_toHex hb)

theorem hex32_eq_some_iff {value : Bytes} {h : Hash} : hex32 value = some h ↔ value = toHex h := by
  constructor
  · intro hv
    rw [hex32] at hv
    split at hv
    · rename_i hhex
      rw [isHex, Bool.and_eq_true, List.all_eq_true] at hhex
      rw [fromHex, parseHex, joinNibbles_eq_of_isHex hhex.2] at hv
      exact parseLowercaseHash_eq_some_iff.1 hv
    · cases hv
  · rintro rfl
    rw [hex32, if_pos (isHex_toHex h), fromHex_toHex]

theorem canonicalDecimal_eq_some_iff {T : Type} {N : Numeral T} {value : Bytes} {number : T} :
    canonicalDecimal N value = some number ↔ value = N.toString number := by
  simp only [canonicalDecimal, Option.bind_eq_bind, Option.bind_eq_some_iff]
  constructor
  · rintro ⟨n, -, h⟩
    split at h
    · rename_i hn
      rw [← Option.some.inj h, hn]
    · cases h
  · rintro rfl
    exact ⟨number, N.fromStr_toString number, if_pos rfl⟩

/-- A byte between the digits and the letters is no hex digit. -/
theorem colon_notMem_toHex (h : Hash) : COLON ∉ toHex h := fun hmem =>
  absurd (mem_HEX_of_mem_toHex hmem) (by decide)

theorem colon_notMem_decimal (n : ℕ) : COLON ∉ Text.decimal n := fun hmem => by
  have hb := ((Text.decimal_spec n).2 COLON hmem).2
  rw [show COLON.toNat = 0x3a from rfl] at hb
  omega

namespace ContentCommitment

/-! ### The parser and the canonical text -/

theorem parsePack_eq_some_iff {fields : Bytes} {p : Hash × UInt64} : parsePack fields = some p ↔
      fields = toHex p.1 ++ COLON :: Text.u64.toString p.2 := by
  simp only [parsePack, Option.bind_eq_bind, Option.bind_eq_some_iff, Prod.exists,
    Text.splitOnce_eq_some_iff, hex32_eq_some_iff, canonicalDecimal_eq_some_iff]
  constructor
  · rintro ⟨digest, len, ⟨-, rfl⟩, id, rfl, n, rfl, h⟩
    rw [← Option.some.inj h]
  · rintro rfl
    exact ⟨_, _, ⟨colon_notMem_toHex p.1, rfl⟩, _, rfl, _, rfl, rfl⟩

theorem parsePart_eq_some_iff {fields : Bytes} {p : PartCommitment} :
    parsePart fields = some p ↔ p.len ≠ 0 ∧ fields = [COLON].intercalate
      [toHex p.ticket, Text.u32.toString p.index, toHex p.subtree, Text.u64.toString p.len] := by
  rw [parsePart]
  constructor
  · intro h
    split at h
    · rename_i ticket index subtree len hsplit
      simp only [Option.bind_eq_bind, Option.bind_eq_some_iff, hex32_eq_some_iff,
        canonicalDecimal_eq_some_iff, Option.filter_eq_some_iff, decide_eq_true_eq] at h
      obtain ⟨t, rfl, i, rfl, s, rfl, n, ⟨rfl, hn⟩, h⟩ := h
      rw [← Option.some.inj h, ← hsplit, List.intercalate_splitOn]
      exact ⟨hn, rfl⟩
    · cases h
  · rintro ⟨hlen, rfl⟩
    rw [List.splitOn_intercalate COLON _ (List.cons_ne_nil _ _)]
    · simp only [Option.bind_eq_bind, Option.bind_eq_some_iff, hex32_eq_some_iff,
        canonicalDecimal_eq_some_iff, Option.filter_eq_some_iff, decide_eq_true_eq]
      exact ⟨_, rfl, _, rfl, _, rfl, _, ⟨rfl, hlen⟩, rfl⟩
    · simp only [List.forall_mem_cons, List.not_mem_nil, false_imp_iff, implies_true, and_true]
      exact ⟨colon_notMem_toHex _, colon_notMem_decimal _, colon_notMem_toHex _,
        colon_notMem_decimal _⟩

/-- The parser takes the canonical text of a commitment, and no other text. -/
theorem parse_eq_ok_iff {text : Bytes} {c : ContentCommitment} :
    parse text = .ok c ↔ text = c.display ∧ c.LenNonzero := by
  constructor
  · intro h
    rw [parse] at h
    split at h
    · rename_i digest hd
      obtain ⟨p, rfl, hp⟩ := List.dropPrefix?_eq_some_iff.1 hd
      obtain ⟨d, hd, rfl⟩ := Option.map_eq_some_iff.1 (okOr_eq_ok.1 h)
      rw [eq_of_beq hp, hex32_eq_some_iff.1 hd]
      exact ⟨rfl, trivial⟩
    · split at h
      · rename_i fields hd
        obtain ⟨p, rfl, hp⟩ := List.dropPrefix?_eq_some_iff.1 hd
        obtain ⟨d, hd, rfl⟩ := Option.map_eq_some_iff.1 (okOr_eq_ok.1 h)
        rw [eq_of_beq hp, parsePack_eq_some_iff.1 hd]
        exact ⟨rfl, trivial⟩
      · split at h
        · rename_i fields hd
          obtain ⟨p, rfl, hp⟩ := List.dropPrefix?_eq_some_iff.1 hd
          obtain ⟨d, hd, rfl⟩ := Option.map_eq_some_iff.1 (okOr_eq_ok.1 h)
          obtain ⟨hlen, rfl⟩ := parsePart_eq_some_iff.1 hd
          rw [eq_of_beq hp]
          exact ⟨rfl, hlen⟩
        · cases h
  · rintro ⟨rfl, hlen⟩
    cases c with
    | body digest =>
      rw [parse, display, List.dropPrefix?_append_of_beq _ (BEq.refl BODY)]
      exact okOr_eq_ok.2 (Option.map_eq_some_iff.2 ⟨digest, hex32_eq_some_iff.2 rfl, rfl⟩)
    | pack id len =>
      have hbody : (display (pack id len)).dropPrefix? BODY = none := rfl
      rw [parse, hbody, display, List.dropPrefix?_append_of_beq _ (BEq.refl PACK)]
      exact okOr_eq_ok.2 (Option.map_eq_some_iff.2 ⟨(id, len), parsePack_eq_some_iff.2 rfl, rfl⟩)
    | part p =>
      have hbody : (display (part p)).dropPrefix? BODY = none := rfl
      have hpack : (display (part p)).dropPrefix? PACK = none := rfl
      rw [parse, hbody, hpack, display, List.dropPrefix?_append_of_beq _ (BEq.refl PART)]
      exact okOr_eq_ok.2
        (Option.map_eq_some_iff.2 ⟨p, parsePart_eq_some_iff.2 ⟨hlen, rfl⟩, rfl⟩)

end ContentCommitment

end Mkit.WriteAuth
