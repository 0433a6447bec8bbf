import Mathlib.Data.List.Lex
import Mkit.Lib.Wire

/-!
# Digests and the Hash Function

A `Hash` is a 32-byte BLAKE3 digest. The hash function itself is not part of the
repository: it enters as a value of `Blake3`, which bundles the one-shot function with the
incremental hasher and the law that ties them together — feeding a hasher piece by piece
gives the digest of the concatenation.

Collision freedom is always assumed on an explicit set of byte strings
(`CollisionFreeOn`), the ones a statement's computations really hash. No function from all
byte strings to 32-byte digests is injective, so an unrestricted assumption would be empty;
on a finite set it is satisfiable, and it is implied by the unrestricted one.
-/

namespace Mkit

/-- Byte strings. -/
abbrev Bytes := List UInt8

/-- A fixed-size byte array `[u8; N]`. -/
structure ByteArr (n : ℕ) where
  /-- The bytes, in order. -/
  bytes : Bytes
  /-- There are exactly `n` of them. -/
  length_bytes : bytes.length = n
deriving DecidableEq

attribute [simp] ByteArr.length_bytes

/-- Arrays of one size are equal when their bytes are. -/
@[ext] theorem ByteArr.ext {n : ℕ} {a b : ByteArr n} (h : a.bytes = b.bytes) : a = b := by
  cases a
  cases b
  simpa using h

/-- The array of `n` copies of one byte, `[b; N]`. -/
def ByteArr.fill (n : ℕ) (b : UInt8) : ByteArr n :=
  ⟨List.replicate n b, List.length_replicate⟩

/-- The first `n` bytes of a string, padded with zero bytes when it is shorter. -/
def ByteArr.pad (n : ℕ) (bs : Bytes) : ByteArr n :=
  ⟨(bs ++ List.replicate n 0).take n, by simp⟩

/-- Bytes are ordered as numbers. -/
instance instLinearOrderByte : LinearOrder UInt8 where
  le_refl := UInt8.le_refl
  le_trans := fun _ _ _ => UInt8.le_trans
  lt_iff_le_not_ge := fun a b => by
    rw [UInt8.lt_iff_toNat_lt, UInt8.le_iff_toNat_le, UInt8.le_iff_toNat_le]
    omega
  le_antisymm := fun _ _ => UInt8.le_antisymm
  le_total := UInt8.le_total
  toDecidableLE := inferInstance
  toDecidableLT := inferInstance
  toDecidableEq := inferInstance
  compare_eq_compareOfLessAndEq := fun _ _ => rfl

/-- Byte arrays are compared lexicographically, as slices are. -/
instance (n : ℕ) : LinearOrder (ByteArr n) :=
  LinearOrder.lift' ByteArr.bytes fun _ _ h => ByteArr.ext h

theorem ByteArr.lt_def {n : ℕ} (a b : ByteArr n) : a < b ↔ a.bytes < b.bytes := Iff.rfl

/-- Read a fixed-size array, or fail with `eof` when too few bytes remain. -/
def ByteArr.read {ε : Type} (eof : ε) (n : ℕ) : Wire.Parser ε (ByteArr n) := fun inp =>
  if h : inp.length < n then .error eof
  else .ok (⟨inp.take n, by rw [List.length_take]; omega⟩, inp.drop n)

/-- A fixed-size array is read from its own bytes. -/
theorem ByteArr.parses_read {ε : Type} (eof : ε) (n : ℕ) :
    Wire.Parses (ByteArr.read eof n) (fun a bs => bs = a.bytes) := by
  intro inp a rest
  rw [ByteArr.read]
  by_cases hn : inp.length < n
  · rw [dif_pos hn]
    constructor
    · rintro ⟨⟩
    · rintro ⟨bs, rfl, rfl⟩
      rw [List.length_append, a.length_bytes] at hn
      omega
  · rw [dif_neg hn]
    simp only [Except.ok.injEq, Prod.mk.injEq]
    constructor
    · rintro ⟨rfl, rfl⟩
      exact ⟨inp.take n, rfl, (List.take_append_drop n inp).symm⟩
    · rintro ⟨bs, rfl, rfl⟩
      have hl := a.length_bytes
      refine ⟨ByteArr.ext ?_, ?_⟩
      · exact List.take_left' hl
      · exact List.drop_left' hl

/-- Length of a BLAKE3 digest. -/
def HASH_LEN : ℕ := 32

/-- A BLAKE3 digest. -/
abbrev Hash := ByteArr HASH_LEN

instance : LawfulBEq Bytes := inferInstance

instance : LawfulBEq Hash := inferInstance

instance : IsTrans Hash (· ≤ ·) := inferInstance

instance : Std.Antisymm (α := Hash) (· ≤ ·) := inferInstance

instance : Std.Total (α := Hash) (· ≤ ·) := inferInstance

@[simp] theorem length_flatMap_bytes (l : List Hash) :
    (l.flatMap ByteArr.bytes).length = l.length * 32 := by
  induction l with
  | nil => rfl
  | cons h l ih =>
    rw [List.flatMap_cons, List.length_append, h.length_bytes, ih, List.length_cons, HASH_LEN]
    omega

/-- The all-zero digest, the "absent" sentinel. -/
def ZERO : Hash := ByteArr.fill HASH_LEN 0

/-- The BLAKE3 implementation the code is built on: a one-shot function and an incremental
hasher that agree. -/
structure Blake3 where
  /-- The state of an incremental hasher. -/
  Hasher : Type
  /-- A fresh hasher. -/
  new : Hasher
  /-- Absorb a chunk of input. -/
  update : Hasher → Bytes → Hasher
  /-- Finalise into a digest. -/
  finalize : Hasher → Hash
  /-- Hash in one shot. -/
  hash : Bytes → Hash
  /-- Hashing piece by piece is hashing the concatenation. -/
  finalize_update : ∀ parts : List Bytes,
    finalize (parts.foldl update new) = hash parts.flatten

/-- No two byte strings of `S` have the same digest. -/
def CollisionFreeOn (B : Blake3) (S : Set Bytes) : Prop :=
  Set.InjOn B.hash S

/-- Collision freedom on the members of a list can be evaluated. -/
instance (B : Blake3) (L : List Bytes) : Decidable (CollisionFreeOn B {x | x ∈ L}) :=
  decidable_of_iff (∀ x ∈ L, ∀ y ∈ L, B.hash x = B.hash y → x = y)
    ⟨fun h x hx y hy => h x hx y hy, fun h _ hx _ hy => h hx hy⟩

/-- The concrete hash function behind a plain function on byte strings: the hasher keeps
what it has absorbed. -/
def Blake3.ofFun (f : Bytes → Hash) : Blake3 where
  Hasher := Bytes
  new := []
  update := fun s p => s ++ p
  finalize := f
  hash := f
  finalize_update := by
    intro parts
    have h : ∀ (acc : Bytes), parts.foldl (fun s p => s ++ p) acc = acc ++ parts.flatten := by
      induction parts with
      | nil => simp
      | cons p parts ih =>
        intro acc
        rw [List.foldl_cons, ih, List.flatten_cons, List.append_assoc]
    rw [h, List.nil_append]

/-- A toy digest for evaluated instances: the input as a number to base 257, truncated. -/
def toyDigest (bs : Bytes) : Hash :=
  ⟨Wire.leBytes HASH_LEN (bs.foldl (fun n b => n * 257 + b.toNat + 1) 0),
    Wire.length_leBytes _ _⟩

/-- A hash function for evaluated instances. -/
def toyBlake3 : Blake3 :=
  Blake3.ofFun toyDigest

/-- `BLAKE3(len_le16(domain) ‖ domain ‖ body)`. Domains are fixed constants, so the `u16`
length never overflows; `none` is the panic it would be. -/
def domainDigest (B : Blake3) (domain body : Bytes) : Option Hash :=
  if domain.length < 2 ^ 16 then
    let h := B.new
    let h := B.update h (Wire.leBytes 2 domain.length)
    let h := B.update h domain
    let h := B.update h body
    some (B.finalize h)
  else none

/-- The byte string `domainDigest` hashes. -/
def domainPreimage (domain body : Bytes) : Bytes :=
  Wire.leBytes 2 domain.length ++ domain ++ body

/-- The streaming form of `domainDigest` is the hash of its preimage. -/
theorem domainDigest_eq {B : Blake3} {domain : Bytes} (body : Bytes) (h : domain.length < 2 ^ 16) :
    domainDigest B domain body = some (B.hash (domainPreimage domain body)) := by
  have hl := B.finalize_update [Wire.leBytes 2 domain.length, domain, body]
  simp only [List.foldl_cons, List.foldl_nil, List.flatten_cons, List.flatten_nil,
    List.append_nil] at hl
  rw [domainDigest, if_pos h, domainPreimage, List.append_assoc, ← hl]

/-- The length prefix makes the pair `(domain, body)` unambiguous. -/
theorem domainPreimage_inj {d₁ d₂ b₁ b₂ : Bytes} (h₁ : d₁.length < 2 ^ 16)
    (h₂ : d₂.length < 2 ^ 16) (h : domainPreimage d₁ b₁ = domainPreimage d₂ b₂) :
    d₁ = d₂ ∧ b₁ = b₂ := by
  rw [domainPreimage, domainPreimage, List.append_assoc, List.append_assoc] at h
  obtain ⟨hl, hr⟩ := List.append_inj h (by simp)
  have hlen : d₁.length = d₂.length := Wire.leBytes_inj (by simpa using h₁) (by simpa using h₂) hl
  exact List.append_inj hr hlen

/-! ### Hex -/

/-- Length of a digest in hex. -/
def HEX_LEN : ℕ := 64

/-- The lowercase hex digits. -/
def HEX : Bytes :=
  [0x30, 0x31, 0x32, 0x33, 0x34, 0x35, 0x36, 0x37, 0x38, 0x39, 0x61, 0x62, 0x63, 0x64, 0x65,
    0x66]

/-- The two hex digits of a byte. -/
def hexByte (b : UInt8) : Bytes :=
  [HEX.getD (b >>> 4).toNat 0, HEX.getD (b &&& 0x0f).toNat 0]

/-- Render a digest as lowercase hex. -/
def toHex (h : Hash) : Bytes :=
  h.bytes.flatMap hexByte

/-- A hex digit of either case. -/
def hexNibble (b : UInt8) : Option UInt8 :=
  if 0x30 ≤ b ∧ b ≤ 0x39 then some (b - 0x30)
  else if 0x61 ≤ b ∧ b ≤ 0x66 then some (10 + (b - 0x61))
  else if 0x41 ≤ b ∧ b ≤ 0x46 then some (10 + (b - 0x41))
  else none

/-- A lowercase hex digit. -/
def lowercaseNibble (b : UInt8) : Option UInt8 :=
  if 0x30 ≤ b ∧ b ≤ 0x39 then some (b - 0x30)
  else if 0x61 ≤ b ∧ b ≤ 0x66 then some (10 + (b - 0x61))
  else none

/-- Join the nibbles of a hex string two by two. -/
def joinNibbles (nibble : UInt8 → Option UInt8) : Bytes → Option Bytes
  | hi :: lo :: rest => do
    let hi ← nibble hi
    let lo ← nibble lo
    let out ← joinNibbles nibble rest
    some ((hi <<< 4 ||| lo) :: out)
  | [] => some []
  | [_] => none

/-- Parse exactly `HEX_LEN` hex digits; `fromHex` and `parseLowercaseHash` differ in the
digits they know. -/
def parseHex (nibble : UInt8 → Option UInt8) (s : Bytes) : Option Hash :=
  if s.length = HEX_LEN then do
    let out ← joinNibbles nibble s
    if h : out.length = HASH_LEN then some ⟨out, h⟩ else none
  else none

/-- Parse a digest in hex of either case. -/
def fromHex (s : Bytes) : Option Hash :=
  parseHex hexNibble s

/-- Parse a digest in lowercase hex. -/
def parseLowercaseHash (s : Bytes) : Option Hash :=
  parseHex lowercaseNibble s

@[simp] theorem length_flatMap_hexByte (bs : Bytes) :
    (bs.flatMap hexByte).length = 2 * bs.length := by
  induction bs with
  | nil => rfl
  | cons b bs ih =>
    rw [List.flatMap_cons, List.length_append, ih, List.length_cons, hexByte]
    simp only [List.length_cons, List.length_nil]
    omega

@[simp] theorem length_toHex (h : Hash) : (toHex h).length = HEX_LEN := by
  rw [toHex, length_flatMap_hexByte, h.length_bytes]
  rfl

/-- Both parsers read a byte back from its two digits. -/
theorem joinNibbles_hexByte (b : UInt8) : joinNibbles lowercaseNibble (hexByte b) = some [b] ∧
      joinNibbles hexNibble (hexByte b) = some [b] := by
  have h : ∀ n : Fin 256,
      joinNibbles lowercaseNibble (hexByte (UInt8.ofNat n)) = some [UInt8.ofNat n] ∧
        joinNibbles hexNibble (hexByte (UInt8.ofNat n)) = some [UInt8.ofNat n] := by
    decide +kernel
  have hb := h ⟨b.toNat, b.toNat_lt⟩
  rwa [UInt8.ofNat_toNat] at hb

/-- A parser that reads every byte back reads every byte string back. -/
theorem joinNibbles_flatMap {nibble : UInt8 → Option UInt8}
    (h : ∀ b, joinNibbles nibble (hexByte b) = some [b]) (bs : Bytes) :
    joinNibbles nibble (bs.flatMap hexByte) = some bs := by
  induction bs with
  | nil => rfl
  | cons b bs ih =>
    have hb := h b
    rw [List.flatMap_cons]
    simp only [hexByte, joinNibbles, Option.bind_eq_bind, Option.bind_eq_some_iff,
      Option.some.injEq, List.cons.injEq] at hb
    obtain ⟨hi, hhi, lo, hlo, out, rfl, heq, -⟩ := hb
    simp only [hexByte, List.cons_append, List.nil_append, joinNibbles, hhi, hlo, ih,
      Option.bind_eq_bind, Option.bind_some, heq]

/-- Hex written by `toHex` is read back. -/
theorem parseHex_toHex {nibble : UInt8 → Option UInt8}
    (h : ∀ b, joinNibbles nibble (hexByte b) = some [b]) (x : Hash) :
    parseHex nibble (toHex x) = some x := by
  rw [parseHex, if_pos (length_toHex x), toHex, joinNibbles_flatMap h]
  exact dif_pos x.length_bytes

theorem fromHex_toHex (x : Hash) : fromHex (toHex x) = some x :=
  parseHex_toHex (fun b => (joinNibbles_hexByte b).2) x

theorem parseLowercaseHash_toHex (x : Hash) : parseLowercaseHash (toHex x) = some x :=
  parseHex_toHex (fun b => (joinNibbles_hexByte b).1) x

/-- A nibble is read from its own digit. -/
theorem lowercaseNibble_eq_some {b n : UInt8} (h : lowercaseNibble b = some n) :
    n < 16 ∧ HEX.getD n.toNat 0 = b := by
  -- `all` keeps the test to the one digit read, where `∀ n ∈` would try every byte
  have hall : ∀ k : Fin 256, ((lowercaseNibble (UInt8.ofNat k)).all fun n =>
      n < 16 && HEX.getD n.toNat 0 == UInt8.ofNat k) = true := by
    decide +kernel
  have hb := hall ⟨b.toNat, b.toNat_lt⟩
  rw [UInt8.ofNat_toNat, h, Option.all_some, Bool.and_eq_true, decide_eq_true_eq,
    beq_iff_eq] at hb
  exact hb

theorem hexByte_joined {hi lo : UInt8} (hhi : hi < 16) (hlo : lo < 16) :
    hexByte (hi <<< 4 ||| lo) = [HEX.getD hi.toNat 0, HEX.getD lo.toNat 0] := by
  have hall : ∀ a b : Fin 16, hexByte (UInt8.ofNat a <<< 4 ||| UInt8.ofNat b) =
      [HEX.getD (UInt8.ofNat a).toNat 0, HEX.getD (UInt8.ofNat b).toNat 0] := by
    decide +kernel
  have h := hall ⟨hi.toNat, UInt8.lt_iff_toNat_lt.1 hhi⟩ ⟨lo.toNat, UInt8.lt_iff_toNat_lt.1 hlo⟩
  rwa [UInt8.ofNat_toNat, UInt8.ofNat_toNat] at h

/-- Bytes joined from lowercase digits are rendered as these digits. -/
theorem flatMap_hexByte_of_joinNibbles {s out : Bytes}
    (h : joinNibbles lowercaseNibble s = some out) : out.flatMap hexByte = s := by
  induction s using joinNibbles.induct generalizing out with
  | case1 hi lo rest ih =>
    simp only [joinNibbles, Option.bind_eq_bind, Option.bind_eq_some_iff,
      Option.some.injEq] at h
    obtain ⟨a, ha, b, hb, bs, hbs, rfl⟩ := h
    obtain ⟨ha16, ha⟩ := lowercaseNibble_eq_some ha
    obtain ⟨hb16, hb⟩ := lowercaseNibble_eq_some hb
    rw [List.flatMap_cons, hexByte_joined ha16 hb16, ha, hb, ih hbs]
    rfl
  | case2 =>
    rw [← Option.some.inj h]
    rfl
  | case3 b => cases h

/-- The lowercase parser reads exactly what is rendered. -/
theorem parseLowercaseHash_eq_some_iff {s : Bytes} {h : Hash} :
    parseLowercaseHash s = some h ↔ s = toHex h := by
  refine ⟨fun hs => ?_, fun hs => by rw [hs, parseLowercaseHash_toHex]⟩
  rw [parseLowercaseHash, parseHex] at hs
  split_ifs at hs with hlen
  rw [Option.bind_eq_bind, Option.bind_eq_some_iff] at hs
  obtain ⟨out, hout, hs⟩ := hs
  split_ifs at hs with hout'
  rw [← Option.some.inj hs]
  exact (flatMap_hexByte_of_joinNibbles hout).symm

/-- Rendered digests are made of hex digits. -/
theorem mem_HEX_of_mem_toHex {x : Hash} {b : UInt8} (h : b ∈ toHex x) : b ∈ HEX := by
  have hall : ∀ n : Fin 256, (hexByte (UInt8.ofNat n)).all (HEX.contains ·) = true := by
    decide +kernel
  obtain ⟨c, -, hc⟩ := List.mem_flatMap.1 h
  have hdigits := hall ⟨c.toNat, c.toNat_lt⟩
  rw [UInt8.ofNat_toNat] at hdigits
  exact List.contains_iff_mem.1 (List.all_eq_true.1 hdigits b hc)

end Mkit
