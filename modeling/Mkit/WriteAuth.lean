import Mkit.ContentCommitment

/-!
# Signed Requests

The destination-bound signed request, version 2. Seven fields are written into one
newline-joined text, the text is hashed and the digest signed; the verifier reads the fields
back from headers, checks them against what it trusts and only then the signature.

* `Operation.canonical_injective` — the canonical text determines the operation.
* `verifyHeadersWith_eq_ok` — what an accepted request is known to satisfy.
* `signed_requests_unambiguous` — the two, with the parser of commitments and the replay scope.

The signature scheme is a parameter.
-/

namespace Mkit.WriteAuth

open Server (isHex)

/-- Domain and version. -/
def DOMAIN : Bytes := ascii "mkit-write:v2".toList

/-- Maximum validity interval. -/
def MAX_VALIDITY_MS : Int64 := 300000

/-- Maximum permitted clock lead of the sender. -/
def MAX_CLOCK_LEAD_MS : Int64 := 30000

/-- `i64::checked_sub`. -/
def checkedSub (a b : Int64) : Option Int64 :=
  let d := a.toInt - b.toInt
  if -2 ^ 63 ≤ d ∧ d < 2 ^ 63 then some (Int64.ofInt d) else none

/-- `i64::saturating_add`. -/
def saturatingAdd (a b : Int64) : Int64 :=
  Int64.ofIntClamp (a.toInt + b.toInt)

/-- Visible ASCII of bounded length. -/
def component (value : Bytes) (max : ℕ) : Bool :=
  !value.isEmpty && value.length ≤ max && value.all fun b => 0x21 ≤ b && b ≤ 0x7e

/-! ### The addresses of the standard library -/

/-- `char::to_digit`. -/
def toDigit (radix : ℕ) (b : UInt8) : Option ℕ :=
  let digit :=
    if 0x30 ≤ b && b ≤ 0x39 then some (b.toNat - 0x30)
    else if 0x61 ≤ b && b ≤ 0x7a then some (b.toNat - 0x61 + 10)
    else if 0x41 ≤ b && b ≤ 0x5a then some (b.toNat - 0x41 + 10)
    else none
  digit.filter (· < radix)

/-- The digits in front of a text: their value, their number and the rest. -/
def readDigits (radix maxDigits : ℕ) : Bytes → ℕ → ℕ → Option (ℕ × ℕ × Bytes)
  | [], result, count => some (result, count, [])
  | b :: rest, result, count =>
    match toDigit radix b with
    | none => some (result, count, b :: rest)
    | some digit =>
      if count + 1 > maxDigits then none
      else readDigits radix maxDigits rest (result * radix + digit) (count + 1)

/-- `Parser::read_number` into a type with values below `bound`. -/
def readNumber (radix maxDigits : ℕ) (allowZeroPrefix : Bool) (bound : ℕ) (input : Bytes) :
    Option (ℕ × Bytes) := do
  let (result, count, rest) ← readDigits radix maxDigits input 0 0
  if count = 0 then none
  else if !allowZeroPrefix && input.head? = some 0x30 && count > 1 then none
  else if result < bound then some (result, rest)
  else none

/-- `Parser::read_separator`: every element but the first has the separator before it. -/
def readSeparator {α : Type} (sep : UInt8) (index : ℕ) (inner : Bytes → Option (α × Bytes))
    (input : Bytes) : Option (α × Bytes) :=
  if index > 0 then
    match input with
    | b :: rest => if b = sep then inner rest else none
    | [] => none
  else inner input

/-- The last `left` octets of an IPv4 address. -/
def readOctets : ℕ → ℕ → Bytes → Option (List ℕ × Bytes)
  | 0, _, input => some ([], input)
  | left + 1, i, input => do
    let (octet, rest) ← readSeparator 0x2e i (readNumber 10 3 false 256) input
    let (octets, rest) ← readOctets left (i + 1) rest
    some (octet :: octets, rest)

/-- `Parser::read_ipv4_addr`, as two groups of an IPv6 address. -/
def readIpv4Addr (input : Bytes) : Option (List ℕ × Bytes) := do
  let (octets, rest) ← readOctets 4 0 input
  match octets with
  | [one, two, three, four] => some ([one * 256 + two, three * 256 + four], rest)
  | _ => none

/-- `read_groups`: at most `left` more groups, and whether the last two were an IPv4 address. -/
def readGroups : ℕ → ℕ → Bytes → List ℕ × Bool × Bytes
  | 0, _, input => ([], false, input)
  | left + 1, i, input =>
    match if 0 < left then readSeparator COLON i readIpv4Addr input else none with
    | some (groups, rest) => (groups, true, rest)
    | none =>
      match readSeparator COLON i (readNumber 16 4 true 65536) input with
      | none => ([], false, input)
      | some (group, rest) =>
        let (groups, ipv4, rest) := readGroups left (i + 1) rest
        (group :: groups, ipv4, rest)

/-- `Parser::read_ipv6_addr`. -/
def readIpv6Addr (input : Bytes) : Option (List ℕ × Bytes) :=
  let (head, headIpv4, rest) := readGroups 8 0 input
  if head.length = 8 then some (head, rest)
  else if headIpv4 then none
  else
    match rest with
    | 0x3a :: 0x3a :: rest =>
      let (tail, _, rest) := readGroups (8 - (head.length + 1)) 0 rest
      some (head ++ List.replicate (8 - head.length - tail.length) 0 ++ tail, rest)
    | _ => none

/-- `str::parse::<Ipv6Addr>`. -/
def parseIpv6Addr (input : Bytes) : Option (List ℕ) :=
  match readIpv6Addr input with
  | some (groups, []) => some groups
  | _ => none

/-! ### Origins -/

/-- `https://`. -/
def HTTPS : Bytes := ascii "https://".toList

/-- `http://`. -/
def HTTP : Bytes := ascii "http://".toList

/-- The scheme of an origin fixes its default port. -/
def splitScheme (value : Bytes) : Except AuthError (Bytes × Bytes) :=
  match value.dropPrefix? HTTPS with
  | some authority => .ok (authority, ascii "443".toList)
  | none =>
    match value.dropPrefix? HTTP with
    | some authority => .ok (authority, ascii "80".toList)
    | none => .error ⟨"audience must be a canonical HTTP(S) origin"⟩

/-- Host and port of an authority whose host is in brackets. -/
def splitBracketed (authority : Bytes) : Except AuthError (Bytes × Option Bytes) := do
  let close ← okOr ⟨"invalid audience IPv6 host"⟩ (authority.findIdx? (· == 0x5d))
  let host := authority.take (close + 1)
  let _ ← okOr ⟨"invalid audience IPv6 host"⟩ (parseIpv6Addr (host.dropLast.drop 1))
  let suffix := authority.drop (close + 1)
  if suffix = [] then .ok (host, none)
  else do
    let port ← okOr ⟨"invalid audience port"⟩ (suffix.dropPrefix? [COLON])
    .ok (host, some port)

/-- Host and port of an authority whose host is a name. -/
def splitNamed (authority : Bytes) : Except AuthError (Bytes × Option Bytes) := do
  let (host, port) :=
    match Text.splitOnce COLON authority with
    | none => (authority, none)
    | some (host, port) => (host, some port)
  refuseIf (host = [] ∨ host.getLast? = some 0x2e ∨
    ¬ host.all fun b => (0x61 ≤ b && b ≤ 0x7a) || (0x30 ≤ b && b ≤ 0x39) || b == 0x2e || b == 0x2d)
    ⟨"invalid audience host"⟩
  .ok (host, port)

/-- Validate the canonical deployment origin. -/
def validateAudience (value : Bytes) : Except AuthError Unit := do
  let (authority, defaultPort) ← splitScheme value
  refuseIf (¬ component value 512 ∨ authority = [] ∨
    authority.any fun b => (0x41 ≤ b && b ≤ 0x5a) || (ascii ['/', '@', '?', '#', '\\']).contains b)
    ⟨"noncanonical audience"⟩
  let (host, port) ←
    if authority.head? = some 0x5b then splitBracketed authority else splitNamed authority
  refuseIf (host = []) ⟨"invalid audience host"⟩
  match port with
  | none => .ok ()
  | some port => do
    let parsed ← okOr ⟨"invalid audience port"⟩ (Text.parseU16 port)
    refuseIf (parsed = 0 ∨ port = defaultPort ∨ Text.decimal parsed.toNat ≠ port)
      ⟨"noncanonical audience port"⟩

/-! ### Operations -/

/-- Trusted server identity. -/
@[ext] structure Context where
  audience : Bytes
  repository : Bytes
deriving DecidableEq

/-- Fields authenticated by a request signature. -/
structure Operation where
  context : Context
  procedure : Bytes
  commitment : Bytes
  createdAt : Int64
  expiresAt : Int64
  nonce : Bytes
deriving DecidableEq

/-- The signature scheme the code is built on. -/
structure Ed25519 where
  /-- A decompressed public key. -/
  VerifyingKey : Type
  fromBytes : ByteArr 32 → Option VerifyingKey
  verifyStrict : VerifyingKey → Hash → ByteArr 64 → Bool

namespace Operation

/-- The lines of the canonical text. -/
def fields (op : Operation) : List Bytes :=
  [DOMAIN, op.context.audience, op.context.repository, op.procedure, op.commitment,
    Text.i64.toString op.createdAt, Text.i64.toString op.expiresAt, op.nonce]

/-- Encode all authenticated fields in the canonical order. -/
def canonical (op : Operation) : Except AuthError Bytes := do
  validateAudience op.context.audience
  refuseIf (¬ component op.context.repository 255 ∨ ¬ component op.procedure 512 ∨
    op.procedure.head? ≠ some SLASH ∨ ¬ isHex op.nonce 32)
    ⟨"invalid repository, procedure or nonce"⟩
  refuseIf (op.createdAt < 0 ∨ op.expiresAt ≤ op.createdAt ∨
    (checkedSub op.expiresAt op.createdAt).all (MAX_VALIDITY_MS < ·))
    ⟨"invalid validity interval"⟩
  let _ ← ContentCommitment.parse op.commitment
  .ok ([NEWLINE].intercalate op.fields)

variable (B : Blake3) (E : Ed25519)

/-- Digest signed with plain Ed25519. -/
def digest (op : Operation) : Except AuthError Hash := do
  let text ← op.canonical
  .ok (B.hash text)

/-- Validate destination, time and signature. -/
def verify (op : Operation) (expected : Context) (now : Int64) (publicKey : ByteArr 32)
    (signature : ByteArr 64) : Except AuthError Unit := do
  let digest ← op.digest B
  refuseIf (op.context.audience ≠ expected.audience ∨ op.context.repository ≠ expected.repository)
    ⟨"request audience or repository mismatch"⟩
  refuseIf (now < 0 ∨ saturatingAdd now MAX_CLOCK_LEAD_MS < op.createdAt ∨ op.expiresAt < now)
    ⟨"expired or future authorization"⟩
  let key ← okOr ⟨"invalid public key"⟩ (E.fromBytes publicKey)
  refuseIf (¬ E.verifyStrict key digest signature) ⟨"invalid signature"⟩

end Operation

/-! ### Headers -/

/-- Transport-independent header values. -/
structure Headers where
  version : Option Bytes
  audience : Option Bytes
  repository : Option Bytes
  publicKey : Option Bytes
  signature : Option Bytes
  digest : Option Bytes
  commitment : Option Bytes
  createdAt : Option Bytes
  expiresAt : Option Bytes
  idempotencyKey : Option Bytes
deriving DecidableEq

/-- Validated identity and operation binding. -/
structure Authorized where
  /-- Destination, repository, signer and nonce: the replay namespace. -/
  scope : Bytes
  publicKey : Bytes
  nonce : Bytes
  /-- Digest of all authenticated operation fields. -/
  fingerprint : Bytes
  commitment : Bytes
  expiresAt : Int64
deriving DecidableEq

/-- What a verifier expects the signed content commitment to be. -/
inductive ExpectedCommitment where
  /-- Unary: exactly this text. -/
  | exact (text : Bytes)
  /-- Any well-formed `pack:`. -/
  | packStream
  /-- Any well-formed `part:`. -/
  | partStream
deriving DecidableEq

/-- A header that holds a canonical decimal. -/
def decimal (value : Option Bytes) : Except AuthError Int64 := do
  let value ← okOr ⟨"missing validity header"⟩ value
  let number ← okOr ⟨"invalid validity header"⟩ (Text.i64.fromStr value)
  refuseIf (Text.i64.toString number ≠ value) ⟨"noncanonical validity header"⟩
  .ok number

/-- The value of a lowercase hex digit. -/
def nibble (b : UInt8) : UInt8 :=
  if 0x30 ≤ b && b ≤ 0x39 then b - 0x30 else b - 0x61 + 10

/-- The bytes of a text of hex digits, two by two. -/
def joinPairs : Bytes → Bytes
  | hi :: lo :: rest => (nibble hi * 16 + nibble lo) :: joinPairs rest
  | _ => []

theorem length_joinPairs (s : Bytes) : (joinPairs s).length = s.length / 2 := by
  fun_induction joinPairs s with
  | case1 hi lo rest ih =>
    rw [List.length_cons, ih, List.length_cons, List.length_cons]
    omega
  | case2 s h =>
    match s, h with
    | [], _ => rfl
    | [b], _ => simp
    | hi :: lo :: rest, h => exact absurd rfl (h hi lo rest)

theorem length_of_isHex {value : Bytes} {n : ℕ} (h : isHex value n = true) :
    (joinPairs value).length = n := by
  rw [isHex, Bool.and_eq_true, beq_iff_eq] at h
  rw [length_joinPairs, h.1]
  omega

/-- A header that holds `n` bytes in hex. -/
def decodeHex (n : ℕ) (value : Option Bytes) : Except AuthError (ByteArr n) := do
  let value ← okOr ⟨"missing signature header"⟩ value
  if h : isHex value n = true then
    .ok ⟨joinPairs value, length_of_isHex h⟩
  else .error ⟨"noncanonical signature header"⟩

/-- A header that must be there. -/
def required (value : Option Bytes) : Except AuthError Bytes :=
  okOr ⟨"missing auth v2 header"⟩ value

/-- The commitment header against what the verifier expects. -/
def ExpectedCommitment.check (expected : ExpectedCommitment) (text : Bytes)
    (digest : Option Bytes) : Except AuthError Unit :=
  match expected with
  | .exact expected => do
    refuseIf (text ≠ expected) ⟨"content commitment mismatch"⟩
    match expected.dropPrefix? BODY with
    | some body => refuseIf (digest ≠ some body) ⟨"body digest mismatch"⟩
    | none => .ok ()
  | .packStream =>
    refuseIf (¬ PACK.isPrefixOf text) ⟨"stream requires a pack commitment"⟩
  | .partStream =>
    refuseIf (¬ PART.isPrefixOf text) ⟨"stream requires a part commitment"⟩

/-- The text a replay scope is the digest of. -/
def scopeText (expected : Context) (publicKey nonce : Bytes) : Bytes :=
  [NEWLINE].intercalate [expected.audience, expected.repository, publicKey, nonce]

/-- Verify adapter headers against deployment-owned context and actual content. -/
def verifyHeadersWith (B : Blake3) (E : Ed25519) (expected : Context) (procedure : Bytes)
    (commitment : ExpectedCommitment) (now : Int64) (headers : Headers) :
    Except AuthError Authorized := do
  refuseIf (headers.version ≠ some (ascii ['2'])) ⟨"auth v2 required"⟩
  let operation : Operation := {
    context := {
      audience := ← required headers.audience
      repository := ← required headers.repository
    }
    procedure := procedure
    commitment := ← required headers.commitment
    createdAt := ← decimal headers.createdAt
    expiresAt := ← decimal headers.expiresAt
    nonce := ← required headers.idempotencyKey
  }
  commitment.check operation.commitment headers.digest
  let publicKey ← decodeHex 32 headers.publicKey
  let signature ← decodeHex 64 headers.signature
  operation.verify B E expected now publicKey signature
  let publicKey ← required headers.publicKey
  let digest ← operation.digest B
  .ok {
    scope := toHex (B.hash (scopeText expected publicKey operation.nonce))
    publicKey := publicKey
    nonce := operation.nonce
    fingerprint := toHex digest
    commitment := operation.commitment
    expiresAt := operation.expiresAt
  }

/-! ### Lines -/

theorem toHex_injective : Function.Injective toHex := fun h h' heq => by
  have hparse := parseLowercaseHash_toHex h
  rw [heq, parseLowercaseHash_toHex] at hparse
  exact (Option.some.inj hparse).symm

theorem newline_notMem_of_component {value : Bytes} {max : ℕ} (h : component value max = true) :
    NEWLINE ∉ value := fun hmem => by
  rw [component, Bool.and_eq_true, List.all_eq_true] at h
  exact absurd (h.2 NEWLINE hmem) (by decide)

theorem newline_notMem_of_isHex {value : Bytes} {n : ℕ} (h : isHex value n = true) :
    NEWLINE ∉ value := fun hmem => by
  rw [isHex, Bool.and_eq_true, List.all_eq_true] at h
  exact absurd (h.2 NEWLINE hmem) (by decide)

theorem newline_notMem_toHex (h : Hash) : NEWLINE ∉ toHex h :=
  newline_notMem_of_isHex (isHex_toHex h)

theorem newline_notMem_decimal (n : ℕ) : NEWLINE ∉ Text.decimal n := fun hmem => by
  have hb := ((Text.decimal_spec n).2 NEWLINE hmem).1
  rw [show NEWLINE.toNat = 0x0a from rfl] at hb
  omega

theorem newline_notMem_i64 (n : Int64) : NEWLINE ∉ Text.i64.toString n := fun hmem => by
  have hb := Text.mem_decimalI64 hmem
  rw [show NEWLINE.toNat = 0x0a from rfl] at hb
  omega

/-- A commitment is one line. -/
theorem newline_notMem_display (c : ContentCommitment) : NEWLINE ∉ c.display := by
  cases c with
  | body digest =>
    rw [ContentCommitment.display, List.mem_append, not_or]
    exact ⟨by decide, newline_notMem_toHex digest⟩
  | pack id len =>
    simp only [ContentCommitment.display, List.mem_append, List.mem_cons, not_or]
    exact ⟨by decide, newline_notMem_toHex id, by decide, newline_notMem_decimal _⟩
  | part p =>
    simp only [ContentCommitment.display, List.intercalate_cons_cons, List.intercalate_singleton,
      List.mem_append, List.mem_singleton, not_or]
    exact ⟨by decide, ⟨⟨newline_notMem_toHex _, by decide⟩, ⟨newline_notMem_decimal _, by decide⟩,
      ⟨newline_notMem_toHex _, by decide⟩, newline_notMem_decimal _⟩⟩

/-- An origin is visible ASCII. -/
theorem component_of_validateAudience {value : Bytes} (h : validateAudience value = .ok ()) :
    component value 512 = true := by
  rw [validateAudience] at h
  obtain ⟨⟨authority, port⟩, -, h⟩ := Wire.bind_eq_ok.1 h
  have hc := (refuseIf_bind_eq_ok.1 h).1
  simp only [not_or, not_not] at hc
  exact hc.1

/-! ### Signed times -/

/-- Nothing is added beyond the sum. -/
theorem toInt_saturatingAdd_le (a : Int64) {b : Int64} (h : 0 ≤ b.toInt) :
    (saturatingAdd a b).toInt ≤ a.toInt + b.toInt := by
  have hmin : Int64.minValue.toInt ≤ a.toInt + b.toInt := by
    have := a.minValue_le_toInt
    omega
  by_cases hmax : a.toInt + b.toInt ≤ Int64.maxValue.toInt
  · rw [saturatingAdd, Int64.toInt_ofIntClamp hmin hmax]
  · rw [saturatingAdd, Int64.ofIntClamp, dif_pos hmin, dif_neg hmax]
    omega

/-- Later times after the epoch differ by a signed number. -/
theorem checkedSub_eq_some {a b : Int64} (hb : 0 ≤ b.toInt) (h : b.toInt < a.toInt) :
    ∃ d, checkedSub a b = some d ∧ d.toInt = a.toInt - b.toInt := by
  have ha := a.toInt_lt
  have hlo : -2 ^ 63 ≤ a.toInt - b.toInt := by omega
  have hhi : a.toInt - b.toInt < 2 ^ 63 := by omega
  refine ⟨Int64.ofInt (a.toInt - b.toInt), ?_, Int64.toInt_ofInt_of_le hlo hhi⟩
  rw [checkedSub]
  exact if_pos ⟨hlo, hhi⟩

namespace Operation

/-- What a canonical operation satisfies. -/
theorem canonical_eq_ok {op : Operation} {text : Bytes} (h : op.canonical = .ok text) :
    text = [NEWLINE].intercalate op.fields ∧ (∀ field ∈ op.fields, NEWLINE ∉ field) ∧
      0 < op.expiresAt.toInt - op.createdAt.toInt ∧
      op.expiresAt.toInt - op.createdAt.toInt ≤ 300000 ∧
      ∃ c, ContentCommitment.parse op.commitment = .ok c := by
  rw [canonical] at h
  obtain ⟨⟨⟩, haudience, h⟩ := Wire.bind_eq_ok.1 h
  obtain ⟨hparts, h⟩ := refuseIf_bind_eq_ok.1 h
  obtain ⟨htimes, h⟩ := refuseIf_bind_eq_ok.1 h
  obtain ⟨c, hc, h⟩ := Wire.bind_eq_ok.1 h
  simp only [not_or, not_not] at hparts
  obtain ⟨hrepository, hprocedure, -, hnonce⟩ := hparts
  simp only [not_or, Int64.le_iff_toInt_le, Int64.lt_iff_toInt_lt, Int.not_le,
    Int.not_lt] at htimes
  obtain ⟨hcreated, hexpires, hvalidity⟩ := htimes
  rw [Int64.toInt_zero] at hcreated
  obtain ⟨d, hd, hdiff⟩ := checkedSub_eq_some hcreated hexpires
  rw [hd, Option.all_some, decide_eq_true_eq, Int.not_lt,
    show MAX_VALIDITY_MS.toInt = 300000 from rfl, hdiff] at hvalidity
  refine ⟨(Except.ok.inj h).symm, ?_, by omega, hvalidity, c, hc⟩
  simp only [fields, List.forall_mem_cons, List.not_mem_nil, false_imp_iff, implies_true,
    and_true]
  rw [(ContentCommitment.parse_eq_ok_iff.1 hc).1]
  exact ⟨by decide, newline_notMem_of_component (component_of_validateAudience haudience),
    newline_notMem_of_component hrepository, newline_notMem_of_component hprocedure,
    newline_notMem_display c, newline_notMem_i64 _, newline_notMem_i64 _,
    newline_notMem_of_isHex hnonce⟩

/-- The canonical text determines the operation. -/
theorem canonical_injective {op op' : Operation} {text : Bytes} (h : op.canonical = .ok text)
    (h' : op'.canonical = .ok text) : op = op' := by
  obtain ⟨htext, hlines, -⟩ := canonical_eq_ok h
  obtain ⟨htext', hlines', -⟩ := canonical_eq_ok h'
  have hfields := Text.intercalate_injective hlines hlines' (List.cons_ne_nil _ _)
    (List.cons_ne_nil _ _) (htext.symm.trans htext')
  obtain ⟨⟨audience, repository⟩, procedure, commitment, created, expires, nonce⟩ := op
  obtain ⟨⟨audience', repository'⟩, procedure', commitment', created', expires', nonce'⟩ := op'
  simp only [fields, List.cons.injEq, true_and, and_true] at hfields
  obtain ⟨rfl, rfl, rfl, rfl, hcreated, hexpires, rfl⟩ := hfields
  rw [Text.i64.toString_injective hcreated, Text.i64.toString_injective hexpires]

variable {B : Blake3} {E : Ed25519}

/-- What a verified operation satisfies. -/
theorem verify_eq_ok {op : Operation} {expected : Context} {now : Int64} {publicKey : ByteArr 32}
    {signature : ByteArr 64} (h : op.verify B E expected now publicKey signature = .ok ()) :
    op.context = expected ∧ (∃ text, op.canonical = .ok text) ∧
      op.createdAt.toInt - 30000 ≤ now.toInt ∧ now.toInt ≤ op.expiresAt.toInt := by
  rw [verify] at h
  obtain ⟨digest, hdigest, h⟩ := Wire.bind_eq_ok.1 h
  obtain ⟨hcontext, h⟩ := refuseIf_bind_eq_ok.1 h
  obtain ⟨htimes, -⟩ := refuseIf_bind_eq_ok.1 h
  obtain ⟨text, htext, -⟩ := Wire.bind_eq_ok.1 hdigest
  simp only [not_or, not_not] at hcontext
  simp only [not_or, Int64.lt_iff_toInt_lt, Int.not_lt] at htimes
  obtain ⟨-, hlead, hexpires⟩ := htimes
  have hsat := toInt_saturatingAdd_le now (b := MAX_CLOCK_LEAD_MS) (by decide)
  rw [show MAX_CLOCK_LEAD_MS.toInt = 30000 from rfl] at hsat
  exact ⟨Context.ext hcontext.1 hcontext.2, ⟨text, htext⟩, by omega, hexpires⟩

end Operation

/-! ### Accepted requests -/

/-- A validity header holds the decimal of its value. -/
theorem decimal_eq_ok {value : Option Bytes} {number : Int64} (h : decimal value = .ok number) :
    value = some (Text.i64.toString number) := by
  rw [decimal] at h
  obtain ⟨text, htext, h⟩ := Wire.bind_eq_ok.1 h
  obtain ⟨n, -, h⟩ := Wire.bind_eq_ok.1 h
  obtain ⟨hcanonical, h⟩ := refuseIf_bind_eq_ok.1 h
  rw [← Except.ok.inj h, not_not.1 hcanonical]
  exact okOr_eq_ok.1 htext

/-- A key or signature header is one line. -/
theorem isHex_of_decodeHex {n : ℕ} {value : Option Bytes} {bytes : ByteArr n}
    (h : decodeHex n value = .ok bytes) : ∃ text, value = some text ∧ isHex text n = true := by
  rw [decodeHex] at h
  obtain ⟨text, htext, h⟩ := Wire.bind_eq_ok.1 h
  split at h
  · rename_i hhex
    exact ⟨text, okOr_eq_ok.1 htext, hhex⟩
  · cases h

/-- The commitment is the expected one, or of the kind the stream needs. -/
def ExpectedCommitment.Meets (expected : ExpectedCommitment) (text : Bytes) : Prop :=
  match expected with
  | exact expected => text = expected
  | packStream => ∃ c, ContentCommitment.parse text = .ok c ∧ c.kind = .pack
  | partStream => ∃ c, ContentCommitment.parse text = .ok c ∧ c.kind = .part

/-- A well-formed commitment that passes the check is the expected one. -/
theorem ExpectedCommitment.meets_of_check {expected : ExpectedCommitment} {text : Bytes}
    {digest : Option Bytes} {c : ContentCommitment} (h : expected.check text digest = .ok ())
    (hc : ContentCommitment.parse text = .ok c) : expected.Meets text := by
  have htext := (ContentCommitment.parse_eq_ok_iff.1 hc).1
  cases expected with
  | exact expected => exact not_not.1 (refuseIf_bind_eq_ok.1 h).1
  | packStream =>
    refine ⟨c, hc, ?_⟩
    have hpack := not_not.1 (refuseIf_eq_ok.1 h)
    rw [htext] at hpack
    cases c with
    | body digest => cases hpack
    | pack id len => rfl
    | part p => cases hpack
  | partStream =>
    refine ⟨c, hc, ?_⟩
    have hpart := not_not.1 (refuseIf_eq_ok.1 h)
    rw [htext] at hpart
    cases c with
    | body digest => cases hpart
    | pack id len => cases hpart
    | part p => rfl

variable {B : Blake3} {E : Ed25519}

/-- What an accepted request is known to satisfy: its headers are the fields of a canonical
operation for the expected destination, valid now, and the scope is the digest of its text. -/
theorem verifyHeadersWith_eq_ok {expected : Context} {procedure : Bytes}
    {commitment : ExpectedCommitment} {now : Int64} {headers : Headers} {a : Authorized}
    (h : verifyHeadersWith B E expected procedure commitment now headers = .ok a) :
    ∃ (op : Operation) (text : Bytes), op.canonical = .ok text ∧ op.context = expected ∧
      op.procedure = procedure ∧
      headers.audience = some op.context.audience ∧
      headers.repository = some op.context.repository ∧
      headers.commitment = some op.commitment ∧
      headers.createdAt = some (Text.i64.toString op.createdAt) ∧
      headers.expiresAt = some (Text.i64.toString op.expiresAt) ∧
      headers.idempotencyKey = some op.nonce ∧
      commitment.Meets op.commitment ∧
      op.createdAt.toInt - 30000 ≤ now.toInt ∧ now.toInt ≤ op.expiresAt.toInt ∧
      (∃ publicKey, headers.publicKey = some publicKey ∧ isHex publicKey 32 = true ∧
        a = {
          scope := toHex (B.hash (scopeText expected publicKey op.nonce))
          publicKey := publicKey
          nonce := op.nonce
          fingerprint := toHex (B.hash text)
          commitment := op.commitment
          expiresAt := op.expiresAt
        }) := by
  rw [verifyHeadersWith] at h
  obtain ⟨-, h⟩ := refuseIf_bind_eq_ok.1 h
  obtain ⟨audience, haudience, h⟩ := Wire.bind_eq_ok.1 h
  obtain ⟨repository, hrepository, h⟩ := Wire.bind_eq_ok.1 h
  obtain ⟨text, hcommitment, h⟩ := Wire.bind_eq_ok.1 h
  obtain ⟨created, hcreated, h⟩ := Wire.bind_eq_ok.1 h
  obtain ⟨expires, hexpires, h⟩ := Wire.bind_eq_ok.1 h
  obtain ⟨nonce, hnonce, h⟩ := Wire.bind_eq_ok.1 h
  obtain ⟨⟨⟩, hcheck, h⟩ := Wire.bind_eq_ok.1 h
  obtain ⟨publicKey, hkey, h⟩ := Wire.bind_eq_ok.1 h
  obtain ⟨signature, -, h⟩ := Wire.bind_eq_ok.1 h
  obtain ⟨⟨⟩, hverify, h⟩ := Wire.bind_eq_ok.1 h
  obtain ⟨key, hkeyText, h⟩ := Wire.bind_eq_ok.1 h
  obtain ⟨digest, hdigest, h⟩ := Wire.bind_eq_ok.1 h
  obtain ⟨hcontext, ⟨canonical, hcanonical⟩, hlead, hexpired⟩ := Operation.verify_eq_ok hverify
  obtain ⟨-, -, -, -, c, hc⟩ := Operation.canonical_eq_ok hcanonical
  obtain ⟨keyText, hkeyText', hhex⟩ := isHex_of_decodeHex hkey
  have hsame : key = keyText := by
    rw [required, okOr_eq_ok, hkeyText'] at hkeyText
    exact (Option.some.inj hkeyText).symm
  rw [Operation.digest, hcanonical] at hdigest
  rw [← Except.ok.inj h, ← Except.ok.inj hdigest, hsame]
  exact ⟨_, canonical, hcanonical, hcontext, rfl, okOr_eq_ok.1 haudience, okOr_eq_ok.1 hrepository,
    okOr_eq_ok.1 hcommitment, decimal_eq_ok hcreated, decimal_eq_ok hexpires,
    okOr_eq_ok.1 hnonce, ExpectedCommitment.meets_of_check hcheck hc, hlead, hexpired,
    keyText, hkeyText', hhex, rfl⟩

/-- The lines a replay scope is made of. -/
theorem newline_notMem_scopeParts {op : Operation} {text key : Bytes}
    (h : op.canonical = .ok text) (hkey : isHex key 32 = true) :
    ∀ part ∈ [op.context.audience, op.context.repository, key, op.nonce], NEWLINE ∉ part := by
  obtain ⟨-, hlines, -⟩ := Operation.canonical_eq_ok h
  simp only [List.forall_mem_cons, List.not_mem_nil, false_imp_iff, implies_true, and_true]
  exact ⟨hlines _ (by simp [Operation.fields]), hlines _ (by simp [Operation.fields]),
    newline_notMem_of_isHex hkey, hlines _ (by simp [Operation.fields])⟩

/-- Accepted requests of one replay scope have one destination, signer and nonce. -/
theorem scope_injective {expected expected' : Context} {procedure procedure' : Bytes}
    {commitment commitment' : ExpectedCommitment} {now now' : Int64} {headers headers' : Headers}
    {a a' : Authorized}
    (h : verifyHeadersWith B E expected procedure commitment now headers = .ok a)
    (h' : verifyHeadersWith B E expected' procedure' commitment' now' headers' = .ok a')
    (hfree : CollisionFreeOn B {x | x ∈ [scopeText expected a.publicKey a.nonce,
      scopeText expected' a'.publicKey a'.nonce]}) (hscope : a.scope = a'.scope) :
    expected = expected' ∧ a.publicKey = a'.publicKey ∧ a.nonce = a'.nonce := by
  obtain ⟨op, text, hop, rfl, -, -, -, -, -, -, -, -, -, -, key, -, hkey, rfl⟩ :=
    verifyHeadersWith_eq_ok h
  obtain ⟨op', text', hop', rfl, -, -, -, -, -, -, -, -, -, -, key', -, hkey', rfl⟩ :=
    verifyHeadersWith_eq_ok h'
  have hdigest : B.hash (scopeText op.context key op.nonce) =
      B.hash (scopeText op'.context key' op'.nonce) := toHex_injective hscope
  have htext := hfree (by simp) (by simp) hdigest
  have hfields := Text.intercalate_injective (newline_notMem_scopeParts hop hkey)
    (newline_notMem_scopeParts hop' hkey') (List.cons_ne_nil _ _) (List.cons_ne_nil _ _) htext
  simp only [List.cons.injEq, and_true] at hfields
  exact ⟨Context.ext hfields.1 hfields.2.1, hfields.2.2⟩

/-- Signed requests are unambiguous: the canonical text determines all seven fields, the parser
of commitments takes exactly the texts of commitments, an accepted request is valid now and for
what the verifier expects, and its replay scope determines destination, signer and nonce. -/
theorem signed_requests_unambiguous (B : Blake3) (E : Ed25519) :
    (∀ (op op' : Operation) (text : Bytes), op.canonical = .ok text → op'.canonical = .ok text →
      op = op') ∧
    (∀ text, (∃ c, ContentCommitment.parse text = .ok c) ↔
      ∃ c : ContentCommitment, c.LenNonzero ∧ text = c.display) ∧
    (∀ text c, ContentCommitment.parse text = .ok c → c.display = text) ∧
    (∀ expected procedure commitment now headers a,
      verifyHeadersWith B E expected procedure commitment now headers = .ok a →
      ∃ created expires : Int64,
        headers.createdAt = some (Text.i64.toString created) ∧
        headers.expiresAt = some (Text.i64.toString expires) ∧
        created.toInt - 30000 ≤ now.toInt ∧ now.toInt ≤ expires.toInt ∧
        0 < expires.toInt - created.toInt ∧ expires.toInt - created.toInt ≤ 300000 ∧
        headers.audience = some expected.audience ∧
        headers.repository = some expected.repository ∧
        headers.commitment = some a.commitment ∧ commitment.Meets a.commitment) ∧
    (∀ expected expected' procedure procedure' commitment commitment' now now' headers headers'
      a a', verifyHeadersWith B E expected procedure commitment now headers = .ok a →
      verifyHeadersWith B E expected' procedure' commitment' now' headers' = .ok a' →
      CollisionFreeOn B {x | x ∈ [scopeText expected a.publicKey a.nonce,
        scopeText expected' a'.publicKey a'.nonce]} →
      a.scope = a'.scope →
      expected.audience = expected'.audience ∧ expected.repository = expected'.repository ∧
        headers.publicKey = headers'.publicKey ∧
        headers.idempotencyKey = headers'.idempotencyKey) := by
  refine ⟨fun op op' text => Operation.canonical_injective, fun text => ?_, fun text c h => ?_,
    fun expected procedure commitment now headers a h => ?_, ?_⟩
  · constructor
    · rintro ⟨c, hc⟩
      obtain ⟨htext, hlen⟩ := ContentCommitment.parse_eq_ok_iff.1 hc
      exact ⟨c, hlen, htext⟩
    · rintro ⟨c, hlen, htext⟩
      exact ⟨c, ContentCommitment.parse_eq_ok_iff.2 ⟨htext, hlen⟩⟩
  · exact (ContentCommitment.parse_eq_ok_iff.1 h).1.symm
  · obtain ⟨op, text, hop, rfl, -, haudience, hrepository, hcommitment, hcreated, hexpires, -,
      hmeets, hlead, hexpired, key, -, -, rfl⟩ := verifyHeadersWith_eq_ok h
    obtain ⟨-, -, hpositive, hvalidity, -⟩ := Operation.canonical_eq_ok hop
    exact ⟨op.createdAt, op.expiresAt, hcreated, hexpires, hlead, hexpired, hpositive, hvalidity,
      haudience, hrepository, hcommitment, hmeets⟩
  · intro expected expected' procedure procedure' commitment commitment' now now' headers headers'
      a a' h h' hfree hscope
    obtain ⟨rfl, hkey, hnonce⟩ := scope_injective h h' hfree hscope
    obtain ⟨op, text, -, -, -, -, -, -, -, -, hkeyText, -, -, -, key, hpublic, -, rfl⟩ :=
      verifyHeadersWith_eq_ok h
    obtain ⟨op', text', -, -, -, -, -, -, -, -, hkeyText', -, -, -, key', hpublic', -, rfl⟩ :=
      verifyHeadersWith_eq_ok h'
    refine ⟨rfl, rfl, ?_, ?_⟩
    · rw [hpublic, hpublic']
      exact congrArg some hkey
    · rw [hkeyText, hkeyText']
      exact congrArg some hnonce

/-- A signature scheme that takes every key and every signature. -/
def permissive : Ed25519 where
  VerifyingKey := ByteArr 32
  fromBytes := some
  verifyStrict := fun _ _ _ => true

/-- A part upload to a bracketed host. -/
def sampleHeaders : Headers where
  version := some (ascii ['2'])
  audience := some (ascii "https://[::ffff:1.2.3.4]:444".toList)
  repository := some (ascii "room".toList)
  publicKey := some (List.replicate 64 0x61)
  signature := some (List.replicate 128 0x30)
  digest := none
  commitment := some (PART ++ List.replicate 64 0x62 ++ ascii ":0:".toList ++
    List.replicate 64 0x63 ++ ascii ":9".toList)
  createdAt := some (ascii "1000".toList)
  expiresAt := some (ascii "301000".toList)
  idempotencyKey := some (List.replicate 64 0x64)

/-- The destination of the sample. -/
def sampleContext : Context where
  audience := ascii "https://[::ffff:1.2.3.4]:444".toList
  repository := ascii "room".toList

/-- The sample at the earliest instant. -/
def sampleAccepted : Except AuthError Authorized :=
  verifyHeadersWith toyBlake3 permissive sampleContext (ascii "/upload".toList) .partStream 0
    sampleHeaders

/-- The sample is accepted and names a part. -/
theorem signed_requests_unambiguous_sample : ∃ a, sampleAccepted = .ok a ∧
    (∃ created expires : Int64, sampleHeaders.createdAt = some (Text.i64.toString created) ∧
      sampleHeaders.expiresAt = some (Text.i64.toString expires) ∧
      created.toInt - 30000 ≤ 0 ∧ expires.toInt - created.toInt ≤ 300000) ∧
    ExpectedCommitment.partStream.Meets a.commitment := by
  have hok : sampleAccepted.isOk = true := by decide +kernel
  have h := Wire.eq_ok_getD hok ⟨[], [], [], [], [], 0⟩
  obtain ⟨created, expires, hcreated, hexpires, hlead, -, -, hvalidity, -, -, -, hmeets⟩ :=
    (signed_requests_unambiguous toyBlake3 permissive).2.2.2.1 _ _ _ _ _ _ h
  exact ⟨_, h, ⟨created, expires, hcreated, hexpires, hlead, hvalidity⟩, hmeets⟩

end Mkit.WriteAuth
