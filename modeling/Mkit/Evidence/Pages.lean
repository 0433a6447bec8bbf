import Mkit.Evidence
import Mkit.Lib.Metered

/-!
# Evidence Pages

Verified facts about a pack are kept in a B-tree of canonical pages: leaves hold records in
strict key order, branches hold child commitments with a separator before every child but the
first. A commitment names a page by digest, kind, length and item count. Every decoder of this
module works on a budget: one unit for each take, one for each byte of a page.

`decode_eq_ok` is the grammar: a page decodes exactly when it is the encoding of a well-formed
body, for the price of its bytes and fields.
-/

namespace Mkit.Evidence

open Metered

/-! ### Data -/

/-- The purpose of a committed page. -/
inductive PageKind where
  | objects
  | occurrences
  | dependencies
  | closure
  | heads
  | ordinals
deriving DecidableEq

/-- The identity and bounds of a retained page. -/
structure PageCommitment where
  digest : Hash
  kind : PageKind
  len : UInt64
  items : UInt64
deriving DecidableEq

/-- The context committed by every page of a verification run. -/
structure EvidenceBinding where
  source : PackSource
  repository : RepositoryId
  ruleset : RulesetBinding
deriving DecidableEq

/-- Host ceilings. -/
structure EvidenceLimits where
  pageBytes : UInt64
  valueBytes : UInt64
  proofBytes : UInt64
  proofPages : UInt32
  work : UInt64
  allocatedBytes : UInt64
deriving DecidableEq

/-- A leaf record. -/
structure LeafRecord where
  key : Hash
  value : Bytes
deriving DecidableEq

/-- A child after the first one, with the inclusive lower bound of its keys. -/
structure BranchChild where
  separator : Hash
  child : PageCommitment
deriving DecidableEq

/-- Canonical page bytes with their commitment. -/
structure EncodedPage where
  bytes : Bytes
  commitment : PageCommitment
deriving DecidableEq

/-- The validated structure of a page. -/
structure PageView where
  bytes : Bytes
  binding : EvidenceBinding
  kind : PageKind
  height : UInt8
  items : UInt16
  payload : Bytes
deriving DecidableEq

def INDEXED_RULESET : UInt32 := 1

/-- The maximum of records or children in one page. -/
def PAGE_FANOUT : ℕ := 16

/-- The largest encoded page. -/
def MAX_PAGE_BYTES : ℕ := 2 ^ 20

def HEADER_BYTES : ℕ := 123

def PAGE_DOMAIN : Bytes :=
  ascii ['m', 'k', 'i', 't', '-', 'e', 'v', 'i', 'd', 'e', 'n', 'c', 'e', '-', 'p', 'a', 'g', 'e',
    ':', 'v', '1']

def PAGE_MAGIC : Bytes := ascii ['M', 'K', 'E', 'P']

/-- The page ceiling in force. -/
def EvidenceLimits.pageCap (limits : EvidenceLimits) : ℕ :=
  min limits.pageBytes.toNat MAX_PAGE_BYTES

/-! ### Cursors -/

/-- A cursor over borrowed bytes on the shared work budget. -/
abbrev Cursor := Reader Failure

def eof : Failure := failure .unexpectedEof

def resourceLimit : Failure := failure .resourceLimit

def invalidEvidence : Failure := failure .invalidEvidence

def takeBytes (n : ℕ) : Cursor Bytes :=
  take eof resourceLimit n

def array (n : ℕ) : Cursor (ByteArr n) := do
  let bs ← takeBytes n
  accept (if h : bs.length = n then .ok ⟨bs, h⟩ else .error eof)

def byte : Cursor UInt8 :=
  word eof resourceLimit 1 UInt8.ofNat

def u16 : Cursor UInt16 :=
  word eof resourceLimit 2 UInt16.ofNat

def u32 : Cursor UInt32 :=
  word eof resourceLimit 4 UInt32.ofNat

def u64 : Cursor UInt64 :=
  word eof resourceLimit 8 UInt64.ofNat

/-- An early return of a cursor. -/
def refuse (c : Prop) [Decidable c] (code : FailureCode) : Cursor Unit :=
  accept (refuseIf c (failure code))

def kindByte : PageKind → UInt8
  | .objects => 0
  | .occurrences => 1
  | .dependencies => 2
  | .closure => 3
  | .heads => 4
  | .ordinals => 5

def kindOfByte : UInt8 → Except Failure PageKind
  | 0 => .ok .objects
  | 1 => .ok .occurrences
  | 2 => .ok .dependencies
  | 3 => .ok .closure
  | 4 => .ok .heads
  | 5 => .ok .ordinals
  | _ => .error invalidEvidence

def readKind : Cursor PageKind := do
  let b ← byte
  accept (kindOfByte b)

def readSource : Cursor PackSource := do
  let id ← array HASH_LEN
  let len ← u64
  let binding ← array HASH_LEN
  return ⟨id, len, binding⟩

def readRuleset : Cursor RulesetBinding := do
  let ruleset ← u32
  refuse (ruleset ≠ INDEXED_RULESET) .unsupportedRuleset
  let profile ← byte
  refuse (profile ≠ 1) .unsupportedRuleset
  return ⟨ruleset, .indexed⟩

def readBinding : Cursor EvidenceBinding := do
  let repository ← array HASH_LEN
  let source ← readSource
  let ruleset ← readRuleset
  refuse (source.len < 44) .invalidEvidence
  return ⟨source, repository, ruleset⟩

def readCommitment : Cursor PageCommitment := do
  let digest ← array HASH_LEN
  let kind ← readKind
  let len ← u64
  let items ← u64
  return ⟨digest, kind, len, items⟩

/-! ### Decoding -/

/-- The header fields after the binding, and the payload. -/
structure PageHeader where
  kind : PageKind
  height : UInt8
  items : UInt16
  payload : Bytes
deriving DecidableEq

def readHeader (expected : EvidenceBinding) : Cursor PageHeader := do
  let magic ← array 4
  refuse (magic.bytes ≠ PAGE_MAGIC) .invalidEvidence
  let version ← u16
  refuse (version ≠ 1) .unsupportedEvidenceVersion
  let binding ← readBinding
  refuse (binding ≠ expected) .sourceChanged
  let kind ← readKind
  let height ← byte
  let items ← u16
  refuse (32 < height.toNat ∨ PAGE_FANOUT < items.toNat ∨ 0 < height.toNat ∧ items.toNat = 0)
    .invalidEvidence
  let payloadLen ← u32
  let payload ← takeBytes payloadLen.toNat
  return ⟨kind, height, items, payload⟩

/-- `prior.is_some_and(|previous| previous >= key)`. -/
def outOfOrder (prior : Option Hash) (key : Hash) : Prop :=
  ∃ previous ∈ prior, key ≤ previous

instance (prior : Option Hash) (key : Hash) : Decidable (outOfOrder prior key) :=
  inferInstanceAs (Decidable (∃ previous ∈ prior, key ≤ previous))

/-- Validate the remaining records of a leaf. -/
def checkRecords (limits : EvidenceLimits) : ℕ → Option Hash → Cursor Unit
  | 0, _ => pure ()
  | n + 1, prior => do
    let key ← array HASH_LEN
    refuse (outOfOrder prior key) .invalidEvidence
    let valueLen ← u32
    refuse (limits.valueBytes.toNat < valueLen.toNat) .resourceLimit
    let _ ← takeBytes valueLen.toNat
    checkRecords limits n (some key)

/-- A child commitment a branch may hold. -/
def childOk (limits : EvidenceLimits) (kind : PageKind) (child : PageCommitment) : Prop :=
  child.kind = kind ∧ child.items.toNat ≠ 0 ∧ child.items.toNat ≤ PAGE_FANOUT ∧
    HEADER_BYTES ≤ child.len.toNat ∧ child.len.toNat ≤ limits.pageCap

instance (limits : EvidenceLimits) (kind : PageKind) (child : PageCommitment) :
    Decidable (childOk limits kind child) :=
  inferInstanceAs (Decidable (_ ∧ _))

/-- Validate one child commitment of a branch. -/
def checkChild (limits : EvidenceLimits) (kind : PageKind) : Cursor Unit := do
  let child ← readCommitment
  refuse (¬ childOk limits kind child) .invalidEvidence

/-- Validate the remaining children of a branch, each behind its separator. -/
def checkChildren (limits : EvidenceLimits) (kind : PageKind) : ℕ → Option Hash → Cursor Unit
  | 0, _ => pure ()
  | n + 1, prior => do
    let separator ← array HASH_LEN
    refuse (outOfOrder prior separator) .invalidEvidence
    checkChild limits kind
    checkChildren limits kind n (some separator)

/-- Validate the payload of a page. -/
def checkContents (limits : EvidenceLimits) (h : PageHeader) : Cursor Unit :=
  if h.height = 0 then checkRecords limits h.items.toNat none
  else
    match h.items.toNat with
    | 0 => pure ()
    | n + 1 => do
      checkChild limits h.kind
      checkChildren limits h.kind n none

/-- `Budget::charge` on the work of a budget. -/
def chargeWork (work amount : ℕ) : Except Failure ℕ :=
  if work < amount then .error resourceLimit else .ok (work - amount)

/-- Decode one complete canonical page on a shared budget; what is left of it is returned. -/
def decode (bytes : Bytes) (expected : EvidenceBinding) (limits : EvidenceLimits) (work : ℕ) :
    Except Failure (PageView × ℕ) := do
  refuseIf (limits.pageCap < bytes.length) resourceLimit
  let work ← chargeWork work bytes.length
  let (header, work) ← complete (failure .trailingData) (readHeader expected) bytes work
  let ((), work) ← complete (failure .trailingData) (checkContents limits header)
    header.payload work
  return (⟨bytes, expected, header.kind, header.height, header.items, header.payload⟩, work)

namespace PageView

/-- The source-bound commitment of a page. `none` is the panic of an over-long domain. -/
def commitment (B : Blake3) (page : PageView) : Option PageCommitment := do
  let digest ← domainDigest B PAGE_DOMAIN page.bytes
  return ⟨digest, page.kind, UInt64.ofNat page.bytes.length, page.items.toUInt64⟩

/-- Compare a page with the commitment it is expected under. -/
def authenticate (B : Blake3) (page : PageView) (expected : PageCommitment) (work : ℕ) :
    Except Failure ℕ := do
  let work ← chargeWork work page.bytes.length
  refuseIf (page.commitment B ≠ some expected) (failure .evidenceMismatch)
  return work

end PageView

/-- `bytes.get(a..b)`. -/
def slice (bytes : Bytes) (a b : ℕ) : Option Bytes :=
  if a ≤ b ∧ b ≤ bytes.length then some ((bytes.drop a).take (b - a)) else none

/-- `<[u8; N]>::try_from`. -/
def toArray (n : ℕ) (bs : Bytes) : Option (ByteArr n) :=
  if h : bs.length = n then some ⟨bs, h⟩ else none

/-- The next record of a leaf payload, with what follows it. -/
def nextRecord (bytes : Bytes) : Option (LeafRecord × Bytes) := do
  let key ← toArray HASH_LEN (← slice bytes 0 32)
  let lenBytes ← slice bytes 32 36
  let stop := 36 + Wire.ofLeBytes lenBytes
  let value ← slice bytes 36 stop
  let rest ← slice bytes stop bytes.length
  return (⟨key, value⟩, rest)

/-- The records an iterator over a leaf payload yields. -/
def leafRecords : ℕ → Bytes → List LeafRecord
  | 0, _ => []
  | n + 1, bytes =>
    match nextRecord bytes with
    | none => []
    | some (record, rest) => record :: leafRecords n rest

/-- The records of a leaf. -/
def PageView.records (page : PageView) : Except Failure (List LeafRecord) := do
  refuseIf (page.height ≠ 0) invalidEvidence
  return leafRecords page.items.toNat page.payload

/-! ### Routing -/

/-- The child a key is routed to, with the separators around it. -/
structure Route where
  child : PageCommitment
  lower : Option Hash
  upper : Option Hash
deriving DecidableEq

/-- A separator outside the inherited half-open interval. -/
def outsideInterval (lower upper : Option Hash) (key : Hash) : Prop :=
  (∃ low ∈ lower, key < low) ∨ ∃ high ∈ upper, high ≤ key

instance (lower upper : Option Hash) (key : Hash) : Decidable (outsideInterval lower upper key) :=
  inferInstanceAs (Decidable (_ ∨ _))

/-- Read the children after the first one. Every separator is validated, also those after the
chosen child; `result` is the route once it is chosen. -/
def routeChildren (key : Hash) (inheritedLower inheritedUpper : Option Hash) :
    ℕ → PageCommitment → Option Hash → Option Route → Cursor Route
  | 0, child, lower, result => pure (result.getD ⟨child, lower, none⟩)
  | n + 1, child, lower, result => do
    let separator ← array HASH_LEN
    refuse (outsideInterval inheritedLower inheritedUpper separator) .invalidEvidence
    let next ← readCommitment
    match result with
    | some route =>
      routeChildren key inheritedLower inheritedUpper n child lower (some route)
    | none =>
      if key < separator then
        routeChildren key inheritedLower inheritedUpper n child lower
          (some ⟨child, lower, some separator⟩)
      else routeChildren key inheritedLower inheritedUpper n next (some separator) none

/-- Route a key through a branch. -/
def PageView.route (page : PageView) (key : Hash) (inheritedLower inheritedUpper : Option Hash)
    (work : ℕ) : Except Failure (Route × ℕ) := do
  refuseIf (page.height = 0) invalidEvidence
  complete (failure .trailingData) (do
    let first ← readCommitment
    routeChildren key inheritedLower inheritedUpper (page.items.toNat - 1) first none none)
    page.payload work

/-! ### Encoding -/

def writeCommitment (child : PageCommitment) : Bytes :=
  child.digest.bytes ++ [kindByte child.kind] ++ Wire.leBytes 8 child.len.toNat ++
    Wire.leBytes 8 child.items.toNat

/-- The header of an encoded page. -/
def writeHeader (binding : EvidenceBinding) (kind : PageKind) (height : UInt8)
    (items payloadLen : ℕ) : Bytes :=
  PAGE_MAGIC ++ Wire.leBytes 2 1 ++ binding.repository.bytes ++ binding.source.id.bytes ++
    Wire.leBytes 8 binding.source.len.toNat ++ binding.source.binding.bytes ++
    Wire.leBytes 4 binding.ruleset.ruleset.toNat ++ [1] ++ [kindByte kind] ++ [height] ++
    Wire.leBytes 2 items ++ Wire.leBytes 4 payloadLen

def writeRecord (record : LeafRecord) : Bytes :=
  record.key.bytes ++ Wire.leBytes 4 record.value.length ++ record.value

def writeChild (child : BranchChild) : Bytes :=
  child.separator.bytes ++ writeCommitment child.child

/-- Seal page bytes: decode them again and commit to them. -/
def sealPage (B : Blake3) (binding : EvidenceBinding) (limits : EvidenceLimits) (bytes : Bytes)
    (work : ℕ) : Except Failure EncodedPage := do
  let (page, work) ← decode bytes binding limits work
  let _ ← chargeWork work bytes.length
  let commitment ← okOr invalidEvidence (page.commitment B)
  return ⟨bytes, commitment⟩

/-- Bound the records of a leaf and add up their encoded length. -/
def measureRecords (limits : EvidenceLimits) :
    ℕ → Option Hash → List LeafRecord → Except Failure ℕ
  | len, _, [] => .ok len
  | len, prior, record :: rest => do
    refuseIf (outOfOrder prior record.key) invalidEvidence
    refuseIf (limits.valueBytes.toNat < record.value.length ∨ 2 ^ 32 ≤ record.value.length)
      resourceLimit
    refuseIf (2 ^ 64 ≤ len + 36 + record.value.length) resourceLimit
    measureRecords limits (len + 36 + record.value.length) (some record.key) rest

/-- Encode a strictly ordered leaf. -/
def encodeLeaf (B : Blake3) (binding : EvidenceBinding) (kind : PageKind)
    (records : List LeafRecord) (limits : EvidenceLimits) : Except Failure EncodedPage := do
  refuseIf (2 ^ 16 ≤ records.length ∨ PAGE_FANOUT < records.length) resourceLimit
  let len ← measureRecords limits HEADER_BYTES none records
  refuseIf (limits.pageCap < len) resourceLimit
  refuseIf (limits.allocatedBytes.toNat < len) resourceLimit
  let work ← chargeWork limits.work.toNat len
  sealPage B binding limits (writeHeader binding kind 0 records.length (len - HEADER_BYTES) ++
    records.flatMap writeRecord) work

/-- The separators of a branch are in strict order. -/
def checkSeparators : Option Hash → List BranchChild → Except Failure Unit
  | _, [] => .ok ()
  | previous, child :: rest => do
    refuseIf (outOfOrder previous child.separator) invalidEvidence
    checkSeparators (some child.separator) rest

/-- Encode a branch over committed children. -/
def encodeInternal (B : Blake3) (binding : EvidenceBinding) (kind : PageKind) (height : UInt8)
    (first : PageCommitment) (rest : List BranchChild) (limits : EvidenceLimits) :
    Except Failure EncodedPage := do
  refuseIf (¬ (1 ≤ height.toNat ∧ height.toNat ≤ 32)) invalidEvidence
  refuseIf (PAGE_FANOUT ≤ rest.length) resourceLimit
  checkSeparators none rest
  refuseIf (¬ ∀ child ∈ first :: rest.map BranchChild.child, childOk limits kind child)
    invalidEvidence
  let payloadLen := 49 + rest.length * 81
  let len := HEADER_BYTES + payloadLen
  refuseIf (limits.pageCap < len) resourceLimit
  refuseIf (limits.allocatedBytes.toNat < len) resourceLimit
  let work ← chargeWork limits.work.toNat len
  sealPage B binding limits (writeHeader binding kind height (rest.length + 1) payloadLen ++
    writeCommitment first ++ rest.flatMap writeChild) work

/-! ### The grammar -/

section Fields

theorem meters_takeBytes (n : ℕ) :
    Meters (takeBytes n) (fun a bs m => a = bs ∧ bs.length = n ∧ m = 1) :=
  Meters.take _ _ n

theorem meters_array (n : ℕ) : Meters (array n) (fun a bs m => bs = a.bytes ∧ m = 1) := by
  refine ((meters_takeBytes n).bind fun bs => Meters.accept _).congr fun a bs m => ?_
  constructor
  · rintro ⟨u, u', v, i, j, ⟨rfl, hu, rfl⟩, ⟨ha, rfl, rfl⟩, rfl, rfl⟩
    rw [dif_pos hu] at ha
    obtain rfl := Except.ok.inj ha
    exact ⟨List.append_nil u, rfl⟩
  · rintro ⟨rfl, rfl⟩
    exact ⟨a.bytes, a.bytes, [], 1, 0, ⟨rfl, a.length_bytes, rfl⟩,
      ⟨dif_pos a.length_bytes, rfl, rfl⟩, (List.append_nil _).symm, rfl⟩

theorem meters_byte : Meters byte (fun a bs m => bs = [a] ∧ m = 1) := by
  refine (Meters.word eof resourceLimit (w := 1) (fun n h => ?_) (fun _ => UInt8.ofNat_toNat)
    UInt8.toNat_lt).congr fun a bs m => ?_
  · rw [UInt8.toNat_ofNat']
    exact Nat.mod_eq_of_lt h
  · simp [Wire.leBytes]

theorem meters_u16 : Meters u16 (fun a bs m => bs = Wire.leBytes 2 a.toNat ∧ m = 1) :=
  Meters.word eof resourceLimit
    (fun n h => by rw [UInt16.toNat_ofNat']; exact Nat.mod_eq_of_lt h)
    (fun _ => UInt16.ofNat_toNat) UInt16.toNat_lt

theorem meters_u32 : Meters u32 (fun a bs m => bs = Wire.leBytes 4 a.toNat ∧ m = 1) :=
  Meters.word eof resourceLimit
    (fun n h => by rw [UInt32.toNat_ofNat']; exact Nat.mod_eq_of_lt h)
    (fun _ => UInt32.ofNat_toNat) UInt32.toNat_lt

theorem meters_u64 : Meters u64 (fun a bs m => bs = Wire.leBytes 8 a.toNat ∧ m = 1) :=
  Meters.word eof resourceLimit
    (fun n h => by rw [UInt64.toNat_ofNat']; exact Nat.mod_eq_of_lt h)
    (fun _ => UInt64.ofNat_toNat) UInt64.toNat_lt

theorem meters_refuse (c : Prop) [Decidable c] (code : FailureCode) :
    Meters (refuse c code) (fun _ bs m => ¬ c ∧ bs = [] ∧ m = 0) := by
  refine (Meters.accept _).congr fun a bs m => ?_
  rw [refuseIf_eq_ok]

theorem kindOfByte_eq_ok {b : UInt8} {kind : PageKind} :
    kindOfByte b = .ok kind ↔ b = kindByte kind := by
  constructor
  · intro h
    unfold kindOfByte at h
    split at h <;> first | (obtain rfl := Except.ok.inj h; rfl) | cases h
  · rintro rfl
    cases kind <;> rfl

theorem meters_readKind : Meters readKind (fun a bs m => bs = [kindByte a] ∧ m = 1) := by
  refine (meters_byte.bind fun b => Meters.accept _).congr fun a bs m => ?_
  simp only [kindOfByte_eq_ok]
  constructor
  · rintro ⟨b, u, v, i, j, ⟨rfl, rfl⟩, ⟨rfl, rfl, rfl⟩, rfl, rfl⟩
    exact ⟨rfl, rfl⟩
  · rintro ⟨rfl, rfl⟩
    exact ⟨_, _, [], 1, 0, ⟨rfl, rfl⟩, ⟨rfl, rfl, rfl⟩, rfl, rfl⟩

theorem meters_readCommitment :
    Meters readCommitment (fun a bs m => bs = writeCommitment a ∧ m = 4) := by
  refine ((meters_array HASH_LEN).field fun digest => meters_readKind.field fun kind =>
    meters_u64.field fun len => meters_u64.field fun items => Meters.pure _).congr
    fun a bs m => ?_
  constructor
  · rintro ⟨digest, _, _, ⟨kind, _, _, ⟨len, _, _, ⟨items, _, _, ⟨rfl, rfl, rfl⟩, rfl, rfl⟩, rfl,
      rfl⟩, rfl, rfl⟩, rfl, rfl⟩
    exact ⟨by simp [writeCommitment], rfl⟩
  · rintro ⟨rfl, rfl⟩
    exact ⟨a.digest, _, _, ⟨a.kind, _, _, ⟨a.len, _, _, ⟨a.items, [], 0, ⟨rfl, rfl, rfl⟩, rfl,
      rfl⟩, rfl, rfl⟩, rfl, rfl⟩, by simp [writeCommitment], rfl⟩

/-- The bytes of a source. -/
def sourceBytes (source : PackSource) : Bytes :=
  source.id.bytes ++ Wire.leBytes 8 source.len.toNat ++ source.binding.bytes

theorem meters_readSource : Meters readSource (fun a bs m => bs = sourceBytes a ∧ m = 3) := by
  refine ((meters_array HASH_LEN).field fun id => meters_u64.field fun len =>
    (meters_array HASH_LEN).field fun binding => Meters.pure _).congr fun a bs m => ?_
  constructor
  · rintro ⟨id, _, _, ⟨len, _, _, ⟨binding, _, _, ⟨rfl, rfl, rfl⟩, rfl, rfl⟩, rfl, rfl⟩, rfl, rfl⟩
    exact ⟨by simp [sourceBytes], rfl⟩
  · rintro ⟨rfl, rfl⟩
    exact ⟨a.id, _, _, ⟨a.len, _, _, ⟨a.binding, [], 0, ⟨rfl, rfl, rfl⟩, rfl, rfl⟩, rfl, rfl⟩,
      by simp [sourceBytes], rfl⟩

/-- The bytes of a ruleset and profile. -/
def rulesetBytes (ruleset : RulesetBinding) : Bytes :=
  Wire.leBytes 4 ruleset.ruleset.toNat ++ [1]

theorem meters_readRuleset : Meters readRuleset
    (fun a bs m => a.ruleset = INDEXED_RULESET ∧ bs = rulesetBytes a ∧ m = 2) := by
  refine Meters.congr (r := readRuleset) (meters_u32.field fun ruleset =>
    (meters_refuse _ _).check fun _ => meters_byte.field fun profile =>
    (meters_refuse _ _).check fun _ => Meters.pure _) fun a bs m => ?_
  simp only [not_not]
  constructor
  · rintro ⟨ruleset, _, _, ⟨hruleset, profile, _, _, ⟨rfl, rfl, rfl, rfl⟩, rfl, rfl⟩, rfl, rfl⟩
    exact ⟨hruleset, by simp [rulesetBytes], rfl⟩
  · rintro ⟨hruleset, rfl, rfl⟩
    exact ⟨a.ruleset, _, _, ⟨hruleset, 1, _, _, ⟨rfl, rfl, rfl, rfl⟩, rfl, rfl⟩, rfl, rfl⟩

/-- The bytes of a binding. -/
def bindingBytes (binding : EvidenceBinding) : Bytes :=
  binding.repository.bytes ++ sourceBytes binding.source ++ rulesetBytes binding.ruleset

/-- A binding pages can carry. -/
structure EvidenceBinding.Supported (binding : EvidenceBinding) : Prop where
  ruleset : binding.ruleset.ruleset = INDEXED_RULESET
  source : ¬ binding.source.len < 44

theorem meters_readBinding : Meters readBinding
    (fun a bs m => a.Supported ∧ bs = bindingBytes a ∧ m = 6) := by
  refine Meters.congr (r := readBinding) ((meters_array HASH_LEN).field fun repository =>
    meters_readSource.field fun source => meters_readRuleset.bind fun ruleset =>
    (meters_refuse _ _).check fun _ => Meters.pure _) fun a bs m => ?_
  constructor
  · rintro ⟨repository, _, _, ⟨source, _, _, ⟨ruleset, _, _, _, _, ⟨hruleset, rfl, rfl⟩,
      ⟨hlen, rfl, rfl, rfl⟩, rfl, rfl⟩, rfl, rfl⟩, rfl, rfl⟩
    exact ⟨⟨hruleset, hlen⟩, by simp [bindingBytes], rfl⟩
  · rintro ⟨hsupported, rfl, rfl⟩
    exact ⟨a.repository, _, _, ⟨a.source, _, _, ⟨a.ruleset, _, [], 2, 0,
      ⟨hsupported.ruleset, rfl, rfl⟩, ⟨hsupported.source, rfl, rfl, rfl⟩, rfl, rfl⟩, rfl, rfl⟩,
      by simp [bindingBytes], rfl⟩

end Fields

/-- The shape a page header announces. -/
structure PageHeader.Shaped (h : PageHeader) : Prop where
  height : h.height.toNat ≤ 32
  items : h.items.toNat ≤ PAGE_FANOUT
  branch : h.height ≠ 0 → h.items.toNat ≠ 0

theorem writeHeader_eq (binding : EvidenceBinding) (kind : PageKind) (height : UInt8)
    (items payloadLen : ℕ) :
    writeHeader binding kind height items payloadLen = PAGE_MAGIC ++ (Wire.leBytes 2 1 ++
      (bindingBytes binding ++ ([kindByte kind] ++ ([height] ++ (Wire.leBytes 2 items ++
      Wire.leBytes 4 payloadLen))))) := by
  simp [writeHeader, bindingBytes, sourceBytes, rulesetBytes]

theorem PageHeader.shaped_iff {h : PageHeader} : h.Shaped ↔ ¬ (32 < h.height.toNat ∨
    PAGE_FANOUT < h.items.toNat ∨ 0 < h.height.toNat ∧ h.items.toNat = 0) := by
  have hzero : h.height ≠ 0 ↔ 0 < h.height.toNat := by
    rw [Nat.pos_iff_ne_zero, ne_eq, ne_eq, ← UInt8.toNat_inj]
    rfl
  constructor
  · rintro ⟨hheight, hitems, hbranch⟩
    rw [hzero] at hbranch
    omega
  · intro hshape
    refine ⟨by omega, by omega, ?_⟩
    rw [hzero]
    omega

/-- A header is the encoding of its fields before its payload. -/
theorem meters_readHeader (expected : EvidenceBinding) : Meters (readHeader expected)
    (fun h bs m => expected.Supported ∧ h.Shaped ∧ h.payload.length < 2 ^ 32 ∧
      bs = writeHeader expected h.kind h.height h.items.toNat h.payload.length ++ h.payload ∧
      m = 13) := by
  refine Meters.congr (r := readHeader expected) ((meters_array 4).field fun magic =>
    (meters_refuse _ _).check fun _ => meters_u16.field fun version =>
    (meters_refuse _ _).check fun _ => meters_readBinding.bind fun binding =>
    (meters_refuse _ _).check fun _ => meters_readKind.field fun kind =>
    meters_byte.field fun height => meters_u16.field fun items =>
    (meters_refuse _ _).check fun _ => meters_u32.field fun payloadLen =>
    (meters_takeBytes _).bind fun payload => Meters.pure _) fun h bs m => ?_
  simp only [not_not, writeHeader_eq]
  constructor
  · rintro ⟨magic, _, _, ⟨hmagic, version, _, _, ⟨rfl, binding, _, _, _, _, ⟨hsupported, rfl, rfl⟩,
      ⟨rfl, kind, _, _, ⟨height, _, _, ⟨items, _, _, ⟨hshape, payloadLen, _, _, ⟨payload, _, _, _, _,
      ⟨rfl, hlen, rfl⟩, ⟨rfl, rfl, rfl⟩, rfl, rfl⟩, rfl, rfl⟩, rfl, rfl⟩, rfl, rfl⟩, rfl, rfl⟩,
      rfl, rfl⟩, rfl, rfl⟩, rfl, rfl⟩
    refine ⟨hsupported, PageHeader.shaped_iff.2 hshape, ?_, ?_, rfl⟩
    · rw [hlen]
      exact payloadLen.toNat_lt
    · simp [hmagic, hlen]
  · rintro ⟨hsupported, hshaped, hlen, rfl, rfl⟩
    have hpayload : (UInt32.ofNat h.payload.length).toNat = h.payload.length := by
      rw [UInt32.toNat_ofNat', Nat.mod_eq_of_lt hlen]
    refine ⟨⟨PAGE_MAGIC, rfl⟩, _, _, ⟨rfl, 1, _, _, ⟨rfl, expected, _, _, _, _,
      ⟨hsupported, rfl, rfl⟩, ⟨rfl, h.kind, _, _, ⟨h.height, _, _, ⟨h.items, _, _,
      ⟨PageHeader.shaped_iff.1 hshaped, UInt32.ofNat h.payload.length, _, _, ⟨h.payload, h.payload,
      [], _, _, ⟨rfl, hpayload.symm, rfl⟩, ⟨rfl, rfl, rfl⟩, rfl, rfl⟩, rfl, rfl⟩, rfl, rfl⟩, rfl,
      rfl⟩, rfl, rfl⟩, rfl, rfl⟩, rfl, rfl⟩, ?_, rfl⟩
    simp [hpayload]

/-- Keys in strict order, above the prior one if there is one. -/
def Ascends (prior : Option Hash) (keys : List Hash) : Prop :=
  (prior.toList ++ keys).Pairwise (· < ·)

theorem ascends_cons {prior : Option Hash} {key : Hash} {keys : List Hash} :
    Ascends prior (key :: keys) ↔ ¬ outOfOrder prior key ∧ Ascends (some key) keys := by
  cases prior with
  | none => simp [Ascends, outOfOrder]
  | some previous =>
    simp only [Ascends, outOfOrder, Option.toList_some, List.cons_append, List.nil_append,
      List.pairwise_cons, List.mem_cons, Option.mem_def, Option.some.injEq, exists_eq_left',
      not_le]
    constructor
    · rintro ⟨hprevious, hkey, hkeys⟩
      exact ⟨hprevious key (.inl rfl), hkey, hkeys⟩
    · rintro ⟨hprevious, hkey, hkeys⟩
      refine ⟨?_, hkey, hkeys⟩
      rintro k (rfl | hk)
      · exact hprevious
      · exact hprevious.trans (hkey k hk)

/-- Records of a leaf under the given limits. -/
structure RecordsOk (limits : EvidenceLimits) (prior : Option Hash) (records : List LeafRecord) :
    Prop where
  ascends : Ascends prior (records.map (·.key))
  values : ∀ r ∈ records, r.value.length ≤ limits.valueBytes.toNat ∧ r.value.length < 2 ^ 32

theorem recordsOk_cons {limits : EvidenceLimits} {prior : Option Hash} {r : LeafRecord}
    {records : List LeafRecord} : RecordsOk limits prior (r :: records) ↔ ¬ outOfOrder prior r.key ∧
      r.value.length ≤ limits.valueBytes.toNat ∧ r.value.length < 2 ^ 32 ∧
      RecordsOk limits (some r.key) records := by
  constructor
  · rintro ⟨hascends, hvalues⟩
    obtain ⟨hkey, hkeys⟩ := ascends_cons.1 hascends
    obtain ⟨hvalue, hvalues⟩ := List.forall_mem_cons.1 hvalues
    exact ⟨hkey, hvalue.1, hvalue.2, hkeys, hvalues⟩
  · rintro ⟨hkey, hle, hlt, hascends, hvalues⟩
    exact ⟨ascends_cons.2 ⟨hkey, hascends⟩, List.forall_mem_cons.2 ⟨⟨hle, hlt⟩, hvalues⟩⟩

/-- The payload of a leaf is its records one after the other. -/
theorem meters_checkRecords (limits : EvidenceLimits) (n : ℕ) (prior : Option Hash) :
    Meters (checkRecords limits n prior) (fun _ bs m => ∃ records, records.length = n ∧
      RecordsOk limits prior records ∧ bs = records.flatMap writeRecord ∧ m = 3 * n) := by
  induction n generalizing prior with
  | zero =>
    refine Meters.congr (r := checkRecords limits 0 prior) (Meters.pure ()) fun _ bs m => ?_
    constructor
    · rintro ⟨-, rfl, rfl⟩
      exact ⟨[], rfl, ⟨by cases prior <;> simp [Ascends], by simp⟩, rfl, rfl⟩
    · rintro ⟨records, hlen, -, rfl, rfl⟩
      rw [List.length_eq_zero_iff.1 hlen]
      exact ⟨rfl, rfl, rfl⟩
  | succ n ih =>
    refine Meters.congr (r := checkRecords limits (n + 1) prior)
      ((meters_array HASH_LEN).field fun key => (meters_refuse _ _).check fun _ =>
      meters_u32.field fun valueLen => (meters_refuse _ _).check fun _ =>
      (meters_takeBytes _).bind fun value => ih (some key)) fun _ bs m => ?_
    constructor
    · rintro ⟨key, _, _, ⟨hkey, valueLen, _, _, ⟨hcap, value, _, _, _, _, ⟨rfl, hlen, rfl⟩,
        ⟨records, rfl, hok, rfl, rfl⟩, rfl, rfl⟩, rfl, rfl⟩, rfl, rfl⟩
      refine ⟨⟨key, value⟩ :: records, rfl, recordsOk_cons.2 ⟨hkey, ?_, ?_, hok⟩, ?_, ?_⟩
      · rw [hlen]
        exact Nat.le_of_not_lt hcap
      · rw [hlen]
        exact valueLen.toNat_lt
      · simp [writeRecord, hlen]
      · omega
    · rintro ⟨records, hlen, hok, rfl, rfl⟩
      obtain ⟨r, records, rfl⟩ := List.exists_cons_of_length_eq_add_one hlen
      obtain ⟨hkey, hle, hlt, hok⟩ := recordsOk_cons.1 hok
      have hvalue : (UInt32.ofNat r.value.length).toNat = r.value.length := by
        rw [UInt32.toNat_ofNat', Nat.mod_eq_of_lt hlt]
      refine ⟨r.key, _, _, ⟨hkey, UInt32.ofNat r.value.length, _, _, ⟨?_, r.value, r.value, _, _,
        _, ⟨rfl, hvalue.symm, rfl⟩, ⟨records, by simpa using hlen, hok, rfl, rfl⟩, rfl, rfl⟩, rfl,
        rfl⟩, ?_, ?_⟩
      · rw [hvalue]
        exact Nat.not_lt_of_le hle
      · simp [writeRecord, hvalue]
      · omega

theorem meters_checkChild (limits : EvidenceLimits) (kind : PageKind) :
    Meters (checkChild limits kind) (fun _ bs m => ∃ child, childOk limits kind child ∧
      bs = writeCommitment child ∧ m = 4) := by
  refine Meters.congr (r := checkChild limits kind) (meters_readCommitment.field fun child =>
    meters_refuse _ _) fun _ bs m => ?_
  simp only [not_not]
  constructor
  · rintro ⟨child, _, _, ⟨hok, rfl, rfl⟩, rfl, rfl⟩
    exact ⟨child, hok, List.append_nil _, rfl⟩
  · rintro ⟨child, hok, rfl, rfl⟩
    exact ⟨child, [], 0, ⟨hok, rfl, rfl⟩, (List.append_nil _).symm, rfl⟩

/-- Children of a branch after the first one. -/
structure ChildrenOk (limits : EvidenceLimits) (kind : PageKind) (prior : Option Hash)
    (rest : List BranchChild) : Prop where
  ascends : Ascends prior (rest.map (·.separator))
  children : ∀ c ∈ rest, childOk limits kind c.child

theorem childrenOk_cons {limits : EvidenceLimits} {kind : PageKind} {prior : Option Hash}
    {c : BranchChild} {rest : List BranchChild} :
    ChildrenOk limits kind prior (c :: rest) ↔ ¬ outOfOrder prior c.separator ∧
      childOk limits kind c.child ∧ ChildrenOk limits kind (some c.separator) rest := by
  constructor
  · rintro ⟨hascends, hchildren⟩
    obtain ⟨hkey, hkeys⟩ := ascends_cons.1 hascends
    obtain ⟨hchild, hchildren⟩ := List.forall_mem_cons.1 hchildren
    exact ⟨hkey, hchild, hkeys, hchildren⟩
  · rintro ⟨hkey, hchild, hascends, hchildren⟩
    exact ⟨ascends_cons.2 ⟨hkey, hascends⟩, List.forall_mem_cons.2 ⟨hchild, hchildren⟩⟩

theorem meters_checkChildren (limits : EvidenceLimits) (kind : PageKind) (n : ℕ)
    (prior : Option Hash) :
    Meters (checkChildren limits kind n prior) (fun _ bs m => ∃ rest, rest.length = n ∧
      ChildrenOk limits kind prior rest ∧ bs = rest.flatMap writeChild ∧ m = 5 * n) := by
  induction n generalizing prior with
  | zero =>
    refine Meters.congr (r := checkChildren limits kind 0 prior) (Meters.pure ())
      fun _ bs m => ?_
    constructor
    · rintro ⟨-, rfl, rfl⟩
      exact ⟨[], rfl, ⟨by cases prior <;> simp [Ascends], by simp⟩, rfl, rfl⟩
    · rintro ⟨rest, hlen, -, rfl, rfl⟩
      rw [List.length_eq_zero_iff.1 hlen]
      exact ⟨rfl, rfl, rfl⟩
  | succ n ih =>
    refine Meters.congr (r := checkChildren limits kind (n + 1) prior)
      ((meters_array HASH_LEN).field fun separator => (meters_refuse _ _).check fun _ =>
      (meters_checkChild limits kind).bind fun _ => ih (some separator)) fun _ bs m => ?_
    constructor
    · rintro ⟨separator, _, _, ⟨hkey, _, _, _, _, _, ⟨child, hchild, rfl, rfl⟩,
        ⟨rest, rfl, hok, rfl, rfl⟩, rfl, rfl⟩, rfl, rfl⟩
      refine ⟨⟨separator, child⟩ :: rest, rfl, childrenOk_cons.2 ⟨hkey, hchild, hok⟩, ?_, ?_⟩
      · simp [writeChild]
      · omega
    · rintro ⟨rest, hlen, hok, rfl, rfl⟩
      obtain ⟨c, rest, rfl⟩ := List.exists_cons_of_length_eq_add_one hlen
      obtain ⟨hkey, hchild, hok⟩ := childrenOk_cons.1 hok
      refine ⟨c.separator, _, _, ⟨hkey, (), _, _, _, _, ⟨c.child, hchild, rfl, rfl⟩,
        ⟨rest, by simpa using hlen, hok, rfl, rfl⟩, rfl, rfl⟩, ?_, ?_⟩
      · simp [writeChild]
      · omega

/-! ### Pages -/

/-- What a page holds. -/
inductive PageBody where
  | leaf (records : List LeafRecord)
  | branch (first : PageCommitment) (rest : List BranchChild)
deriving DecidableEq

namespace PageBody

def items : PageBody → ℕ
  | leaf records => records.length
  | branch _ rest => rest.length + 1

def payload : PageBody → Bytes
  | leaf records => records.flatMap writeRecord
  | branch first rest => writeCommitment first ++ rest.flatMap writeChild

/-- The takes of validating a body. -/
def price : PageBody → ℕ
  | leaf records => 3 * records.length
  | branch _ rest => 4 + 5 * rest.length

/-- A body that a page of the given kind and height may have. -/
def Ok (limits : EvidenceLimits) (kind : PageKind) (height : UInt8) : PageBody → Prop
  | leaf records => height = 0 ∧ RecordsOk limits none records
  | branch first rest => height ≠ 0 ∧ childOk limits kind first ∧
      ChildrenOk limits kind none rest

end PageBody

/-- A page: its kind, height and body. -/
structure Page where
  kind : PageKind
  height : UInt8
  body : PageBody
deriving DecidableEq

namespace Page

/-- The encoding of a page under a binding. -/
def bytes (binding : EvidenceBinding) (p : Page) : Bytes :=
  writeHeader binding p.kind p.height p.body.items p.body.payload.length ++ p.body.payload

/-- The view of a decoded page. -/
def view (binding : EvidenceBinding) (p : Page) : PageView :=
  ⟨p.bytes binding, binding, p.kind, p.height, UInt16.ofNat p.body.items, p.body.payload⟩

/-- A page that decodes under a binding and limits. -/
structure Ok (binding : EvidenceBinding) (limits : EvidenceLimits) (p : Page) : Prop where
  supported : binding.Supported
  body : p.body.Ok limits p.kind p.height
  height_le : p.height.toNat ≤ 32
  items_le : p.body.items ≤ PAGE_FANOUT
  length_le : (p.bytes binding).length ≤ limits.pageCap

end Page

/-- The payload of a page is a body of the announced size. -/
theorem meters_checkContents (limits : EvidenceLimits) {h : PageHeader} (hshaped : h.Shaped) :
    Meters (checkContents limits h) (fun _ bs m => ∃ body : PageBody,
      body.Ok limits h.kind h.height ∧ body.items = h.items.toNat ∧ bs = body.payload ∧
      m = body.price) := by
  rw [checkContents]
  split_ifs with hheight
  · refine (meters_checkRecords limits h.items.toNat none).congr fun _ bs m => ?_
    constructor
    · rintro ⟨records, hlen, hok, rfl, rfl⟩
      exact ⟨.leaf records, ⟨hheight, hok⟩, hlen, rfl, by rw [PageBody.price, hlen]⟩
    · rintro ⟨body, hok, hitems, rfl, rfl⟩
      cases body with
      | leaf records => exact ⟨records, hitems, hok.2, rfl, by rw [PageBody.price, ← hitems]; rfl⟩
      | branch first rest => exact absurd hheight hok.1
  · cases hn : h.items.toNat with
    | zero => exact absurd hn (hshaped.branch hheight)
    | succ n =>
      refine ((meters_checkChild limits h.kind).bind fun _ =>
        meters_checkChildren limits h.kind n none).congr fun _ bs m => ?_
      constructor
      · rintro ⟨_, _, _, _, _, ⟨first, hfirst, rfl, rfl⟩, ⟨rest, rfl, hok, rfl, rfl⟩, rfl, rfl⟩
        exact ⟨.branch first rest, ⟨hheight, hfirst, hok⟩, rfl, rfl, rfl⟩
      · rintro ⟨body, hok, hitems, rfl, rfl⟩
        cases body with
        | leaf records => exact absurd hok.1 hheight
        | branch first rest =>
          obtain rfl : rest.length = n := by simpa [PageBody.items] using hitems
          exact ⟨(), _, _, _, _, ⟨first, hok.2.1, rfl, rfl⟩, ⟨rest, rfl, hok.2.2, rfl, rfl⟩,
            rfl, rfl⟩

theorem chargeWork_eq_ok {work amount left : ℕ} :
    chargeWork work amount = .ok left ↔ work = amount + left := by
  rw [chargeWork]
  split_ifs with h
  · simp only [reduceCtorEq, false_iff]
    omega
  · simp only [Except.ok.injEq]
    omega

namespace Page

variable {binding : EvidenceBinding} {limits : EvidenceLimits} {p : Page}

theorem Ok.items_toNat (h : p.Ok binding limits) :
    (UInt16.ofNat p.body.items).toNat = p.body.items := by
  have hle := h.items_le
  rw [UInt16.toNat_ofNat', Nat.mod_eq_of_lt]
  rw [PAGE_FANOUT] at hle
  omega

theorem Ok.length_lt (h : p.Ok binding limits) : (p.bytes binding).length < 2 ^ 32 := by
  have hle := h.length_le
  rw [EvidenceLimits.pageCap, MAX_PAGE_BYTES] at hle
  omega

theorem Ok.length_payload (h : p.Ok binding limits) : p.body.payload.length < 2 ^ 32 := by
  have hlt := h.length_lt
  rw [Page.bytes, List.length_append] at hlt
  omega

theorem Ok.shaped (h : p.Ok binding limits) :
    PageHeader.Shaped ⟨p.kind, p.height, UInt16.ofNat p.body.items, p.body.payload⟩ := by
  refine ⟨h.height_le, by rw [h.items_toNat]; exact h.items_le, fun hheight => ?_⟩
  rw [h.items_toNat]
  have hbody := h.body
  cases hb : p.body with
  | leaf records => exact absurd (hb ▸ hbody : PageBody.Ok _ _ _ (.leaf records)).1 hheight
  | branch first rest => exact Nat.succ_ne_zero _

end Page

/-- **The page grammar.** A page decodes exactly when it is the encoding of a well-formed body
within the limits, for one unit for each byte and each field. -/
theorem decode_eq_ok {bytes : Bytes} {binding : EvidenceBinding} {limits : EvidenceLimits}
    {work left : ℕ} {page : PageView} : decode bytes binding limits work = .ok (page, left) ↔
      ∃ p : Page, p.Ok binding limits ∧ bytes = p.bytes binding ∧ page = p.view binding ∧
        work = bytes.length + (13 + p.body.price) + left := by
  simp only [decode, refuseIf_eq_ok, Wire.bind_eq_ok, Prod.exists, chargeWork_eq_ok,
    (meters_readHeader binding).complete_eq_ok]
  constructor
  · rintro ⟨⟨⟩, hcap, afterBytes, rfl, header, afterHeader, ⟨m, ⟨hsupported, hshaped, hlen, hbytes, rfl⟩,
      rfl⟩, ⟨⟩, afterBody, hcontents, hpage⟩
    obtain ⟨n, ⟨body, hbody, hitems, hpayload, rfl⟩, rfl⟩ :=
      (meters_checkContents limits hshaped).complete_eq_ok.1 hcontents
    obtain ⟨rfl, rfl⟩ := Prod.mk.inj (Except.ok.inj hpage)
    have hbytes' : bytes = Page.bytes binding ⟨header.kind, header.height, body⟩ := by
      rw [hbytes, Page.bytes, hitems, hpayload]
    refine ⟨⟨header.kind, header.height, body⟩, ⟨hsupported, hbody, hshaped.height, ?_, ?_⟩,
      hbytes', ?_, by dsimp only; omega⟩
    · rw [hitems]
      exact hshaped.items
    · rw [← hbytes']
      exact Nat.le_of_not_lt hcap
    · rw [Page.view, ← hbytes', hitems, hpayload, UInt16.ofNat_toNat]
  · rintro ⟨p, hok, rfl, rfl, rfl⟩
    refine ⟨(), Nat.not_lt_of_le hok.length_le, 13 + p.body.price + left, by omega,
      ⟨p.kind, p.height, UInt16.ofNat p.body.items, p.body.payload⟩, p.body.price + left,
      ⟨13, ⟨hok.supported, hok.shaped, hok.length_payload, by rw [hok.items_toNat]; rfl, rfl⟩,
      by omega⟩, (), left, (meters_checkContents limits hok.shaped).complete_eq_ok.2
        ⟨p.body.price, ⟨p.body, hok.body, hok.items_toNat.symm, rfl, rfl⟩, rfl⟩, rfl⟩

end Mkit.Evidence
