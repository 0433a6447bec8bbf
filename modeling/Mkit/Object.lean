import Mathlib.Data.List.Chain
import Mkit.Hash

/-!
# Objects

The seven object types of the repository (`object.rs`): blobs, trees, commits, remixes,
chunked-blob manifests, deltas and tags, with the type, mode and identity tags they carry on
the wire and the structural checks that both the writers and the readers consult
(`Identity.isValid`, `TreeEntry.validateName`, `Tag.nameIsValid`).

Names, messages and payloads are byte strings; hashes, keys and signatures are byte arrays
of their fixed size; counters are machine words of the source's width.
-/

namespace Mkit

/-- The bytes of an ASCII literal. -/
def ascii (cs : List Char) : Bytes :=
  cs.map fun c => UInt8.ofNat c.toNat

/-- What can be wrong with the instructions of a delta stream. -/
inductive DeltaCorruption where
  | baseLenMismatch (declared actual : ℕ)
  | reservedOpcodeBits (op : UInt8)
  | zeroOpcode
  | zeroLengthCopy
  | copyPastBase (offset length base_len : ℕ)
  | resultLenOverrun (emitted requested result_len : ℕ)
  | resultLenUnderrun (expected actual : ℕ)
deriving DecidableEq

/-- Decode and validation errors raised by the codec and by the delta decoder. The variants
of key handling are not raised here. -/
inductive MkitError where
  | emptyData
  | invalidObjectType (b : UInt8)
  | invalidMagic
  | unsupportedObjectVersion
  | unexpectedEof
  | trailingData
  | tooManyEntries
  | invalidEntryName
  | invalidEntryMode (b : UInt8)
  | invalidEntryOrder
  | tooManyParents
  | tooManySources
  | tagNameInvalid
  | tagTargetTypeInvalid (b : UInt8)
  | invalidSourceOrder
  | tooManyChunks
  | chunkedBlobSizeMismatch (expected actual : UInt64)
  | unknownIdentityKind (b : UInt8)
  | invalidIdentity
  | identityTooLarge
  | oversizePayload (field : String) (len : ℕ)
  | deltaLengthOverflow (field : String) (len : ℕ)
  | deltaCorrupt (kind : DeltaCorruption)
deriving DecidableEq

/-! ### Tags on the wire -/

/-- The magic at offset 1 of every object. -/
def MAGIC : Bytes := ascii ['M', 'K', 'T', '1']

/-- The schema version byte. -/
def SCHEMA_VERSION : UInt8 := 0x01

/-- Upper bound on the payload of an identity. -/
def IDENTITY_MAX_LEN : ℕ := 4096

/-- Upper bound on the name of a tag. -/
def TAG_NAME_MAX_LEN : ℕ := 4096

/-- Object type tag, at offset 0 of the prologue. -/
inductive ObjectType where
  | blob
  | tree
  | commit
  | remix
  | chunkedBlob
  | delta
  | tag
deriving DecidableEq

/-- The tag byte. -/
def ObjectType.toU8 : ObjectType → UInt8
  | .blob => 0x01
  | .tree => 0x02
  | .commit => 0x03
  | .remix => 0x04
  | .chunkedBlob => 0x05
  | .delta => 0x06
  | .tag => 0x07

/-- Decode the tag byte; reserved values are rejected. -/
def ObjectType.fromU8 (b : UInt8) : Except MkitError ObjectType :=
  match b with
  | 0x01 => .ok .blob
  | 0x02 => .ok .tree
  | 0x03 => .ok .commit
  | 0x04 => .ok .remix
  | 0x05 => .ok .chunkedBlob
  | 0x06 => .ok .delta
  | 0x07 => .ok .tag
  | other => .error (.invalidObjectType other)

/-- The types addressed by a Merkle root rather than by the hash of their bytes. -/
def ObjectType.isMerkle : ObjectType → Bool
  | .tree | .chunkedBlob => true
  | _ => false

/-- Tree entry mode. -/
inductive EntryMode where
  | blob
  | tree
  | symlink
  | executable
deriving DecidableEq

/-- The mode byte. -/
def EntryMode.toU8 : EntryMode → UInt8
  | .blob => 0x01
  | .tree => 0x02
  | .symlink => 0x03
  | .executable => 0x04

/-- Decode the mode byte. -/
def EntryMode.fromU8 (b : UInt8) : Except MkitError EntryMode :=
  match b with
  | 0x01 => .ok .blob
  | 0x02 => .ok .tree
  | 0x03 => .ok .symlink
  | 0x04 => .ok .executable
  | other => .error (.invalidEntryMode other)

/-- The kind of an author identity. -/
inductive IdentityKind where
  | ed25519
  | didKey
  | opaqueBytes
deriving DecidableEq

/-- The kind byte. -/
def IdentityKind.toU8 : IdentityKind → UInt8
  | .ed25519 => 0x01
  | .didKey => 0x02
  | .opaqueBytes => 0x03

/-- Decode the kind byte. -/
def IdentityKind.fromU8 (b : UInt8) : Except MkitError IdentityKind :=
  match b with
  | 0x01 => .ok .ed25519
  | 0x02 => .ok .didKey
  | 0x03 => .ok .opaqueBytes
  | other => .error (.unknownIdentityKind other)

/-- A tag byte decodes to the type it is the byte of, and to no other. -/
theorem ObjectType.fromU8_eq_ok {b : UInt8} {t : ObjectType} :
    ObjectType.fromU8 b = .ok t ↔ b = t.toU8 := by
  constructor
  · intro h
    unfold ObjectType.fromU8 at h
    split at h <;> simp_all [ObjectType.toU8] <;> subst h <;> rfl
  · rintro rfl
    cases t <;> rfl

/-- A mode byte decodes to the mode it is the byte of, and to no other. -/
theorem EntryMode.fromU8_eq_ok {b : UInt8} {m : EntryMode} :
    EntryMode.fromU8 b = .ok m ↔ b = m.toU8 := by
  constructor
  · intro h
    unfold EntryMode.fromU8 at h
    split at h <;> simp_all [EntryMode.toU8] <;> subst h <;> rfl
  · rintro rfl
    cases m <;> rfl

/-- A kind byte decodes to the kind it is the byte of, and to no other. -/
theorem IdentityKind.fromU8_eq_ok {b : UInt8} {k : IdentityKind} :
    IdentityKind.fromU8 b = .ok k ↔ b = k.toU8 := by
  constructor
  · intro h
    unfold IdentityKind.fromU8 at h
    split at h <;> simp_all [IdentityKind.toU8] <;> subst h <;> rfl
  · rintro rfl
    cases k <;> rfl

theorem EntryMode.toU8_inj {m n : EntryMode} (h : m.toU8 = n.toU8) : m = n := by
  cases m <;> cases n <;> first | rfl | exact absurd h (by decide)

/-! ### Identities -/

/-- Tagged-union author identity. -/
structure Identity where
  kind : IdentityKind
  bytes : Bytes
deriving DecidableEq

/-- `u8::is_ascii_graphic`: printable and not a space. -/
def isAsciiGraphic (b : UInt8) : Bool :=
  33 ≤ b.toNat && b.toNat ≤ 126

/-- Structural validity: a payload of `1..=IDENTITY_MAX_LEN` bytes, exactly 32 for an
Ed25519 key and printable ASCII for a DID key. -/
def Identity.isValid (id : Identity) : Bool :=
  if id.bytes.isEmpty || id.bytes.length > IDENTITY_MAX_LEN then false
  else
    match id.kind with
    | .ed25519 => id.bytes.length == 32
    | .didKey => id.bytes.all isAsciiGraphic
    | .opaqueBytes => true

/-! ### Tree entries -/

/-- `u8::to_ascii_lowercase`. -/
def toAsciiLowercase (b : UInt8) : UInt8 :=
  if 65 ≤ b.toNat && b.toNat ≤ 90 then b + 32 else b

/-- `<[u8]>::eq_ignore_ascii_case`. -/
def eqIgnoreAsciiCase (a b : Bytes) : Bool :=
  a.map toAsciiLowercase == b.map toAsciiLowercase

/-- Whether a stem is a reserved Windows device name. -/
def isWindowsReservedStem (stem : Bytes) : Bool :=
  match stem.length with
  | 3 =>
    eqIgnoreAsciiCase stem (ascii ['C', 'O', 'N']) ||
    eqIgnoreAsciiCase stem (ascii ['P', 'R', 'N']) ||
    eqIgnoreAsciiCase stem (ascii ['A', 'U', 'X']) ||
    eqIgnoreAsciiCase stem (ascii ['N', 'U', 'L'])
  | 4 =>
    -- `COM1`-`COM9` and `LPT1`-`LPT9`; a zero is not reserved.
    let head := stem.take 3
    let tail := stem.drop 3
    tail.any (fun b => 49 ≤ b.toNat && b.toNat ≤ 57) &&
      (eqIgnoreAsciiCase head (ascii ['C', 'O', 'M']) ||
        eqIgnoreAsciiCase head (ascii ['L', 'P', 'T']))
  | _ => false

/-- The bytes no entry or tag name may hold: NUL, slash and backslash. -/
def forbiddenByte (b : UInt8) : Bool :=
  b == 0 || b == 0x2f || b == 0x5c

/-- One entry of a tree. -/
structure TreeEntry where
  name : Bytes
  mode : EntryMode
  object_hash : Hash
deriving DecidableEq

/-- Validate an entry name: the base rules, then the names that alias repository metadata or
exploit platform quirks. -/
def TreeEntry.validateName (name : Bytes) : Bool :=
  if name.isEmpty || name.length > 255 then false
  else if name == ascii ['.'] || name == ascii ['.', '.'] then false
  else if name.any forbiddenByte then false
  else if name.getLast? == some 0x2e || name.getLast? == some 0x20 then false
  else if eqIgnoreAsciiCase name (ascii ['.', 'm', 'k', 'i', 't']) ||
      eqIgnoreAsciiCase name (ascii ['.', 'g', 'i', 't']) then false
  -- The stem is the part before the first dot.
  else if isWindowsReservedStem (name.takeWhile (· != 0x2e)) then false
  else true

/-- A valid name is not empty. -/
theorem TreeEntry.one_le_length_of_validateName {name : Bytes}
    (h : TreeEntry.validateName name = true) : 1 ≤ name.length := by
  cases name with
  | nil => exact absurd h (by decide)
  | cons b name => simp

/-- A valid name has at most 255 bytes. -/
theorem TreeEntry.length_le_of_validateName {name : Bytes}
    (h : TreeEntry.validateName name = true) : name.length ≤ 255 := by
  by_contra hlen
  have hc : (name.isEmpty || decide (name.length > 255)) = true := by simp; omega
  rw [TreeEntry.validateName, if_pos hc] at h
  exact absurd h (by simp)

/-- A valid name holds no slash. -/
theorem TreeEntry.slash_notMem_of_validateName {name : Bytes}
    (h : TreeEntry.validateName name = true) : 0x2f ∉ name := by
  intro hmem
  have hany : name.any forbiddenByte = true := List.any_eq_true.2 ⟨_, hmem, by decide⟩
  rw [TreeEntry.validateName, hany] at h
  split_ifs at h with _ _ hnot
  exact hnot rfl

/-! ### The objects -/

/-- Raw bytes. -/
structure Blob where
  data : Bytes
deriving DecidableEq

/-- A directory: entries in ascending name order. -/
structure Tree where
  entries : List TreeEntry
deriving DecidableEq

/-- Entries are strictly ascending by byte-wise name order. -/
def Tree.isSorted (t : Tree) : Prop :=
  t.entries.IsChain fun a b => a.name < b.name

/-- A commit. -/
structure Commit where
  tree_hash : Hash
  parents : List Hash
  author : Identity
  signer : ByteArr 32
  message : Bytes
  timestamp : UInt64
  message_hash : Hash
  content_digest : Hash
  signature : ByteArr 64
deriving DecidableEq

/-- Provenance of a remix. -/
structure RemixSource where
  upstream_id : Hash
  commit_hash : Hash
deriving DecidableEq

/-- A commit that also records the foreign commits it is made from. -/
structure Remix where
  tree_hash : Hash
  parents : List Hash
  sources : List RemixSource
  author : Identity
  signer : ByteArr 32
  message : Bytes
  timestamp : UInt64
  signature : ByteArr 64
deriving DecidableEq

/-- One source comes before another: by upstream id, then by commit hash. -/
def RemixSource.before (a b : RemixSource) : Prop :=
  a.upstream_id < b.upstream_id ∨
    (a.upstream_id = b.upstream_id ∧ a.commit_hash < b.commit_hash)

/-- Sources are strictly ascending by `(upstream_id, commit_hash)`. -/
def Remix.sourcesSorted (r : Remix) : Prop :=
  r.sources.IsChain RemixSource.before

/-- An annotated tag. -/
structure Tag where
  target : Hash
  target_type : ObjectType
  name : Bytes
  tagger : Identity
  signer : ByteArr 32
  message : Bytes
  timestamp : UInt64
  signature : ByteArr 64
deriving DecidableEq

/-- Structural validity of a tag name. -/
def Tag.nameIsValid (t : Tag) : Bool :=
  if t.name.isEmpty || t.name.length > TAG_NAME_MAX_LEN then false
  else !t.name.any forbiddenByte

/-- The manifest of a chunked blob. -/
structure ChunkedBlob where
  total_size : UInt64
  chunk_size : UInt32
  chunks : List Hash
deriving DecidableEq

/-- A delta against a base object (pack-only). -/
structure Delta where
  base_hash : Hash
  result_size : UInt32
  instructions : Bytes
deriving DecidableEq

/-- The object union. -/
inductive Object where
  | blob (b : Blob)
  | tree (t : Tree)
  | commit (c : Commit)
  | remix (r : Remix)
  | chunkedBlob (cb : ChunkedBlob)
  | delta (d : Delta)
  | tag (t : Tag)
deriving DecidableEq

/-- An object's type tag. -/
def Object.objectType : Object → ObjectType
  | .blob _ => .blob
  | .tree _ => .tree
  | .commit _ => .commit
  | .remix _ => .remix
  | .chunkedBlob _ => .chunkedBlob
  | .delta _ => .delta
  | .tag _ => .tag

end Mkit
