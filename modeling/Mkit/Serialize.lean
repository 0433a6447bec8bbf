import Mkit.Object

/-!
# The Canonical Object Codec

The writers and readers of `serialize.rs`. A writer returns the bytes it appends to the
buffer; a reader runs over the bytes behind its cursor. Every object starts with the six-byte
prologue `[type][MKT1][version]`, and a decode ends with a check that nothing is left over.

The readers re-implement every limit of the format: entry, parent, source and chunk counts,
identity and tag-name rules, strict ordering, and look-ahead guards that reject an
impossible count before anything is allocated for it. `Object.Decodable` collects what a
decoded object must satisfy, and each reader is matched with its writer by one equivalence
`parses_read…`; together they make `deserialize` the exact inverse of `serialize` on the
decodable objects.

## Main results

* `deserialize_eq_ok_iff`: `deserialize b` is `o` exactly when `o` is decodable and
  `serialize o` is `b`.
* `exists_serialize_of_decodable`: the writers accept every decodable object.
* `codec_bijective`: the two packaged as a bijection between decodable objects and accepted
  byte strings.
-/

namespace Mkit

open Wire

/-! ### Limits -/

/-- Length of the object prologue. -/
def PROLOGUE_LEN : ℕ := 6

/-- Decode-side cap on the entries of a tree. -/
def MAX_TREE_ENTRIES : ℕ := 1000000

/-- Decode-side cap on the parents of a commit or remix. -/
def MAX_PARENTS : ℕ := 1000

/-- Decode-side cap on the sources of a remix. -/
def MAX_REMIX_SOURCES : ℕ := 10000

/-- Decode-side cap on the chunks of a chunked blob. -/
def MAX_CHUNKS : ℕ := 1000000

/-- `usize::MAX` on a 64-bit target. -/
def USIZE_MAX : ℕ := 2 ^ 64 - 1

/-- `usize::saturating_mul`. -/
def saturatingMul (a b : ℕ) : ℕ :=
  min (a * b) USIZE_MAX

/-! ### Writers -/

/-- The object prologue. -/
def writePrologue (t : ObjectType) : Bytes :=
  t.toU8 :: MAGIC ++ [SCHEMA_VERSION]

def writeU16Le (v : UInt16) : Bytes := leBytes 2 v.toNat

def writeU32Le (v : UInt32) : Bytes := leBytes 4 v.toNat

def writeU64Le (v : UInt64) : Bytes := leBytes 8 v.toNat

/-- A length as the wire's `u32`. -/
def checkedU32 (field : String) (len : ℕ) : Except MkitError UInt32 :=
  if len < 2 ^ 32 then .ok (UInt32.ofNat len) else .error (.oversizePayload field len)

/-- A length-prefixed byte string. -/
def writeLpBytes (field : String) (data : Bytes) : Except MkitError Bytes := do
  let len ← checkedU32 field data.length
  .ok (writeU32Le len ++ data)

/-- An identity: kind, `u16` length, payload. -/
def writeIdentity (id : Identity) : Except MkitError Bytes :=
  if !id.isValid then .error .invalidIdentity
  else if id.bytes.length < 2 ^ 16 then
    .ok (id.kind.toU8 :: writeU16Le (UInt16.ofNat id.bytes.length) ++ id.bytes)
  else .error .invalidIdentity

def writeBlob (b : Blob) : Except MkitError Bytes :=
  writeLpBytes "blob.data" b.data

def writeTreeEntry (e : TreeEntry) : Except MkitError Bytes := do
  let name ← writeLpBytes "tree.entry.name" e.name
  .ok (name ++ e.mode.toU8 :: e.object_hash.bytes)

def writeTree (t : Tree) : Except MkitError Bytes := do
  let count ← checkedU32 "tree.entries" t.entries.length
  let entries ← writeAll writeTreeEntry t.entries
  .ok (writeU32Le count ++ entries)

/-- A hash is written as its bytes. -/
def writeHash (h : Hash) : Except MkitError Bytes := .ok h.bytes

def writeCommit (c : Commit) : Except MkitError Bytes := do
  let count ← checkedU32 "commit.parents" c.parents.length
  let parents ← writeAll writeHash c.parents
  let author ← writeIdentity c.author
  let message ← writeLpBytes "commit.message" c.message
  .ok (c.tree_hash.bytes ++ writeU32Le count ++ parents ++ author ++ message ++
    writeU64Le c.timestamp ++ c.signer.bytes ++ c.message_hash.bytes ++
    c.content_digest.bytes ++ c.signature.bytes)

def writeRemixSource (s : RemixSource) : Except MkitError Bytes :=
  .ok (s.upstream_id.bytes ++ s.commit_hash.bytes)

def writeRemix (r : Remix) : Except MkitError Bytes := do
  let count ← checkedU32 "remix.parents" r.parents.length
  let parents ← writeAll writeHash r.parents
  let sourceCount ← checkedU32 "remix.sources" r.sources.length
  let sources ← writeAll writeRemixSource r.sources
  let author ← writeIdentity r.author
  let message ← writeLpBytes "remix.message" r.message
  .ok (r.tree_hash.bytes ++ writeU32Le count ++ parents ++ writeU32Le sourceCount ++
    sources ++ author ++ message ++ writeU64Le r.timestamp ++ r.signer.bytes ++
    r.signature.bytes)

/-- A tag must point at a type that can live in the object store. -/
def checkTagTargetType (t : ObjectType) : Except MkitError Unit :=
  if t = .delta then .error (.tagTargetTypeInvalid t.toU8) else .ok ()

def writeTag (t : Tag) : Except MkitError Bytes :=
  if !t.nameIsValid then .error .tagNameInvalid
  else do
    checkTagTargetType t.target_type
    let name ← writeLpBytes "tag.name" t.name
    let tagger ← writeIdentity t.tagger
    let message ← writeLpBytes "tag.message" t.message
    .ok (t.target.bytes ++ t.target_type.toU8 :: name ++ tagger ++ message ++
      writeU64Le t.timestamp ++ t.signer.bytes ++ t.signature.bytes)

def writeChunkedBlob (cb : ChunkedBlob) : Except MkitError Bytes := do
  let count ← checkedU32 "chunked_blob.chunks" cb.chunks.length
  let chunks ← writeAll writeHash cb.chunks
  .ok (writeU64Le cb.total_size ++ writeU32Le cb.chunk_size ++ writeU32Le count ++ chunks)

def writeDelta (d : Delta) : Except MkitError Bytes := do
  let instructions ← writeLpBytes "delta.instructions" d.instructions
  .ok (d.base_hash.bytes ++ writeU32Le d.result_size ++ instructions)

/-- The body of an object, after the prologue. -/
def writeBody : Object → Except MkitError Bytes
  | .blob b => writeBlob b
  | .tree t => writeTree t
  | .commit c => writeCommit c
  | .remix r => writeRemix r
  | .chunkedBlob cb => writeChunkedBlob cb
  | .delta d => writeDelta d
  | .tag t => writeTag t

/-- Serialize an object to its canonical bytes. -/
def serialize (o : Object) : Except MkitError Bytes := do
  let body ← writeBody o
  .ok (writePrologue o.objectType ++ body)

/-! ### Readers -/

/-- A reader over the bytes behind the cursor. -/
abbrev Reader := Parser MkitError

/-- `need(n)?`: at least `n` bytes remain. -/
def need (n : ℕ) : Reader Unit := Wire.need .unexpectedEof n

/-- Read a fixed-size array. -/
def readFixed (n : ℕ) : Reader (ByteArr n) := ByteArr.read .unexpectedEof n

def readHash : Reader Hash := readFixed HASH_LEN

def readU8 : Reader UInt8 := byte .unexpectedEof

def readU16 : Reader UInt16 := word .unexpectedEof 2 UInt16.ofNat

def readU32 : Reader UInt32 := word .unexpectedEof 4 UInt32.ofNat

def readU64 : Reader UInt64 := word .unexpectedEof 8 UInt64.ofNat

def readLpBytes : Reader Bytes := do
  let len ← readU32
  take .unexpectedEof len.toNat

def readIdentity : Reader Identity := do
  let b ← readU8
  let kind ← accept (IdentityKind.fromU8 b)
  let len ← readU16
  if len.toNat = 0 then throw .invalidIdentity
  else if len.toNat > IDENTITY_MAX_LEN then throw .identityTooLarge
  else if kind = .ed25519 ∧ len.toNat ≠ 32 then throw .invalidIdentity
  else do
    let bytes ← take .unexpectedEof len.toNat
    -- The full structural rule is enforced at the read boundary too.
    if !(Identity.mk kind bytes).isValid then throw .invalidIdentity
    else pure (Identity.mk kind bytes)

def readBlob : Reader Blob := do
  let data ← readLpBytes
  pure ⟨data⟩

/-- A counted loop behind its look-ahead guard: a count whose items, at `size` bytes each at
least, cannot fit in what remains is refused before anything is allocated for it. -/
def readCounted {α : Type} (size : ℕ) (step : List α → Reader α) (count : ℕ) :
    Reader (List α) := do
  need (saturatingMul count size)
  repeatWith step count []

/-- One round of the entry loop, given the entries read so far. -/
def readTreeEntry (entries : List TreeEntry) : Reader TreeEntry := do
  let name ← readLpBytes
  if !TreeEntry.validateName name then throw .invalidEntryName
  else if ∃ prev ∈ entries.getLast?, ¬prev.name < name then throw .invalidEntryOrder
  else do
    let b ← readU8
    let mode ← accept (EntryMode.fromU8 b)
    let object_hash ← readHash
    pure { name, mode, object_hash }

def readTree : Reader Tree := do
  let count ← readU32
  if count.toNat > MAX_TREE_ENTRIES then throw .tooManyEntries
  else do
    let entries ← readCounted (4 + 1 + 1 + HASH_LEN) readTreeEntry count.toNat
    pure { entries }

/-- A counted list of hashes. -/
def readHashes (count : ℕ) : Reader (List Hash) :=
  readCounted HASH_LEN (fun _ => readHash) count

def readCommit : Reader Commit := do
  let tree_hash ← readHash
  let parentCount ← readU32
  if parentCount.toNat > MAX_PARENTS then throw .tooManyParents
  else do
    let parents ← readHashes parentCount.toNat
    let author ← readIdentity
    let message ← readLpBytes
    let timestamp ← readU64
    let signer ← readFixed 32
    let message_hash ← readHash
    let content_digest ← readHash
    let signature ← readFixed 64
    pure { tree_hash, parents, author, signer, message, timestamp, message_hash,
           content_digest, signature }

def readRemixSource : Reader RemixSource := do
  let upstream_id ← readHash
  let commit_hash ← readHash
  pure { upstream_id, commit_hash }

/-- The source order check of one window of two. -/
def sourceOrderBad (a b : RemixSource) : Bool :=
  match compareOfLessAndEq a.upstream_id b.upstream_id with
  | .gt => true
  | .eq => decide (¬a.commit_hash < b.commit_hash)
  | .lt => false

def readRemix : Reader Remix := do
  let tree_hash ← readHash
  let parentCount ← readU32
  if parentCount.toNat > MAX_PARENTS then throw .tooManyParents
  else do
    let parents ← readHashes parentCount.toNat
    let sourceCount ← readU32
    if sourceCount.toNat > MAX_REMIX_SOURCES then throw .tooManySources
    else do
      let sources ← readCounted (2 * HASH_LEN) (fun _ => readRemixSource) sourceCount.toNat
      let author ← readIdentity
      let message ← readLpBytes
      let timestamp ← readU64
      let signer ← readFixed 32
      let signature ← readFixed 64
      if sources.length > 1 ∧
          (sources.zip sources.tail).any (fun w => sourceOrderBad w.1 w.2) = true then
        throw .invalidSourceOrder
      else
        pure { tree_hash, parents, sources, author, signer, message, timestamp, signature }

def readTag : Reader Tag := do
  let target ← readHash
  let b ← readU8
  let target_type ← accept (ObjectType.fromU8 b)
  let _ ← accept (checkTagTargetType target_type)
  let nameLen ← readU32
  if nameLen.toNat = 0 ∨ nameLen.toNat > TAG_NAME_MAX_LEN then throw .tagNameInvalid
  else do
    let name ← take .unexpectedEof nameLen.toNat
    if name.any forbiddenByte then throw .tagNameInvalid
    else do
      let tagger ← readIdentity
      let message ← readLpBytes
      let timestamp ← readU64
      let signer ← readFixed 32
      let signature ← readFixed 64
      pure { target, target_type, name, tagger, signer, message, timestamp, signature }

def readChunkedBlob : Reader ChunkedBlob := do
  let total_size ← readU64
  let chunk_size ← readU32
  let chunkCount ← readU32
  if chunkCount.toNat > MAX_CHUNKS then throw .tooManyChunks
  else do
    let chunks ← readHashes chunkCount.toNat
    pure { total_size, chunk_size, chunks }

def readDelta : Reader Delta := do
  let base_hash ← readHash
  let result_size ← readU32
  let instructions ← readLpBytes
  pure { base_hash, result_size, instructions }

/-- The body reader selected by the type tag. -/
def readBody : ObjectType → Reader Object
  | .blob => do let x ← readBlob; pure (.blob x)
  | .tree => do let x ← readTree; pure (.tree x)
  | .commit => do let x ← readCommit; pure (.commit x)
  | .remix => do let x ← readRemix; pure (.remix x)
  | .chunkedBlob => do let x ← readChunkedBlob; pure (.chunkedBlob x)
  | .delta => do let x ← readDelta; pure (.delta x)
  | .tag => do let x ← readTag; pure (.tag x)

/-- Deserialize bytes into an object: prologue, body, nothing behind it. -/
def deserialize (data : Bytes) : Except MkitError Object :=
  if data.length < PROLOGUE_LEN then .error .emptyData
  else do
    let ty ← ObjectType.fromU8 (data.headD 0)
    if (data.drop 1).take 4 ≠ MAGIC then .error .invalidMagic
    else if data.getD 5 0 ≠ SCHEMA_VERSION then .error .unsupportedObjectVersion
    else do
      let (obj, rest) ← readBody ty (data.drop PROLOGUE_LEN)
      if rest.length ≠ 0 then .error .trailingData else .ok obj

/-! ### What a decoded object satisfies -/

/-- The decode-side invariants of each object type. -/
def Object.Decodable : Object → Prop
  | .blob b => b.data.length < 2 ^ 32
  | .tree t =>
    t.entries.length ≤ MAX_TREE_ENTRIES ∧
      (∀ e ∈ t.entries, TreeEntry.validateName e.name = true) ∧ t.isSorted
  | .commit c =>
    c.parents.length ≤ MAX_PARENTS ∧ c.author.isValid = true ∧ c.message.length < 2 ^ 32
  | .remix r =>
    r.parents.length ≤ MAX_PARENTS ∧ r.sources.length ≤ MAX_REMIX_SOURCES ∧
      r.sourcesSorted ∧ r.author.isValid = true ∧ r.message.length < 2 ^ 32
  | .chunkedBlob cb => cb.chunks.length ≤ MAX_CHUNKS
  | .delta d => d.instructions.length < 2 ^ 32
  | .tag t =>
    t.nameIsValid = true ∧ t.target_type ≠ .delta ∧ t.tagger.isValid = true ∧
      t.message.length < 2 ^ 32

/-! ### Primitive fields -/

theorem checkedU32_eq_ok {field : String} {len : ℕ} {v : UInt32} :
    checkedU32 field len = .ok v ↔ len < 2 ^ 32 ∧ v = UInt32.ofNat len := by
  rw [checkedU32]
  by_cases h : len < 2 ^ 32
  · rw [if_pos h, Except.ok.injEq]
    simp only [h, true_and, eq_comm]
  · rw [if_neg h]
    simp only [h, false_and, reduceCtorEq]

/-- The length prefix of a list in range. -/
theorem writeU32Le_ofNat {n : ℕ} (h : n < 2 ^ 32) : writeU32Le (UInt32.ofNat n) = leBytes 4 n := by
  rw [writeU32Le, UInt32.toNat_ofNat', Nat.mod_eq_of_lt h]

theorem writeLpBytes_eq_ok {field : String} {data bs : Bytes} : writeLpBytes field data = .ok bs ↔
      data.length < 2 ^ 32 ∧ bs = leBytes 4 data.length ++ data := by
  rw [writeLpBytes, bind_eq_ok]
  constructor
  · rintro ⟨v, hv, hbs⟩
    obtain ⟨h, rfl⟩ := checkedU32_eq_ok.mp hv
    rw [writeU32Le_ofNat h, Except.ok.injEq] at hbs
    exact ⟨h, hbs.symm⟩
  · rintro ⟨h, rfl⟩
    exact ⟨UInt32.ofNat data.length, checkedU32_eq_ok.mpr ⟨h, rfl⟩,
      by rw [writeU32Le_ofNat h]⟩

theorem parses_readFixed (n : ℕ) : Parses (readFixed n) (fun a bs => bs = a.bytes) :=
  ByteArr.parses_read _ n

theorem parses_readHash : Parses readHash (fun a bs => bs = a.bytes) :=
  parses_readFixed HASH_LEN

theorem parses_readU8 : Parses readU8 (fun a bs => bs = [a]) :=
  Parses.byte _

theorem parses_readU16 : Parses readU16 (fun a bs => bs = writeU16Le a) :=
  Parses.word16 _

theorem parses_readU32 : Parses readU32 (fun a bs => bs = writeU32Le a) :=
  Parses.word32 _

theorem parses_readU64 : Parses readU64 (fun a bs => bs = writeU64Le a) :=
  Parses.word64 _

theorem parses_readLpBytes (field : String) :
    Parses readLpBytes (fun a bs => writeLpBytes field a = .ok bs) := by
  refine (parses_readU32.bind fun len => Parses.take _ len.toNat).congr fun a bs => ?_
  rw [writeLpBytes_eq_ok]
  constructor
  · rintro ⟨len, u, v, rfl, ⟨rfl, hv⟩, rfl⟩
    exact ⟨hv ▸ len.toNat_lt, by rw [writeU32Le, hv]⟩
  · rintro ⟨hlen, rfl⟩
    refine ⟨UInt32.ofNat a.length, _, a, rfl, ⟨rfl, ?_⟩, by rw [writeU32Le_ofNat hlen]⟩
    rw [UInt32.toNat_ofNat', Nat.mod_eq_of_lt hlen]

/-! ### Identities -/

/-- What `isValid` says about the payload length. -/
theorem Identity.length_of_isValid {id : Identity} (h : id.isValid = true) :
    1 ≤ id.bytes.length ∧ id.bytes.length ≤ IDENTITY_MAX_LEN ∧
      (id.kind = .ed25519 → id.bytes.length = 32) := by
  rw [Identity.isValid] at h
  by_cases hc : (id.bytes.isEmpty || decide (id.bytes.length > IDENTITY_MAX_LEN)) = true
  · rw [if_pos hc] at h
    exact absurd h (by simp)
  · rw [if_neg hc] at h
    have hpos : id.bytes ≠ [] := by
      intro he
      exact hc (by simp [he])
    have hle : id.bytes.length ≤ IDENTITY_MAX_LEN := by
      by_contra hlt
      exact hc (by simp; omega)
    refine ⟨List.length_pos_iff.mpr hpos, hle, fun hk => ?_⟩
    rw [hk] at h
    simpa using h

theorem writeIdentity_eq_ok {id : Identity} {bs : Bytes} : writeIdentity id = .ok bs ↔
      id.isValid = true ∧ bs = id.kind.toU8 :: leBytes 2 id.bytes.length ++ id.bytes := by
  rw [writeIdentity]
  by_cases hv : id.isValid = true
  · obtain ⟨-, hle, -⟩ := Identity.length_of_isValid hv
    have hlt : id.bytes.length < 2 ^ 16 := lt_of_le_of_lt hle (by decide)
    have hu : writeU16Le (UInt16.ofNat id.bytes.length) = leBytes 2 id.bytes.length := by
      rw [writeU16Le, UInt16.toNat_ofNat', Nat.mod_eq_of_lt hlt]
    rw [if_neg (by simp [hv]), if_pos hlt, hu, Except.ok.injEq]
    simp only [hv, true_and, eq_comm]
  · rw [if_pos (by simp [hv])]
    simp only [hv, false_and, reduceCtorEq]

theorem parses_readIdentity : Parses readIdentity (fun a bs => writeIdentity a = .ok bs) := by
  refine (parses_readU8.bind fun b => (Parses.accept _).bind fun kind =>
    parses_readU16.bind fun len => Parses.check (Parses.check (Parses.check
      ((Parses.take _ _).bind fun bytes => Parses.check (Parses.pure _))))).congr fun a bs => ?_
  rw [writeIdentity_eq_ok]
  constructor
  · rintro ⟨b, _, _, rfl, ⟨kind, _, _, ⟨hk, rfl⟩, ⟨len, _, _, rfl,
      ⟨-, -, -, bytes, _, _, ⟨rfl, hlen⟩, ⟨hv, rfl, rfl⟩, rfl⟩, rfl⟩, rfl⟩, rfl⟩
    rw [IdentityKind.fromU8_eq_ok] at hk
    subst hk
    refine ⟨by simpa using hv, ?_⟩
    simp [writeU16Le, hlen]
  · rintro ⟨hv, rfl⟩
    obtain ⟨hpos, hle, hed⟩ := Identity.length_of_isValid hv
    have hlt : a.bytes.length < 2 ^ 16 := lt_of_le_of_lt hle (by decide)
    have hn : (UInt16.ofNat a.bytes.length).toNat = a.bytes.length := by
      rw [UInt16.toNat_ofNat', Nat.mod_eq_of_lt hlt]
    refine ⟨a.kind.toU8, [a.kind.toU8], _, rfl, ⟨a.kind, [], _,
      ⟨IdentityKind.fromU8_eq_ok.mpr rfl, rfl⟩, ⟨UInt16.ofNat a.bytes.length, _, _, rfl,
        ⟨?_, ?_, ?_, a.bytes, a.bytes, [], ⟨rfl, hn.symm⟩, ⟨by simpa using hv, rfl, rfl⟩, rfl⟩,
        rfl⟩, rfl⟩, ?_⟩
    · omega
    · omega
    · rintro ⟨hk, hne⟩
      exact hne (hn.trans (hed hk))
    · simp [writeU16Le, hn]

/-! ### Counted lists -/

section Counted

variable {α : Type} {w : α → Except MkitError Bytes} {V : α → Prop} {size : ℕ}

/-- A counted loop over a step that reads what `w` writes reads what `writeAll w` writes; the
look-ahead guard never refuses a list that could be read. -/
theorem parses_readCounted {step : List α → Reader α} {r : α → α → Prop}
    (hstep : ∀ acc, Parses (step acc)
      (fun a bs => (∀ p ∈ acc.getLast?, r p a) ∧ V a ∧ w a = .ok bs))
    (hsize : ∀ a bs, V a ∧ w a = .ok bs → size ≤ bs.length) (count : ℕ) :
    Parses (readCounted size step count) (fun l bs => l.length = count ∧ l.IsChain r ∧
      (∀ a ∈ l, V a) ∧ writeAll w l = .ok bs) := by
  refine (Parses.ahead (Parses.repeatWith hstep count []) ?_).congr fun l bs => ?_
  · rintro l bs ⟨l', rfl, rfl, -, henc⟩
    exact le_trans (min_le_left _ _) (length_of_encodes hsize henc)
  · constructor
    · rintro ⟨l', rfl, hlen, hadm, henc⟩
      rw [admits_getLast] at hadm
      exact ⟨hlen, hadm, encodes_write.mp henc⟩
    · rintro ⟨hlen, hchain, henc⟩
      exact ⟨l, rfl, hlen, admits_getLast.mpr hchain, encodes_write.mpr henc⟩

/-- The same for a step that does not look at the items read before it. -/
theorem parses_readCounted_const {p : Reader α} (hp : Parses p (fun a bs => w a = .ok bs))
    (hsize : ∀ a bs, w a = .ok bs → size ≤ bs.length) (count : ℕ) :
    Parses (readCounted size (fun _ => p) count)
      (fun l bs => l.length = count ∧ writeAll w l = .ok bs) := by
  have hstep : ∀ acc : List α, Parses p
      (fun a bs => (∀ q ∈ acc.getLast?, (fun _ _ => True) q a) ∧ True ∧ w a = .ok bs) :=
    fun acc => hp.congr fun a bs => by simp
  refine (parses_readCounted hstep (fun a bs h => hsize a bs h.2) count).congr fun l bs => ?_
  have hchain : l.IsChain fun _ _ => True :=
    (List.pairwise_of_forall fun _ _ => trivial).isChain
  simp [hchain]

end Counted

/-- The count prefix and the items of a list in range, as one writer. -/
theorem parses_readHashes (count : ℕ) : Parses (readHashes count)
      (fun l bs => l.length = count ∧ writeAll writeHash l = .ok bs) := by
  refine parses_readCounted_const (parses_readHash.congr fun a bs => ?_) ?_ count
  · rw [writeHash, Except.ok.injEq, eq_comm]
  · rintro a bs h
    rw [writeHash, Except.ok.injEq] at h
    rw [← h, a.length_bytes]

theorem parses_readTreeEntry (acc : List TreeEntry) :
    Parses (readTreeEntry acc) (fun e bs => (∀ p ∈ acc.getLast?, p.name < e.name) ∧
      TreeEntry.validateName e.name = true ∧ writeTreeEntry e = .ok bs) := by
  refine ((parses_readLpBytes "tree.entry.name").bind fun name => Parses.check (Parses.check
    (parses_readU8.bind fun b => (Parses.accept _).bind fun mode =>
      parses_readHash.bind fun h => Parses.pure _))).congr fun e bs => ?_
  simp only [writeTreeEntry, bind_eq_ok, Except.ok.injEq]
  constructor
  · rintro ⟨name, u, _, hname, ⟨hv, hord, b, _, _, rfl, ⟨mode, _, _, ⟨hm, rfl⟩,
      ⟨h, _, _, rfl, ⟨rfl, rfl⟩, rfl⟩, rfl⟩, rfl⟩, rfl⟩
    rw [EntryMode.fromU8_eq_ok] at hm
    subst hm
    refine ⟨fun p hp => ?_, by simpa using hv, u, hname, by simp⟩
    by_contra hlt
    exact hord ⟨p, hp, hlt⟩
  · rintro ⟨hord, hv, u, hname, rfl⟩
    refine ⟨e.name, u, _, hname, ⟨by simp [hv], ?_, e.mode.toU8, [e.mode.toU8], _, rfl,
      ⟨e.mode, [], _, ⟨EntryMode.fromU8_eq_ok.mpr rfl, rfl⟩,
        ⟨e.object_hash, _, [], rfl, ⟨rfl, rfl⟩, rfl⟩, rfl⟩, rfl⟩, by simp⟩
    rintro ⟨p, hp, hlt⟩
    exact hlt (hord p hp)

/-! ### Object bodies -/

/-- The checked count of a list is its length. -/
theorem count_eq {field : String} {n : ℕ} {count : UInt32}
    (h : checkedU32 field n = .ok count) : count.toNat = n := by
  obtain ⟨hlt, rfl⟩ := checkedU32_eq_ok.mp h
  rw [UInt32.toNat_ofNat', Nat.mod_eq_of_lt hlt]

/-- Every machine word is the checked count of its own value. -/
theorem checkedU32_toNat (field : String) {n : ℕ} {count : UInt32} (h : n = count.toNat) :
    checkedU32 field n = .ok count := by
  subst h
  exact checkedU32_eq_ok.mpr ⟨count.toNat_lt, UInt32.ofNat_toNat.symm⟩

theorem parses_readBlob :
    Parses readBlob (fun a bs => (Object.blob a).Decodable ∧ writeBlob a = .ok bs) := by
  refine ((parses_readLpBytes "blob.data").bind fun data => Parses.pure _).congr fun a bs => ?_
  constructor
  · rintro ⟨data, u, _, hu, ⟨rfl, rfl⟩, rfl⟩
    exact ⟨(writeLpBytes_eq_ok.mp hu).1, by rw [List.append_nil]; exact hu⟩
  · rintro ⟨-, hw⟩
    exact ⟨a.data, bs, [], hw, ⟨rfl, rfl⟩, (List.append_nil bs).symm⟩

theorem parses_readDelta :
    Parses readDelta (fun a bs => (Object.delta a).Decodable ∧ writeDelta a = .ok bs) := by
  refine (parses_readHash.bind fun base => parses_readU32.bind fun size =>
    (parses_readLpBytes "delta.instructions").bind fun ins => Parses.pure _).congr
      fun a bs => ?_
  simp only [writeDelta, bind_eq_ok, Except.ok.injEq]
  constructor
  · rintro ⟨base, _, _, rfl, ⟨size, _, _, rfl, ⟨ins, u, _, hu, ⟨rfl, rfl⟩, rfl⟩, rfl⟩, rfl⟩
    exact ⟨(writeLpBytes_eq_ok.mp hu).1, u, hu, by simp⟩
  · rintro ⟨-, u, hu, rfl⟩
    exact ⟨a.base_hash, _, _, rfl, ⟨a.result_size, _, _, rfl,
      ⟨a.instructions, u, [], hu, ⟨rfl, rfl⟩, rfl⟩, rfl⟩, by simp⟩

/-- The entries of a tree are read back within their order, name and count rules. -/
theorem parses_readTree :
    Parses readTree (fun a bs => (Object.tree a).Decodable ∧ writeTree a = .ok bs) := by
  have hsize : ∀ (e : TreeEntry) (bs : Bytes),
      TreeEntry.validateName e.name = true ∧ writeTreeEntry e = .ok bs →
        4 + 1 + 1 + HASH_LEN ≤ bs.length := by
    rintro e bs ⟨hv, hw⟩
    simp only [writeTreeEntry, bind_eq_ok, Except.ok.injEq] at hw
    obtain ⟨u, hu, rfl⟩ := hw
    obtain ⟨-, rfl⟩ := writeLpBytes_eq_ok.mp hu
    have h1 := TreeEntry.one_le_length_of_validateName hv
    simp
    omega
  refine (parses_readU32.bind fun count => Parses.check
    ((parses_readCounted parses_readTreeEntry hsize count.toNat).bind fun entries =>
      Parses.pure _)).congr fun a bs => ?_
  simp only [writeTree, bind_eq_ok, Except.ok.injEq]
  constructor
  · rintro ⟨count, _, _, rfl, ⟨hmax, entries, u, _, ⟨hlen, hchain, hv, hu⟩, ⟨rfl, rfl⟩,
      rfl⟩, rfl⟩
    exact ⟨⟨by simp only [hlen]; omega, hv, hchain⟩, count, checkedU32_toNat _ hlen, u, hu,
      by simp⟩
  · rintro ⟨⟨hmax, hv, hchain⟩, count, hcount, u, hu, rfl⟩
    have hn := count_eq hcount
    exact ⟨count, _, _, rfl, ⟨by omega, a.entries, u, [], ⟨hn.symm, hchain, hv, hu⟩,
      ⟨rfl, rfl⟩, rfl⟩, by simp⟩

theorem parses_readChunkedBlob : Parses readChunkedBlob
      (fun a bs => (Object.chunkedBlob a).Decodable ∧ writeChunkedBlob a = .ok bs) := by
  refine (parses_readU64.bind fun total => parses_readU32.bind fun size =>
    parses_readU32.bind fun count => Parses.check ((parses_readHashes count.toNat).bind
      fun chunks => Parses.pure _)).congr fun a bs => ?_
  simp only [writeChunkedBlob, bind_eq_ok, Except.ok.injEq]
  constructor
  · rintro ⟨total, _, _, rfl, ⟨size, _, _, rfl, ⟨count, _, _, rfl, ⟨hmax, chunks, u, _,
      ⟨hlen, hu⟩, ⟨rfl, rfl⟩, rfl⟩, rfl⟩, rfl⟩, rfl⟩
    exact ⟨by simp only [Object.Decodable, hlen]; omega, count,
      checkedU32_toNat _ hlen, u, hu, by simp⟩
  · rintro ⟨hmax, count, hcount, u, hu, rfl⟩
    have hn := count_eq hcount
    simp only [Object.Decodable] at hmax
    exact ⟨a.total_size, _, _, rfl, ⟨a.chunk_size, _, _, rfl, ⟨count, _, _, rfl,
      ⟨by omega, a.chunks, u, [], ⟨hn.symm, hu⟩, ⟨rfl, rfl⟩, rfl⟩, rfl⟩, rfl⟩, by simp⟩

theorem parses_readCommit :
    Parses readCommit (fun a bs => (Object.commit a).Decodable ∧ writeCommit a = .ok bs) := by
  refine (parses_readHash.bind fun tree => parses_readU32.bind fun count => Parses.check
    ((parses_readHashes count.toNat).bind fun parents => parses_readIdentity.bind fun author =>
      (parses_readLpBytes "commit.message").bind fun message => parses_readU64.bind fun ts =>
        (parses_readFixed 32).bind fun signer => parses_readHash.bind fun mh =>
          parses_readHash.bind fun cd => (parses_readFixed 64).bind fun sig =>
            Parses.pure _)).congr fun a bs => ?_
  simp only [writeCommit, bind_eq_ok, Except.ok.injEq]
  constructor
  · rintro ⟨tree, _, _, rfl, ⟨count, _, _, rfl, ⟨hmax, parents, p, _, ⟨hlen, hp⟩, ⟨author, i,
      _, hi, ⟨message, m, _, hm, ⟨ts, _, _, rfl, ⟨signer, _, _, rfl, ⟨mh, _, _, rfl, ⟨cd, _, _,
        rfl, ⟨sig, _, _, rfl, ⟨rfl, rfl⟩, rfl⟩, rfl⟩, rfl⟩, rfl⟩, rfl⟩, rfl⟩, rfl⟩, rfl⟩, rfl⟩,
      rfl⟩
    exact ⟨⟨by simp only [hlen]; omega, (writeIdentity_eq_ok.mp hi).1,
      (writeLpBytes_eq_ok.mp hm).1⟩, count, checkedU32_toNat _ hlen, p, hp, i, hi, m, hm,
      by simp⟩
  · rintro ⟨⟨hmax, -, -⟩, count, hcount, p, hp, i, hi, m, hm, rfl⟩
    have hn := count_eq hcount
    exact ⟨a.tree_hash, _, _, rfl, ⟨count, _, _, rfl, ⟨by omega, a.parents, p, _,
      ⟨hn.symm, hp⟩, ⟨a.author, i, _, hi, ⟨a.message, m, _, hm, ⟨a.timestamp, _, _, rfl,
        ⟨a.signer, _, _, rfl, ⟨a.message_hash, _, _, rfl, ⟨a.content_digest, _, _, rfl,
          ⟨a.signature, _, [], rfl, ⟨rfl, rfl⟩, rfl⟩, rfl⟩, rfl⟩, rfl⟩, rfl⟩, rfl⟩, rfl⟩, rfl⟩,
      rfl⟩, by simp⟩

/-- A window of two sources passes the order check exactly when it is in order. -/
theorem sourceOrderBad_eq_false {a b : RemixSource} : sourceOrderBad a b = false ↔ a.before b := by
  rw [sourceOrderBad, RemixSource.before, compareOfLessAndEq]
  by_cases hlt : a.upstream_id < b.upstream_id
  · simp [hlt]
  · rw [if_neg hlt]
    by_cases heq : a.upstream_id = b.upstream_id
    · simp [heq, ByteArr.lt_def]
    · simp [hlt, heq]

/-- Checking every window of two checks the chain. -/
theorem any_windows_eq_false {α : Type} {bad : α → α → Bool} {l : List α} :
    (l.zip l.tail).any (fun w => bad w.1 w.2) = false ↔
      l.IsChain fun a b => bad a b = false := by
  induction l with
  | nil => simp
  | cons a l ih =>
    cases l with
    | nil => simp
    | cons b l =>
      rw [List.isChain_cons_cons, ← ih]
      simp

theorem parses_readRemixSource :
    Parses readRemixSource (fun a bs => writeRemixSource a = .ok bs) := by
  refine (parses_readHash.bind fun up => parses_readHash.bind fun ch =>
    Parses.pure _).congr fun a bs => ?_
  rw [writeRemixSource, Except.ok.injEq]
  constructor
  · rintro ⟨up, _, _, rfl, ⟨ch, _, _, rfl, ⟨rfl, rfl⟩, rfl⟩, rfl⟩
    simp
  · rintro rfl
    exact ⟨a.upstream_id, _, _, rfl, ⟨a.commit_hash, _, [], rfl, ⟨rfl, rfl⟩, rfl⟩, by simp⟩

/-- The final order check of a remix accepts exactly the sorted source lists. -/
theorem sources_check_iff {sources : List RemixSource} : (¬(sources.length > 1 ∧
        (sources.zip sources.tail).any (fun w => sourceOrderBad w.1 w.2) = true)) ↔
      sources.IsChain RemixSource.before := by
  have hchain : sources.IsChain RemixSource.before ↔
      (sources.zip sources.tail).any (fun w => sourceOrderBad w.1 w.2) = false := by
    rw [any_windows_eq_false]
    simp only [sourceOrderBad_eq_false]
  rw [hchain]
  match sources with
  | [] => simp
  | [a] => simp
  | a :: b :: l => simp

theorem parses_readRemix :
    Parses readRemix (fun a bs => (Object.remix a).Decodable ∧ writeRemix a = .ok bs) := by
  have hsize : ∀ (s : RemixSource) (bs : Bytes),
      writeRemixSource s = .ok bs → 2 * HASH_LEN ≤ bs.length := by
    intro s bs h
    rw [writeRemixSource, Except.ok.injEq] at h
    simp [← h, two_mul]
  refine (parses_readHash.bind fun tree => parses_readU32.bind fun count => Parses.check
    ((parses_readHashes count.toNat).bind fun parents => parses_readU32.bind fun scount =>
      Parses.check ((parses_readCounted_const parses_readRemixSource hsize scount.toNat).bind
        fun sources => parses_readIdentity.bind fun author =>
          (parses_readLpBytes "remix.message").bind fun message => parses_readU64.bind fun ts =>
            (parses_readFixed 32).bind fun signer => (parses_readFixed 64).bind fun sig =>
              Parses.check (Parses.pure _)))).congr fun a bs => ?_
  simp only [writeRemix, bind_eq_ok, Except.ok.injEq]
  constructor
  · rintro ⟨tree, _, _, rfl, ⟨count, _, _, rfl, ⟨hmax, parents, p, _, ⟨hlen, hp⟩, ⟨scount, _, _,
      rfl, ⟨hsmax, sources, s, _, ⟨hslen, hs⟩, ⟨author, i, _, hi, ⟨message, m, _, hm, ⟨ts, _, _,
        rfl, ⟨signer, _, _, rfl, ⟨sig, _, _, rfl, ⟨hsort, rfl, rfl⟩, rfl⟩, rfl⟩, rfl⟩, rfl⟩,
      rfl⟩, rfl⟩, rfl⟩, rfl⟩, rfl⟩, rfl⟩
    rw [sources_check_iff] at hsort
    exact ⟨⟨by simp only [hlen]; omega, by simp only [hslen]; omega, hsort,
      (writeIdentity_eq_ok.mp hi).1, (writeLpBytes_eq_ok.mp hm).1⟩, count,
      checkedU32_toNat _ hlen, p, hp, scount, checkedU32_toNat _ hslen, s, hs, i, hi, m, hm,
      by simp⟩
  · rintro ⟨⟨hmax, hsmax, hsort, -, -⟩, count, hcount, p, hp, scount, hscount, s, hs, i, hi, m,
      hm, rfl⟩
    have hn := count_eq hcount
    have hsn := count_eq hscount
    exact ⟨a.tree_hash, _, _, rfl, ⟨count, _, _, rfl, ⟨by omega, a.parents, p, _,
      ⟨hn.symm, hp⟩, ⟨scount, _, _, rfl, ⟨by omega, a.sources, s, _, ⟨hsn.symm, hs⟩,
        ⟨a.author, i, _, hi, ⟨a.message, m, _, hm, ⟨a.timestamp, _, _, rfl,
          ⟨a.signer, _, _, rfl, ⟨a.signature, _, [], rfl,
            ⟨sources_check_iff.mpr hsort, rfl, rfl⟩, rfl⟩, rfl⟩, rfl⟩, rfl⟩, rfl⟩, rfl⟩, rfl⟩,
      rfl⟩, rfl⟩, by simp⟩

/-- `nameIsValid`, taken apart. -/
theorem Tag.nameIsValid_iff {t : Tag} : t.nameIsValid = true ↔
      t.name.length ≠ 0 ∧ t.name.length ≤ TAG_NAME_MAX_LEN ∧ t.name.any forbiddenByte = false := by
  rw [Tag.nameIsValid]
  by_cases hc : (t.name.isEmpty || decide (t.name.length > TAG_NAME_MAX_LEN)) = true
  · rw [if_pos hc]
    simp only [Bool.or_eq_true, List.isEmpty_iff_length_eq_zero, decide_eq_true_eq] at hc
    constructor
    · intro h
      exact absurd h (by simp)
    · rintro ⟨h0, hle, -⟩
      omega
  · rw [if_neg hc]
    simp only [Bool.or_eq_true, List.isEmpty_iff_length_eq_zero, decide_eq_true_eq, not_or] at hc
    simp only [Bool.not_eq_true']
    exact ⟨fun h => ⟨hc.1, by omega, h⟩, fun h => h.2.2⟩

theorem checkTagTargetType_eq_ok {t : ObjectType} {u : Unit} :
    checkTagTargetType t = .ok u ↔ t ≠ .delta := by
  rw [checkTagTargetType]
  by_cases h : t = .delta <;> simp [h]

theorem writeTag_eq_ok {t : Tag} {bs : Bytes} :
    writeTag t = .ok bs ↔ t.nameIsValid = true ∧ t.target_type ≠ .delta ∧
      ∃ name, writeLpBytes "tag.name" t.name = .ok name ∧
        ∃ tagger, writeIdentity t.tagger = .ok tagger ∧
          ∃ message, writeLpBytes "tag.message" t.message = .ok message ∧
            t.target.bytes ++ t.target_type.toU8 :: name ++ tagger ++ message ++
              writeU64Le t.timestamp ++ t.signer.bytes ++ t.signature.bytes = bs := by
  rw [writeTag]
  by_cases hv : t.nameIsValid = true
  · rw [if_neg (by simp [hv])]
    simp only [bind_eq_ok, Except.ok.injEq, checkTagTargetType_eq_ok, hv, true_and]
    exact ⟨fun ⟨_, h⟩ => h, fun h => ⟨(), h⟩⟩
  · rw [if_pos (by simp [hv])]
    simp only [hv, false_and, reduceCtorEq]

theorem parses_readTag :
    Parses readTag (fun a bs => (Object.tag a).Decodable ∧ writeTag a = .ok bs) := by
  refine (parses_readHash.bind fun target => parses_readU8.bind fun b =>
    (Parses.accept _).bind fun ty => (Parses.accept _).bind fun _ =>
      parses_readU32.bind fun len => Parses.check ((Parses.take _ _).bind fun name =>
        Parses.check (parses_readIdentity.bind fun tagger =>
          (parses_readLpBytes "tag.message").bind fun message => parses_readU64.bind fun ts =>
            (parses_readFixed 32).bind fun signer => (parses_readFixed 64).bind fun sig =>
              Parses.pure _))).congr fun a bs => ?_
  rw [writeTag_eq_ok]
  constructor
  · rintro ⟨target, _, _, rfl, ⟨b, _, _, rfl, ⟨ty, _, _, ⟨hty, rfl⟩, ⟨_, _, _, ⟨hck, rfl⟩,
      ⟨len, _, _, rfl, ⟨hlen, name, _, _, ⟨rfl, hname⟩, ⟨hany, tagger, i, _, hi, ⟨message, m, _,
        hm, ⟨ts, _, _, rfl, ⟨signer, _, _, rfl, ⟨sig, _, _, rfl, ⟨rfl, rfl⟩, rfl⟩, rfl⟩, rfl⟩,
      rfl⟩, rfl⟩, rfl⟩, rfl⟩, rfl⟩, rfl⟩, rfl⟩, rfl⟩
    rw [ObjectType.fromU8_eq_ok] at hty
    rw [checkTagTargetType_eq_ok] at hck
    subst hty
    have hv : Tag.nameIsValid ⟨target, ty, name, tagger, signer, message, ts, sig⟩ = true :=
      Tag.nameIsValid_iff.mpr ⟨by simp only [hname]; omega, by simp only [hname]; omega,
        by simpa using hany⟩
    have hlp : writeLpBytes "tag.name" name = .ok (writeU32Le len ++ name) :=
      writeLpBytes_eq_ok.mpr ⟨hname ▸ len.toNat_lt, by rw [writeU32Le, hname]⟩
    exact ⟨⟨hv, hck, (writeIdentity_eq_ok.mp hi).1, (writeLpBytes_eq_ok.mp hm).1⟩, hv, hck, _,
      hlp, i, hi, m, hm, by simp⟩
  · rintro ⟨-, hv, hty, n, hn, i, hi, m, hm, rfl⟩
    obtain ⟨h0, hle, hany⟩ := Tag.nameIsValid_iff.mp hv
    obtain ⟨hlt, rfl⟩ := writeLpBytes_eq_ok.mp hn
    have hnat : (UInt32.ofNat a.name.length).toNat = a.name.length := by
      rw [UInt32.toNat_ofNat', Nat.mod_eq_of_lt hlt]
    exact ⟨a.target, _, _, rfl, ⟨a.target_type.toU8, _, _, rfl, ⟨a.target_type, [], _,
      ⟨ObjectType.fromU8_eq_ok.mpr rfl, rfl⟩, ⟨(), [], _, ⟨checkTagTargetType_eq_ok.mpr hty, rfl⟩,
        ⟨UInt32.ofNat a.name.length, _, _, rfl, ⟨by omega, a.name, a.name, _, ⟨rfl, hnat.symm⟩,
          ⟨by simp [hany], a.tagger, i, _, hi, ⟨a.message, m, _, hm, ⟨a.timestamp, _, _, rfl,
            ⟨a.signer, _, _, rfl, ⟨a.signature, _, [], rfl, ⟨rfl, rfl⟩, rfl⟩, rfl⟩, rfl⟩, rfl⟩,
      rfl⟩, rfl⟩, rfl⟩, rfl⟩, rfl⟩, rfl⟩, by simp [writeU32Le_ofNat hlt]⟩

/-! ### Whole objects -/

/-- The body reader of a type reads the decodable objects of that type. -/
theorem parses_readBody (ty : ObjectType) : Parses (readBody ty)
      (fun o bs => o.objectType = ty ∧ o.Decodable ∧ writeBody o = .ok bs) := by
  have lift : ∀ {X : Type} {p : Reader X} {w : X → Except MkitError Bytes} (mk : X → Object),
      Parses p (fun x bs => (mk x).Decodable ∧ w x = .ok bs) →
        Parses (do let x ← p; pure (mk x))
          (fun o bs => ∃ x, o = mk x ∧ (mk x).Decodable ∧ w x = .ok bs) := by
    intro X p w mk hp
    refine (hp.bind fun x => Parses.pure (mk x)).congr fun o bs => ?_
    constructor
    · rintro ⟨x, u, _, ⟨hd, hw⟩, ⟨rfl, rfl⟩, rfl⟩
      exact ⟨x, rfl, hd, by rw [List.append_nil]; exact hw⟩
    · rintro ⟨x, rfl, hd, hw⟩
      exact ⟨x, bs, [], ⟨hd, hw⟩, ⟨rfl, rfl⟩, (List.append_nil bs).symm⟩
  -- Each type's relation is the one of its own reader; the other constructors do not carry
  -- its tag.
  cases ty with
  | blob =>
    refine (lift Object.blob parses_readBlob).congr fun o bs => ?_
    cases o <;> simp [Object.objectType, writeBody]
  | tree =>
    refine (lift Object.tree parses_readTree).congr fun o bs => ?_
    cases o <;> simp [Object.objectType, writeBody]
  | commit =>
    refine (lift Object.commit parses_readCommit).congr fun o bs => ?_
    cases o <;> simp [Object.objectType, writeBody]
  | remix =>
    refine (lift Object.remix parses_readRemix).congr fun o bs => ?_
    cases o <;> simp [Object.objectType, writeBody]
  | chunkedBlob =>
    refine (lift Object.chunkedBlob parses_readChunkedBlob).congr fun o bs => ?_
    cases o <;> simp [Object.objectType, writeBody]
  | delta =>
    refine (lift Object.delta parses_readDelta).congr fun o bs => ?_
    cases o <;> simp [Object.objectType, writeBody]
  | tag =>
    refine (lift Object.tag parses_readTag).congr fun o bs => ?_
    cases o <;> simp [Object.objectType, writeBody]

/-- The six prologue checks of `deserialize` accept exactly the prologue of a type. -/
theorem prologue_iff {data : Bytes} {ty : ObjectType} :
    (¬data.length < PROLOGUE_LEN ∧ ObjectType.fromU8 (data.headD 0) = .ok ty ∧
        (data.drop 1).take 4 = MAGIC ∧ data.getD 5 0 = SCHEMA_VERSION) ↔
      data = writePrologue ty ++ data.drop PROLOGUE_LEN := by
  rw [ObjectType.fromU8_eq_ok]
  constructor
  · rintro ⟨hlen, htag, hmagic, hver⟩
    match data, hlen with
    | a :: b :: c :: d :: e :: f :: rest, _ =>
      simp only [List.headD_cons] at htag
      simp only [List.drop_succ_cons, List.drop_zero, List.take_succ_cons, List.take_zero]
        at hmagic
      simp only [List.getD_cons_succ, List.getD_cons_zero] at hver
      simp [writePrologue, PROLOGUE_LEN, ← hmagic, htag, hver]
    | [], h | [_], h | [_, _], h | [_, _, _], h | [_, _, _, _], h | [_, _, _, _, _], h =>
      simp [PROLOGUE_LEN] at h
  · intro h
    have hlen : (writePrologue ty).length = 6 := rfl
    rw [h]
    refine ⟨?_, rfl, rfl, rfl⟩
    rw [List.length_append, hlen, PROLOGUE_LEN]
    omega

/-- **The decoder is the exact inverse of the encoder.** `deserialize` accepts `b` with result
`o` exactly when `o` is decodable and `b` is its canonical encoding. -/
theorem deserialize_eq_ok_iff {b : Bytes} {o : Object} :
    deserialize b = .ok o ↔ o.Decodable ∧ serialize o = .ok b := by
  have hser : serialize o = .ok b ↔
      ∃ body, writeBody o = .ok body ∧ writePrologue o.objectType ++ body = b := by
    simp only [serialize, bind_eq_ok, Except.ok.injEq]
  have hdes : deserialize b = .ok o ↔
      ∃ ty, b = writePrologue ty ++ b.drop PROLOGUE_LEN ∧
        readBody ty (b.drop PROLOGUE_LEN) = .ok (o, []) := by
    simp only [← prologue_iff, deserialize]
    by_cases hlen : b.length < PROLOGUE_LEN
    · simp [hlen]
    · rw [if_neg hlen, bind_eq_ok]
      refine exists_congr fun ty => ?_
      by_cases hm : (b.drop 1).take 4 = MAGIC
      · by_cases hv : b.getD 5 0 = SCHEMA_VERSION
        · rw [if_neg (not_not.mpr hm), if_neg (not_not.mpr hv), bind_eq_ok]
          constructor
          · rintro ⟨ht, ⟨obj, rest⟩, hr, hrest⟩
            by_cases h0 : rest.length = 0
            · rw [if_neg (not_not.mpr h0), Except.ok.injEq] at hrest
              rw [List.length_eq_zero_iff] at h0
              subst h0 hrest
              exact ⟨⟨hlen, ht, hm, hv⟩, hr⟩
            · rw [if_pos h0] at hrest
              exact absurd hrest (by simp)
          · rintro ⟨⟨-, ht, -, -⟩, hr⟩
            exact ⟨ht, (o, []), hr, rfl⟩
        · rw [if_neg (not_not.mpr hm), if_pos hv]
          simp only [reduceCtorEq, and_false, false_and, hv]
      · rw [if_pos hm]
        simp only [reduceCtorEq, and_false, false_and, hm]
  rw [hdes, hser]
  constructor
  · rintro ⟨ty, hb, hread⟩
    obtain ⟨bs, ⟨rfl, hd, hw⟩, hbs⟩ := (parses_readBody ty _ _ _).mp hread
    rw [List.append_nil] at hbs
    exact ⟨hd, bs, hw, by rw [← hbs]; exact hb.symm⟩
  · rintro ⟨hd, body, hw, rfl⟩
    have hdrop : (writePrologue o.objectType ++ body).drop PROLOGUE_LEN = body :=
      List.drop_left' rfl
    refine ⟨o.objectType, by rw [hdrop], ?_⟩
    rw [hdrop]
    exact (parses_readBody _ _ _ _).mpr ⟨body, ⟨rfl, hd, hw⟩, (List.append_nil body).symm⟩

/-! ### The writers accept every decodable object -/

theorem exists_checkedU32 (field : String) {n : ℕ} (h : n < 2 ^ 32) :
    ∃ v, checkedU32 field n = .ok v :=
  ⟨_, checkedU32_eq_ok.mpr ⟨h, rfl⟩⟩

theorem exists_writeLpBytes (field : String) {data : Bytes} (h : data.length < 2 ^ 32) :
    ∃ bs, writeLpBytes field data = .ok bs :=
  ⟨_, writeLpBytes_eq_ok.mpr ⟨h, rfl⟩⟩

theorem exists_writeIdentity {id : Identity} (h : id.isValid = true) :
    ∃ bs, writeIdentity id = .ok bs :=
  ⟨_, writeIdentity_eq_ok.mpr ⟨h, rfl⟩⟩

theorem exists_writeHashes (l : List Hash) : ∃ bs, writeAll writeHash l = .ok bs :=
  exists_writeAll fun h _ => ⟨h.bytes, rfl⟩

/-- No writer refuses the body of a decodable object. -/
theorem exists_writeBody_of_decodable {o : Object} (h : o.Decodable) :
    ∃ body, writeBody o = .ok body := by
  cases o with
  | blob b => exact exists_writeLpBytes _ h
  | tree t =>
    obtain ⟨hmax, hv, -⟩ := h
    obtain ⟨count, hcount⟩ := exists_checkedU32 "tree.entries"
      (lt_of_le_of_lt hmax (by decide : MAX_TREE_ENTRIES < 2 ^ 32))
    obtain ⟨u, hu⟩ : ∃ u, writeAll writeTreeEntry t.entries = .ok u := by
      refine exists_writeAll fun e he => ?_
      have hname := TreeEntry.length_le_of_validateName (hv e he)
      obtain ⟨n, hn⟩ := exists_writeLpBytes "tree.entry.name"
        (lt_of_le_of_lt hname (by decide : 255 < 2 ^ 32))
      exact ⟨_, by rw [writeTreeEntry, hn]; rfl⟩
    exact ⟨_, by rw [writeBody, writeTree, hcount, hu]; rfl⟩
  | commit c =>
    obtain ⟨hmax, ha, hm⟩ := h
    obtain ⟨count, hcount⟩ := exists_checkedU32 "commit.parents"
      (lt_of_le_of_lt hmax (by decide : MAX_PARENTS < 2 ^ 32))
    obtain ⟨p, hp⟩ := exists_writeHashes c.parents
    obtain ⟨i, hi⟩ := exists_writeIdentity ha
    obtain ⟨m, hm⟩ := exists_writeLpBytes "commit.message" hm
    exact ⟨_, by rw [writeBody, writeCommit, hcount, hp, hi, hm]; rfl⟩
  | remix r =>
    obtain ⟨hmax, hsmax, -, ha, hm⟩ := h
    obtain ⟨count, hcount⟩ := exists_checkedU32 "remix.parents"
      (lt_of_le_of_lt hmax (by decide : MAX_PARENTS < 2 ^ 32))
    obtain ⟨p, hp⟩ := exists_writeHashes r.parents
    obtain ⟨scount, hscount⟩ := exists_checkedU32 "remix.sources"
      (lt_of_le_of_lt hsmax (by decide : MAX_REMIX_SOURCES < 2 ^ 32))
    obtain ⟨s, hs⟩ : ∃ s, writeAll writeRemixSource r.sources = .ok s :=
      exists_writeAll fun x _ => ⟨_, rfl⟩
    obtain ⟨i, hi⟩ := exists_writeIdentity ha
    obtain ⟨m, hm⟩ := exists_writeLpBytes "remix.message" hm
    exact ⟨_, by rw [writeBody, writeRemix, hcount, hp, hscount, hs, hi, hm]; rfl⟩
  | chunkedBlob cb =>
    obtain ⟨count, hcount⟩ := exists_checkedU32 "chunked_blob.chunks"
      (lt_of_le_of_lt h (by decide : MAX_CHUNKS < 2 ^ 32))
    obtain ⟨u, hu⟩ := exists_writeHashes cb.chunks
    exact ⟨_, by rw [writeBody, writeChunkedBlob, hcount, hu]; rfl⟩
  | delta d =>
    obtain ⟨u, hu⟩ := exists_writeLpBytes "delta.instructions" h
    exact ⟨_, by rw [writeBody, writeDelta, hu]; rfl⟩
  | tag t =>
    obtain ⟨hv, hty, hi, hm⟩ := h
    obtain ⟨-, hle, -⟩ := Tag.nameIsValid_iff.mp hv
    obtain ⟨n, hn⟩ := exists_writeLpBytes "tag.name"
      (lt_of_le_of_lt hle (by decide : TAG_NAME_MAX_LEN < 2 ^ 32))
    obtain ⟨i, hi⟩ := exists_writeIdentity hi
    obtain ⟨m, hm⟩ := exists_writeLpBytes "tag.message" hm
    exact ⟨_, writeTag_eq_ok.mpr ⟨hv, hty, n, hn, i, hi, m, hm, rfl⟩⟩

/-- `serialize` accepts every decodable object. -/
theorem exists_serialize_of_decodable {o : Object} (h : o.Decodable) :
    ∃ b, serialize o = .ok b := by
  obtain ⟨body, hbody⟩ := exists_writeBody_of_decodable h
  exact ⟨_, by rw [serialize, hbody]; rfl⟩

/-- **The codec is a bijection** between the decodable objects and the accepted byte strings:
every decodable object is written and read back, every accepted byte string is the encoding of
the decodable object it is read as, and no object has two accepted encodings. -/
theorem codec_bijective :
    (∀ o : Object, o.Decodable → ∃ b, serialize o = .ok b ∧ deserialize b = .ok o) ∧
    (∀ (b : Bytes) (o : Object), deserialize b = .ok o →
      o.Decodable ∧ serialize o = .ok b) ∧
    (∀ (b b' : Bytes) (o : Object), deserialize b = .ok o → deserialize b' = .ok o →
      b = b') := by
  refine ⟨fun o h => ?_, fun b o h => deserialize_eq_ok_iff.mp h, fun b b' o h h' => ?_⟩
  · obtain ⟨b, hb⟩ := exists_serialize_of_decodable h
    exact ⟨b, hb, deserialize_eq_ok_iff.mpr ⟨h, hb⟩⟩
  · have hb := (deserialize_eq_ok_iff.mp h).2
    rw [(deserialize_eq_ok_iff.mp h').2] at hb
    exact (Except.ok.inj hb).symm

/-- A tree with one entry is decodable, so it is written and read back. -/
theorem codec_bijective_one_entry : ∃ b, serialize (.tree ⟨[⟨ascii ['a'], .blob, ZERO⟩]⟩) = .ok b ∧
      deserialize b = .ok (.tree ⟨[⟨ascii ['a'], .blob, ZERO⟩]⟩) :=
  codec_bijective.1 _ ⟨by decide, by decide, List.IsChain.singleton _⟩

end Mkit
