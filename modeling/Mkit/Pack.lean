import Mkit.DeltaStream
import Mkit.Store
import Mkit.Zstd

/-!
# Pack Files

A pack (`pack.rs`) is a header, a sequence of entries and a trailer with the digest of
everything before it. An entry is a type byte, a length and a payload: an object as it is
(`0x00`), a delta stream behind the id of its base (`0x02`), or either of the two with its
bytes compressed (`0x03`, `0x04`). This module has the framing: the checks of the header
(`validatePackHeader`), the walk that validates every entry's frame before anything is
yielded (`PackEntries.new`) and the iterator (`PackEntries.next`).

`Frame` is an entry as it stands on the wire and `packBytes` writes a pack out of its frames.
A string is accepted exactly when it is the pack of some legal frames (`new_eq_ok_iff`), and
iterating yields those frames one after the other (`yields_frames`).
-/

namespace Mkit.Pack

open Wire

/-- The four bytes that open a pack. -/
def MAGIC : Bytes := ascii ['M', 'K', 'I', 'T']

/-- Version of a pack without compressed entries. -/
def VERSION : ℕ := 1

/-- Version of a pack with at least one compressed entry. -/
def VERSION_V2 : ℕ := 2

/-- Most entries of a pack. -/
def MAX_ENTRIES : ℕ := 10000000

/-- Most payload bytes of a pack, 4 GiB. -/
def MAX_TOTAL_PAYLOAD : ℕ := 4 * 1024 * 1024 * 1024

/-- The trailer is a digest. -/
def TRAILER_LEN : ℕ := 32

/-- Magic, version and entry count. -/
def HEADER_LEN : ℕ := 4 + 4 + 4

/-- Type byte and payload length of an entry. -/
def ENTRY_FRAME_LEN : ℕ := 1 + 4

def VERSION_OFFSET : ℕ := 4

def ENTRY_COUNT_OFFSET : ℕ := 8

/-- Shorter payloads are never compressed. -/
def MIN_COMPRESS_LEN : ℕ := 64

/-- The length in front of a compressed payload's frame. -/
def ZSTD_LEN_PREFIX : ℕ := 4

/-- `u64::MAX`. -/
def U64_MAX : ℕ := 2 ^ 64 - 1

/-- Failures of the pack reader and writer. -/
inductive PackError where
  | packfileTooShort
  | invalidMagic
  | unsupportedVersion (version : ℕ)
  | invalidEntryType (etype : UInt8)
  | tooManyObjects (count : ℕ)
  | packfileTooLarge
  | unexpectedEof
  | packfileCorrupted
  | deltaBaseMissing (hex : Bytes)
  | deltaEntryTruncated
  | deltaApply (e : MkitError)
  | invalidObject (e : MkitError)
  | nonStorableObject
  | trailingData
  | store (e : StoreError)
  | zstdEntryTruncated
  | decompressedSizeOverCap (len : ℕ)
  | decompressedSizeMismatch (claimed actual : ℕ)
  | zstdDecompress (message : String)
  | rawOnly
deriving DecidableEq

/-- The failures of a step, as pack failures. -/
def liftDelta {α : Type} (x : Except MkitError α) : Except PackError α :=
  x.mapError .deltaApply

/-! ### Payloads -/

/-- A payload as the pack stores it. -/
inductive EncodedPayload where
  | plain (bytes : Bytes)
  | zstd (payload : Bytes)
deriving DecidableEq

/-- An entry whose payload is still encoded. -/
inductive Entry where
  | raw (payload : EncodedPayload)
  | delta (base : Hash) (stream : EncodedPayload)
deriving DecidableEq

/-- An entry whose payload has been decompressed. -/
inductive PackEntry where
  | raw (bytes : Bytes)
  | delta (base : Hash) (stream : Bytes)
deriving DecidableEq

/-- Split a compressed payload into its claimed length and its frame. -/
def zstdClaim (payload : Bytes) : Except PackError (ℕ × Bytes) :=
  if payload.length < ZSTD_LEN_PREFIX then .error .zstdEntryTruncated
  else
    let uncompressed_len := ofLeBytes (payload.take ZSTD_LEN_PREFIX)
    if MAX_RAW_OBJECT_SIZE < uncompressed_len then
      .error (.decompressedSizeOverCap uncompressed_len)
    else .ok (uncompressed_len, payload.drop ZSTD_LEN_PREFIX)

variable (Z : Zstd)

/-- Decompress exactly one frame, with at most `capacity` bytes of output. -/
def zstdDecompressInto (frame : Bytes) (capacity : ℕ) : Except PackError Bytes := do
  (Zstd.checkZstdFrameBounds frame).mapError .zstdDecompress
  let n ← (Z.findFrameCompressedSize frame).mapError .zstdDecompress
  if n ≠ frame.length then
    .error (.zstdDecompress
      (toString (frame.length - n) ++ " byte(s) after the entry's single zstd frame"))
  else do
    let output ← (Z.decompressToBuffer frame capacity).mapError .zstdDecompress
    if capacity < output.length then .error (.zstdDecompress "zstd frame exceeds its claim")
    else .ok output

/-- Decompress a compressed payload to the length it claims. -/
def decompressZstdEntry (payload : Bytes) : Except PackError Bytes := do
  let (len, frame) ← zstdClaim payload
  let output ← zstdDecompressInto Z frame len
  if output.length ≠ len then .error (.decompressedSizeMismatch len output.length)
  else .ok output

/-- The bytes behind a payload. -/
def EncodedPayload.decode : EncodedPayload → Except PackError Bytes
  | .plain bytes => .ok bytes
  | .zstd payload => decompressZstdEntry Z payload

theorem length_base {payload : Bytes} (h : ¬ payload.length < HASH_LEN) :
    (payload.take HASH_LEN).length = HASH_LEN := by
  rw [List.length_take]
  omega

/-- Interpret the payload of an entry by its type; compressed types need a pack of version
2. -/
def encodedPayload (etype : UInt8) (version : ℕ) (payload : Bytes) : Except PackError Entry :=
  if etype = 0x00 then .ok (.raw (.plain payload))
  else if etype = 0x03 ∧ version = VERSION_V2 then .ok (.raw (.zstd payload))
  else if etype = 0x02 ∨ (etype = 0x04 ∧ version = VERSION_V2) then
    if h : payload.length < HASH_LEN then .error .deltaEntryTruncated
    else
      let base : Hash := ⟨payload.take HASH_LEN, length_base h⟩
      let bytes := payload.drop HASH_LEN
      .ok (.delta base (if etype = 0x02 then .plain bytes else .zstd bytes))
  else .error (.invalidEntryType etype)

/-- Decompress what an entry carries. -/
def decodeEncodedPayload : Entry → Except PackError PackEntry
  | .raw payload => do
    let bytes ← payload.decode Z
    .ok (.raw bytes)
  | .delta base stream => do
    let bytes ← stream.decode Z
    .ok (.delta base bytes)

/-- Decode a payload and check that it may be stored: a canonical object that is not a
delta. -/
def validateStorableObject (bytes : Bytes) : Except PackError Object :=
  if MAX_RAW_OBJECT_SIZE < bytes.length then .error (.store .objectTooLarge)
  else
    match deserialize bytes with
    | .error e => .error (.invalidObject e)
    | .ok (.delta _) => .error .nonStorableObject
    | .ok obj => .ok obj

/-- The result length of a stream, checked against the size of an object. -/
def validateDeltaResultSize (stream : Bytes) : Except PackError ℕ :=
  if stream.length < DeltaStream.HEADER_LEN then .error (.deltaApply .unexpectedEof)
  else
    let result_len := ofLeBytes ((stream.drop 5).take 4)
    if MAX_RAW_OBJECT_SIZE < result_len then .error (.store .objectTooLarge)
    else .ok result_len

/-! ### Framing -/

variable (B : Blake3)

/-- Check length, magic, version, trailer and entry count, in this order; gives the version,
the offset of the trailer and the entry count. -/
def validatePackHeader (bytes : Bytes) : Except PackError (ℕ × ℕ × ℕ) :=
  if bytes.length < HEADER_LEN + TRAILER_LEN then .error .packfileTooShort
  else if bytes.take 4 ≠ MAGIC then .error .invalidMagic
  else
    let version := ofLeBytes ((bytes.drop VERSION_OFFSET).take 4)
    if version ≠ VERSION ∧ version ≠ VERSION_V2 then .error (.unsupportedVersion version)
    else
      let split := bytes.length - TRAILER_LEN
      if (B.hash (bytes.take split)).bytes ≠ bytes.drop split then .error .packfileCorrupted
      else
        let count := ofLeBytes ((bytes.drop ENTRY_COUNT_OFFSET).take 4)
        if MAX_ENTRIES < count then .error (.tooManyObjects count)
        else if split - HEADER_LEN < count * ENTRY_FRAME_LEN then .error (.tooManyObjects count)
        else .ok (version, split, count)

/-- The type and the payload length at an offset. -/
def frameHeader (bytes : Bytes) (pos : ℕ) : UInt8 × ℕ :=
  (bytes.getD pos 0, ofLeBytes ((bytes.drop (pos + 1)).take 4))

/-- May an entry of this type and payload length stand in a pack of this version? -/
def checkEntryType (etype : UInt8) (version payload_len : ℕ) : Except PackError Unit :=
  if etype = 0x00 then .ok ()
  else if etype = 0x02 then
    if payload_len < HASH_LEN then .error .deltaEntryTruncated else .ok ()
  else if etype = 0x03 ∧ version = VERSION_V2 then .ok ()
  else if etype = 0x04 ∧ version = VERSION_V2 then
    if payload_len < HASH_LEN then .error .deltaEntryTruncated else .ok ()
  else .error (.invalidEntryType etype)

/-- Walk `n` frames from `pos`, `total` payload bytes in; gives the offset behind them and the
index of the first entry that is not plain. -/
def scanFrames (bytes : Bytes) (version split payload_cap : ℕ) :
    ℕ → ℕ → ℕ → ℕ → Option ℕ → Except PackError (ℕ × Option ℕ)
  | 0, _, pos, _, first_non_raw => .ok (pos, first_non_raw)
  | n + 1, i, pos, total, first_non_raw =>
    if split - pos < ENTRY_FRAME_LEN then .error .unexpectedEof
    else
      let (etype, payload_len) := frameHeader bytes pos
      let pos := pos + ENTRY_FRAME_LEN
      let total := min (total + payload_len) U64_MAX
      if payload_cap < total then .error .packfileTooLarge
      else if split - pos < payload_len then .error .unexpectedEof
      else
        match checkEntryType etype version payload_len with
        | .error e => .error e
        | .ok () =>
          scanFrames bytes version split payload_cap n (i + 1) (pos + payload_len) total
            (if etype = 0x00 then first_non_raw else first_non_raw.or (some i))

/-- The entries of a pack, one frame at a time. -/
structure PackEntries where
  /-- The whole pack. -/
  bytes : Bytes
  version : ℕ
  /-- Where the trailer begins. -/
  split : ℕ
  count : ℕ
  /-- Where the next frame begins. -/
  pos : ℕ
  yielded : ℕ
  first_non_raw : Option ℕ
  /-- Where the payload yielded last stands. -/
  last_payload_range : Option (ℕ × ℕ)
  done : Bool

/-- Validate a pack, with a cap on its payload bytes. -/
def PackEntries.newWithPayloadCap (bytes : Bytes) (payload_cap : ℕ) :
    Except PackError PackEntries := do
  let (version, split, count) ← validatePackHeader B bytes
  let (pos, first_non_raw) ← scanFrames bytes version split payload_cap count 0 HEADER_LEN 0 none
  if pos ≠ split then .error .trailingData
  else .ok { bytes, version, split, count, pos := HEADER_LEN, yielded := 0, first_non_raw,
             last_payload_range := none, done := false }

/-- Validate a pack and prepare to iterate. -/
def PackEntries.new (bytes : Bytes) : Except PackError PackEntries :=
  PackEntries.newWithPayloadCap B bytes MAX_TOTAL_PAYLOAD

/-- Take the frame at the iterator's offset. A payload that cannot be interpreted is an error
behind the frame: the iterator has moved on. -/
def PackEntries.nextEncodedEntry (p : PackEntries) : Except PackError Entry × PackEntries :=
  if p.split - p.pos < ENTRY_FRAME_LEN then (.error .unexpectedEof, p)
  else
    let (etype, payload_len) := frameHeader p.bytes p.pos
    let start := p.pos + ENTRY_FRAME_LEN
    if p.split - start < payload_len then (.error .unexpectedEof, { p with pos := start })
    else
      let payload := (p.bytes.drop start).take payload_len
      (encodedPayload etype p.version payload,
        { p with
          pos := start + payload_len
          yielded := p.yielded + 1
          last_payload_range := some (start, start + payload_len) })

/-- The next entry, decompressed; `none` at the end. An error ends the iteration. -/
def PackEntries.next (p : PackEntries) : Option (Except PackError PackEntry) × PackEntries :=
  if p.done ∨ p.count ≤ p.yielded then (none, { p with done := true })
  else
    match p.nextEncodedEntry with
    | (.error e, p') => (some (.error e), { p' with done := true })
    | (.ok entry, p') =>
      match decodeEncodedPayload Z entry with
      | .ok e => (some (.ok e), p')
      | .error e => (some (.error e), { p' with done := true })

/-! ### Packs as sequences of frames -/

/-- An entry as it stands on the wire. -/
structure Frame where
  etype : UInt8
  payload : Bytes
deriving DecidableEq

namespace Frame

/-- The bytes of a frame. -/
def wire (f : Frame) : Bytes :=
  f.etype :: leBytes 4 f.payload.length ++ f.payload

/-- May the frame stand in a pack of this version? -/
def Legal (version : ℕ) (f : Frame) : Prop :=
  f.payload.length < 2 ^ 32 ∧ checkEntryType f.etype version f.payload.length = .ok ()

/-- The entry behind a frame. -/
def entry (version : ℕ) (f : Frame) : Except PackError Entry :=
  encodedPayload f.etype version f.payload

@[simp] theorem length_wire (f : Frame) : f.wire.length = ENTRY_FRAME_LEN + f.payload.length := by
  simp [wire, ENTRY_FRAME_LEN]
  omega

/-- A legal frame's payload can be interpreted, as far as its bytes are not compressed. -/
theorem Legal.exists_entry {version : ℕ} {f : Frame} (h : f.Legal version) :
    ∃ e, f.entry version = .ok e := by
  obtain ⟨-, h⟩ := h
  rw [checkEntryType] at h
  rw [entry, encodedPayload]
  by_cases h0 : f.etype = 0x00
  · exact ⟨_, if_pos h0⟩
  rw [if_neg h0] at h ⊢
  by_cases h2 : f.etype = 0x02
  · rw [if_pos h2] at h
    have hlen : ¬ f.payload.length < HASH_LEN := by
      intro hlt
      rw [if_pos hlt] at h
      cases h
    rw [if_neg (by simp [h2]), if_pos (.inl h2), dif_neg hlen]
    exact ⟨_, rfl⟩
  rw [if_neg h2] at h
  by_cases h3 : f.etype = 0x03 ∧ version = VERSION_V2
  · exact ⟨_, if_pos h3⟩
  rw [if_neg h3] at h ⊢
  by_cases h4 : f.etype = 0x04 ∧ version = VERSION_V2
  · rw [if_pos h4] at h
    have hlen : ¬ f.payload.length < HASH_LEN := by
      intro hlt
      rw [if_pos hlt] at h
      cases h
    rw [if_pos (.inr h4), dif_neg hlen]
    exact ⟨_, rfl⟩
  · rw [if_neg h4] at h
    cases h

end Frame

/-- The bytes of a sequence of frames. -/
def framesWire (fs : List Frame) : Bytes :=
  (fs.map Frame.wire).flatten

/-- The payload bytes of a sequence of frames. -/
def payloadSum (fs : List Frame) : ℕ :=
  (fs.map fun f => f.payload.length).sum

@[simp] theorem framesWire_nil : framesWire [] = [] := rfl

@[simp] theorem framesWire_cons (f : Frame) (fs : List Frame) :
    framesWire (f :: fs) = f.wire ++ framesWire fs := rfl

@[simp] theorem framesWire_append (fs gs : List Frame) :
    framesWire (fs ++ gs) = framesWire fs ++ framesWire gs := by
  simp [framesWire]

@[simp] theorem payloadSum_nil : payloadSum [] = 0 := rfl

@[simp] theorem payloadSum_cons (f : Frame) (fs : List Frame) :
    payloadSum (f :: fs) = f.payload.length + payloadSum fs := by
  simp [payloadSum]

@[simp] theorem payloadSum_append (fs gs : List Frame) :
    payloadSum (fs ++ gs) = payloadSum fs + payloadSum gs := by
  simp [payloadSum]

theorem length_framesWire (fs : List Frame) :
    (framesWire fs).length = fs.length * ENTRY_FRAME_LEN + payloadSum fs := by
  induction fs with
  | nil => rfl
  | cons f fs ih =>
    rw [framesWire_cons, List.length_append, ih, Frame.length_wire, payloadSum_cons,
      List.length_cons]
    ring

/-- Everything before the trailer. -/
def packBody (version : ℕ) (fs : List Frame) : Bytes :=
  MAGIC ++ leBytes 4 version ++ leBytes 4 fs.length ++ framesWire fs

/-- The pack of a sequence of frames. -/
def packBytes (version : ℕ) (fs : List Frame) : Bytes :=
  packBody version fs ++ (B.hash (packBody version fs)).bytes

/-- What the walk demands of the frames of a pack. -/
structure LegalPack (version payload_cap : ℕ) (fs : List Frame) : Prop where
  version_eq : version = VERSION ∨ version = VERSION_V2
  length_le : fs.length ≤ MAX_ENTRIES
  legal : ∀ f ∈ fs, f.Legal version
  payload_le : payloadSum fs ≤ payload_cap

theorem length_packBody (version : ℕ) (fs : List Frame) :
    (packBody version fs).length = HEADER_LEN + (framesWire fs).length := by
  simp [packBody, HEADER_LEN, MAGIC, ascii]
  omega

theorem length_packBytes (version : ℕ) (fs : List Frame) :
    (packBytes B version fs).length = HEADER_LEN + (framesWire fs).length + TRAILER_LEN := by
  rw [packBytes, List.length_append, length_packBody, ByteArr.length_bytes]
  rfl

/-! ### The walk over the frames -/

variable {bytes : Bytes} {version split pos : ℕ}

variable {f : Frame}

/-- The header of a frame is read back from its bytes. -/
theorem frameHeader_wire {rest : Bytes} (hf : f.payload.length < 2 ^ 32)
    (h : bytes.drop pos = f.wire ++ rest) :
    frameHeader bytes pos = (f.etype, f.payload.length) := by
  have htype : bytes[pos]? = some f.etype := by
    rw [← List.head?_drop, h]
    rfl
  have hlen : bytes.drop (pos + 1) = leBytes 4 f.payload.length ++ (f.payload ++ rest) := by
    rw [← List.drop_drop, h, Frame.wire, List.append_assoc]
    simp
  rw [frameHeader, hlen, List.take_left' (length_leBytes 4 _), ofLeBytes_leBytes,
    List.getD_eq_getElem?_getD, htype]
  exact congrArg (Prod.mk f.etype) (Nat.mod_eq_of_lt hf)

/-- The payload of a frame is read back from its bytes. -/
theorem payload_wire {rest : Bytes} (h : bytes.drop pos = f.wire ++ rest) :
    (bytes.drop (pos + ENTRY_FRAME_LEN)).take f.payload.length = f.payload ∧
      bytes.drop (pos + ENTRY_FRAME_LEN + f.payload.length) = rest := by
  have hdrop : bytes.drop (pos + ENTRY_FRAME_LEN) = f.payload ++ rest := by
    rw [← List.drop_drop, h, Frame.wire, List.append_assoc]
    exact List.drop_left' (by simp [ENTRY_FRAME_LEN])
  refine ⟨by rw [hdrop, List.take_left], ?_⟩
  rw [← List.drop_drop, hdrop, List.drop_left]

/-- Whatever stands at an offset with enough bytes behind it is a frame. -/
theorem exists_frame {etype : UInt8} {len : ℕ} (hh : frameHeader bytes pos = (etype, len))
    (hlen : pos + ENTRY_FRAME_LEN + len ≤ bytes.length) :
    ∃ f : Frame, f.etype = etype ∧ f.payload.length = len ∧ len < 2 ^ 32 ∧
      f.payload = (bytes.drop (pos + ENTRY_FRAME_LEN)).take len ∧
      bytes.drop pos = f.wire ++ bytes.drop (pos + ENTRY_FRAME_LEN + len) := by
  have h5 : ENTRY_FRAME_LEN = 5 := rfl
  rw [frameHeader, Prod.mk.injEq] at hh
  obtain ⟨rfl, rfl⟩ := hh
  set word := (bytes.drop (pos + 1)).take 4 with hword
  have hword4 : word.length = 4 := by
    rw [hword, List.length_take, List.length_drop]
    omega
  have hpay : ((bytes.drop (pos + ENTRY_FRAME_LEN)).take (ofLeBytes word)).length =
      ofLeBytes word := by
    rw [List.length_take, List.length_drop]
    omega
  have hlt := ofLeBytes_lt word
  rw [hword4] at hlt
  refine ⟨⟨bytes.getD pos 0, (bytes.drop (pos + ENTRY_FRAME_LEN)).take (ofLeBytes word)⟩,
    rfl, hpay, hlt, rfl, ?_⟩
  have hle : leBytes 4 (ofLeBytes word) = word := by
    rw [← hword4]
    exact leBytes_ofLeBytes word
  have hcons : bytes.drop pos = bytes.getD pos 0 :: bytes.drop (pos + 1) := by
    have hlt : pos < bytes.length := by omega
    rw [List.drop_eq_getElem_cons hlt, List.getD_eq_getElem?_getD, List.getElem?_eq_getElem hlt]
    rfl
  have hsplit : bytes.drop (pos + 1) = word ++ bytes.drop (pos + ENTRY_FRAME_LEN) := by
    have hdrop : bytes.drop (pos + ENTRY_FRAME_LEN) = (bytes.drop (pos + 1)).drop 4 := by
      rw [List.drop_drop]
      rfl
    rw [hdrop, hword, List.take_append_drop]
  have htail : bytes.drop (pos + ENTRY_FRAME_LEN) =
      (bytes.drop (pos + ENTRY_FRAME_LEN)).take (ofLeBytes word) ++
        bytes.drop (pos + ENTRY_FRAME_LEN + ofLeBytes word) := by
    have hdrop : bytes.drop (pos + ENTRY_FRAME_LEN + ofLeBytes word) =
        (bytes.drop (pos + ENTRY_FRAME_LEN)).drop (ofLeBytes word) := by
      rw [List.drop_drop]
    rw [hdrop, List.take_append_drop]
  simp only [Frame.wire, hpay, hle]
  rw [hcons, hsplit, List.cons_append, List.cons_append, List.append_assoc, ← htail]

/-- The walk reaches the trailer exactly on legal frames that fill the space before it. -/
theorem scanFrames_eq_ok_iff {cap n i total : ℕ} {first : Option ℕ} (hcap : cap < U64_MAX)
    (hpos : pos ≤ split) (hsplit : split ≤ bytes.length) :
    (∃ first', scanFrames bytes version split cap n i pos total first = .ok (split, first')) ↔
      ∃ fs, fs.length = n ∧ bytes.drop pos = framesWire fs ++ bytes.drop split ∧
        (∀ f ∈ fs, f.Legal version) ∧ (fs ≠ [] → total + payloadSum fs ≤ cap) := by
  induction n generalizing i pos total first with
  | zero =>
    simp only [scanFrames, Except.ok.injEq, Prod.mk.injEq]
    constructor
    · rintro ⟨_, rfl, -⟩
      exact ⟨[], rfl, rfl, by simp, by simp⟩
    · rintro ⟨fs, hfs, hdrop, -⟩
      obtain rfl : fs = [] := List.length_eq_zero_iff.1 hfs
      have := congrArg List.length hdrop
      simp only [framesWire_nil, List.nil_append, List.length_drop] at this
      exact ⟨first, by omega, rfl⟩
  | succ n ih =>
    obtain ⟨etype, len, hh⟩ : ∃ etype len, frameHeader bytes pos = (etype, len) :=
      ⟨_, _, rfl⟩
    rw [scanFrames]
    simp only [hh]
    by_cases hshort : split - pos < ENTRY_FRAME_LEN ∨ split - (pos + ENTRY_FRAME_LEN) < len
    · -- no room for the frame, on either side
      constructor
      · rintro ⟨first', h⟩
        split_ifs at h <;> first | cases h | omega
      · rintro ⟨fs, hfs, hdrop, hlegal, -⟩
        obtain ⟨f, fs, rfl⟩ := List.exists_cons_of_length_eq_add_one hfs
        rw [framesWire_cons, List.append_assoc] at hdrop
        have hf := frameHeader_wire (hlegal f (List.mem_cons_self)).1 hdrop
        rw [hh, Prod.mk.injEq] at hf
        have := congrArg List.length hdrop
        simp only [List.length_append, List.length_drop, Frame.length_wire] at this
        omega
    rw [not_or] at hshort
    obtain ⟨hroom, hlen⟩ := hshort
    rw [if_neg hroom, if_neg hlen]
    obtain ⟨f, hftype, hflen, hlt, -, hdrop⟩ := exists_frame hh (by omega)
    have hmin : min (total + len) U64_MAX ≤ cap ↔ total + len ≤ cap := by omega
    by_cases htotal : cap < min (total + len) U64_MAX
    · rw [if_pos htotal]
      constructor
      · rintro ⟨first', h⟩
        cases h
      · rintro ⟨fs, hfs, hdrop', hlegal, hsum⟩
        obtain ⟨f', fs, rfl⟩ := List.exists_cons_of_length_eq_add_one hfs
        rw [framesWire_cons, List.append_assoc] at hdrop'
        have hf := frameHeader_wire (hlegal f' (List.mem_cons_self)).1 hdrop'
        rw [hh, Prod.mk.injEq] at hf
        have hsum := hsum (List.cons_ne_nil _ _)
        rw [payloadSum_cons] at hsum
        omega
    rw [if_neg htotal]
    have hpos' : pos + ENTRY_FRAME_LEN + len ≤ split := by omega
    cases hcheck : checkEntryType etype version len with
    | error e =>
      constructor
      · rintro ⟨first', h⟩
        cases h
      · rintro ⟨fs, hfs, hdrop', hlegal, -⟩
        obtain ⟨f', fs, rfl⟩ := List.exists_cons_of_length_eq_add_one hfs
        rw [framesWire_cons, List.append_assoc] at hdrop'
        have hl := hlegal f' (List.mem_cons_self)
        have hf := frameHeader_wire hl.1 hdrop'
        rw [hh, Prod.mk.injEq] at hf
        have hok := hl.2
        rw [← hf.1, ← hf.2, hcheck] at hok
        cases hok
    | ok _ =>
      rw [ih hpos']
      constructor
      · rintro ⟨fs, hfs, hdrop', hlegal, hsum⟩
        refine ⟨f :: fs, by simp [hfs], ?_, ?_, fun _ => ?_⟩
        · rw [framesWire_cons, List.append_assoc, ← hdrop', hdrop]
        · intro g hg
          rcases List.mem_cons.1 hg with rfl | hg
          · exact ⟨by omega, by rw [hftype, hflen, hcheck]⟩
          · exact hlegal g hg
        · rw [payloadSum_cons]
          by_cases hnil : fs = []
          · subst hnil
            rw [payloadSum_nil]
            omega
          · have := hsum hnil
            omega
      · rintro ⟨fs, hfs, hdrop', hlegal, hsum⟩
        obtain ⟨f', fs, rfl⟩ := List.exists_cons_of_length_eq_add_one hfs
        rw [framesWire_cons, List.append_assoc] at hdrop'
        have hl := hlegal f' (List.mem_cons_self)
        have hf := frameHeader_wire hl.1 hdrop'
        rw [hh, Prod.mk.injEq] at hf
        have hrest := (payload_wire hdrop').2
        rw [← hf.2] at hrest
        refine ⟨fs, by simpa using hfs, hrest,
          fun g hg => hlegal g (List.mem_cons_of_mem _ hg), fun _ => ?_⟩
        have hsum := hsum (List.cons_ne_nil _ _)
        rw [payloadSum_cons] at hsum
        omega

/-! ### Accepted packs -/

theorem take_packBody (version : ℕ) (fs : List Frame) :
    (packBytes B version fs).take (HEADER_LEN + (framesWire fs).length) = packBody version fs :=
  List.take_left' (length_packBody version fs)

theorem drop_packBody (version : ℕ) (fs : List Frame) :
    (packBytes B version fs).drop (HEADER_LEN + (framesWire fs).length) =
      (B.hash (packBody version fs)).bytes :=
  List.drop_left' (length_packBody version fs)

/-- The frames stand behind the header. -/
theorem drop_header (version : ℕ) (fs : List Frame) : (packBytes B version fs).drop HEADER_LEN =
      framesWire fs ++ (B.hash (packBody version fs)).bytes := by
  rw [packBytes, packBody, List.append_assoc]
  exact List.drop_left' rfl

variable {fs : List Frame}

/-- The header of a pack passes its checks. -/
theorem validatePackHeader_packBytes
    (hv : version = VERSION ∨ version = VERSION_V2) (hlen : fs.length ≤ MAX_ENTRIES) :
    validatePackHeader B (packBytes B version fs) =
      .ok (version, HEADER_LEN + (framesWire fs).length, fs.length) := by
  have hv4 : version < 256 ^ 4 := by
    rcases hv with rfl | rfl <;> decide
  have hn4 : fs.length < 256 ^ 4 := by
    have : MAX_ENTRIES < 256 ^ 4 := by decide
    omega
  have hsplit : (packBytes B version fs).length - TRAILER_LEN =
      HEADER_LEN + (framesWire fs).length := by
    rw [length_packBytes, Nat.add_sub_cancel]
  have hversion : ofLeBytes (((packBytes B version fs).drop VERSION_OFFSET).take 4) =
      version := by
    have h : (packBytes B version fs).drop VERSION_OFFSET = leBytes 4 version ++
        (leBytes 4 fs.length ++ framesWire fs ++ (B.hash (packBody version fs)).bytes) := by
      rw [packBytes, packBody, List.append_assoc, List.append_assoc, List.append_assoc]
      exact List.drop_left' rfl
    rw [h, List.take_left' (length_leBytes 4 _), ofLeBytes_leBytes, Nat.mod_eq_of_lt hv4]
  have hcount : ofLeBytes (((packBytes B version fs).drop ENTRY_COUNT_OFFSET).take 4) =
      fs.length := by
    have h : (packBytes B version fs).drop ENTRY_COUNT_OFFSET = leBytes 4 fs.length ++
        (framesWire fs ++ (B.hash (packBody version fs)).bytes) := by
      rw [packBytes, packBody, List.append_assoc, List.append_assoc]
      exact List.drop_left' rfl
    rw [h, List.take_left' (length_leBytes 4 _), ofLeBytes_leBytes, Nat.mod_eq_of_lt hn4]
  have hmagic : (packBytes B version fs).take 4 = MAGIC := by
    rw [packBytes, packBody, List.append_assoc, List.append_assoc, List.append_assoc]
    exact List.take_left' rfl
  rw [validatePackHeader, if_neg (by rw [length_packBytes]; omega), if_neg (not_not.2 hmagic)]
  simp only [hversion, hsplit, hcount, take_packBody, drop_packBody]
  rw [if_neg (by tauto), if_neg (by simp), if_neg (by omega), if_neg]
  rw [length_framesWire]
  omega

/-- A string whose header passes is a header of this version and count, something, and the
digest of both. -/
theorem validatePackHeader_eq_ok {count : ℕ}
    (h : validatePackHeader B bytes = .ok (version, split, count)) :
    (version = VERSION ∨ version = VERSION_V2) ∧ count ≤ MAX_ENTRIES ∧
      split = bytes.length - TRAILER_LEN ∧ HEADER_LEN ≤ split ∧ split ≤ bytes.length ∧
      bytes.take HEADER_LEN = MAGIC ++ leBytes 4 version ++ leBytes 4 count ∧
      bytes.drop split = (B.hash (bytes.take split)).bytes := by
  have hH : HEADER_LEN = 12 := rfl
  have hT : TRAILER_LEN = 32 := rfl
  simp only [validatePackHeader] at h
  by_cases hshort : bytes.length < HEADER_LEN + TRAILER_LEN
  · rw [if_pos hshort] at h
    cases h
  rw [if_neg hshort] at h
  split_ifs at h with hmagic hversion htrailer hmany hspace
  simp only [Except.ok.injEq, Prod.mk.injEq] at h
  obtain ⟨rfl, rfl, rfl⟩ := h
  have hword : ∀ k, k + 4 ≤ bytes.length →
      leBytes 4 (ofLeBytes ((bytes.drop k).take 4)) = (bytes.drop k).take 4 := by
    intro k hk
    have hlen : ((bytes.drop k).take 4).length = 4 := by
      rw [List.length_take, List.length_drop]
      omega
    have hle := leBytes_ofLeBytes ((bytes.drop k).take 4)
    rwa [hlen] at hle
  have hhead : bytes.take HEADER_LEN =
      bytes.take 4 ++ (bytes.drop 4).take 4 ++ (bytes.drop 8).take 4 := by
    rw [hH, show (12 : ℕ) = 4 + 4 + 4 from rfl, List.take_add, List.take_add]
  refine ⟨by tauto, by omega, rfl, by omega, by omega, ?_, (not_not.1 htrailer).symm⟩
  rw [hhead, not_not.1 hmagic, VERSION_OFFSET, ENTRY_COUNT_OFFSET, hword 4 (by omega),
    hword 8 (by omega)]

/-- The iterator at the start of a pack. -/
def PackEntries.start (bytes : Bytes) (version : ℕ) (fs : List Frame) (first : Option ℕ) :
    PackEntries :=
  { bytes, version, split := HEADER_LEN + (framesWire fs).length, count := fs.length,
    pos := HEADER_LEN, yielded := 0, first_non_raw := first, last_payload_range := none,
    done := false }

variable {p : PackEntries}

/-- **Exactly the packs of legal frames are accepted.** -/
theorem newWithPayloadCap_eq_ok_iff {cap : ℕ} (hcap : cap < U64_MAX) :
    PackEntries.newWithPayloadCap B bytes cap = .ok p ↔
      ∃ version fs first, LegalPack version cap fs ∧ bytes = packBytes B version fs ∧
        scanFrames bytes version (HEADER_LEN + (framesWire fs).length) cap fs.length 0 HEADER_LEN
          0 none = .ok (HEADER_LEN + (framesWire fs).length, first) ∧
        p = PackEntries.start bytes version fs first := by
  constructor
  · intro h
    rw [PackEntries.newWithPayloadCap, Wire.bind_eq_ok] at h
    obtain ⟨⟨version, split, count⟩, hheader, h⟩ := h
    rw [Wire.bind_eq_ok] at h
    obtain ⟨⟨pos, first⟩, hscan, h⟩ := h
    dsimp only at h hscan
    split_ifs at h with hend
    obtain rfl := not_not.1 hend
    obtain ⟨hv, hcount, hsplit, hle, hle', hhead, htrailer⟩ := validatePackHeader_eq_ok B hheader
    obtain ⟨fs, rfl, hdrop, hlegal, hsum⟩ :=
      (scanFrames_eq_ok_iff hcap hle hle').1 ⟨first, hscan⟩
    have hpos : pos = HEADER_LEN + (framesWire fs).length := by
      have := congrArg List.length hdrop
      rw [List.length_append, List.length_drop, List.length_drop] at this
      omega
    have hbody : bytes.take pos = packBody version fs := by
      have htake : (bytes.drop HEADER_LEN).take (framesWire fs).length = framesWire fs := by
        rw [hdrop, List.take_left]
      rw [hpos, List.take_add, hhead, htake]
      rfl
    have hbytes : bytes = packBytes B version fs := by
      rw [packBytes, ← hbody, ← htrailer, List.take_append_drop]
    refine ⟨version, fs, first, ⟨hv, hcount, hlegal, ?_⟩, hbytes, ?_, ?_⟩
    · by_cases hnil : fs = []
      · simp [hnil]
      · simpa using hsum hnil
    · rw [← hpos, hscan]
    · rw [← Except.ok.inj h, PackEntries.start, hpos]
  · rintro ⟨version, fs, first, hlegal, hbytes, hscan, rfl⟩
    rw [PackEntries.newWithPayloadCap, hbytes,
      validatePackHeader_packBytes B hlegal.version_eq hlegal.length_le]
    rw [hbytes] at hscan
    change (scanFrames _ _ _ _ _ _ _ _ _ >>= _) = _
    rw [hscan]
    change (if _ then _ else _) = _
    rw [if_neg (by simp)]
    rfl

/-- The pack of legal frames is accepted. -/
theorem exists_new_packBytes {cap : ℕ} (hcap : cap < U64_MAX) (h : LegalPack version cap fs) :
    ∃ first, PackEntries.newWithPayloadCap B (packBytes B version fs) cap =
      .ok (PackEntries.start (packBytes B version fs) version fs first) := by
  have hlen : (packBytes B version fs).length =
      HEADER_LEN + (framesWire fs).length + TRAILER_LEN := length_packBytes B version fs
  have hscan : ∃ first, scanFrames (packBytes B version fs) version
      (HEADER_LEN + (framesWire fs).length) cap fs.length 0 HEADER_LEN 0 none =
        .ok (HEADER_LEN + (framesWire fs).length, first) := by
    rw [scanFrames_eq_ok_iff hcap (Nat.le_add_right _ _) (by omega)]
    refine ⟨fs, rfl, ?_, h.legal, fun _ => ?_⟩
    · rw [drop_header, drop_packBody]
    · rw [Nat.zero_add]
      exact h.payload_le
  obtain ⟨first, hscan⟩ := hscan
  exact ⟨first, (newWithPayloadCap_eq_ok_iff B hcap).2 ⟨version, fs, first, h, rfl, hscan, rfl⟩⟩

/-! ### Iterating -/

/-- The iterator stands between the frames `past` and the frames `todo`. -/
structure PackEntries.At (p : PackEntries) (version : ℕ) (past todo : List Frame) : Prop where
  version_eq : p.version = version
  drop_pos : p.bytes.drop p.pos = framesWire todo ++ p.bytes.drop p.split
  pos_eq : p.pos = HEADER_LEN + (framesWire past).length
  split_eq : p.split = HEADER_LEN + (framesWire (past ++ todo)).length
  split_le : p.split ≤ p.bytes.length
  yielded_eq : p.yielded = past.length
  count_eq : p.count = (past ++ todo).length
  done_eq : p.done = false

/-- A fresh iterator stands before all the frames. -/
theorem PackEntries.at_start (first : Option ℕ) :
    (PackEntries.start (packBytes B version fs) version fs first).At version [] fs where
  version_eq := rfl
  drop_pos := by
    change (packBytes B version fs).drop HEADER_LEN = _
    rw [drop_header, ← drop_packBody]
    rfl
  pos_eq := rfl
  split_eq := rfl
  split_le := by
    change HEADER_LEN + (framesWire fs).length ≤ (packBytes B version fs).length
    rw [length_packBytes]
    omega
  yielded_eq := rfl
  count_eq := rfl
  done_eq := rfl

/-- The iterator takes the next frame and stands behind it. -/
theorem PackEntries.At.nextEncodedEntry {past todo : List Frame}
    (h : p.At version past (f :: todo)) (hf : f.payload.length < 2 ^ 32) :
    ∃ p', p.nextEncodedEntry = (f.entry version, p') ∧ p'.At version (past ++ [f]) todo ∧
      p'.bytes = p.bytes ∧
      p'.last_payload_range = some (p.pos + ENTRY_FRAME_LEN, p.pos + f.wire.length) := by
  have hdrop := h.drop_pos
  rw [framesWire_cons, List.append_assoc] at hdrop
  have hheader := frameHeader_wire hf hdrop
  obtain ⟨hpayload, hrest⟩ := payload_wire hdrop
  have hroom : p.pos + ENTRY_FRAME_LEN + f.payload.length + (framesWire todo).length =
      p.split := by
    rw [h.pos_eq, h.split_eq, framesWire_append, framesWire_cons, List.length_append,
      List.length_append, Frame.length_wire]
    omega
  refine ⟨{ p with
    pos := p.pos + ENTRY_FRAME_LEN + f.payload.length
    yielded := p.yielded + 1
    last_payload_range :=
      some (p.pos + ENTRY_FRAME_LEN, p.pos + ENTRY_FRAME_LEN + f.payload.length) }, ?_, ?_, rfl, ?_⟩
  · rw [PackEntries.nextEncodedEntry, if_neg (by omega)]
    simp only [hheader]
    rw [if_neg (by omega), hpayload]
    simp only [h.version_eq]
    rfl
  · exact
      { version_eq := h.version_eq
        drop_pos := hrest
        pos_eq := by
          change p.pos + ENTRY_FRAME_LEN + f.payload.length = _
          rw [framesWire_append, List.length_append, framesWire_cons, framesWire_nil,
            List.append_nil, Frame.length_wire, h.pos_eq]
          omega
        split_eq := by
          rw [List.append_assoc, List.singleton_append]
          exact h.split_eq
        split_le := h.split_le
        yielded_eq := by
          change p.yielded + 1 = _
          rw [h.yielded_eq, List.length_append]
          rfl
        count_eq := by
          rw [List.append_assoc, List.singleton_append]
          exact h.count_eq
        done_eq := h.done_eq }
  · rw [Frame.length_wire, Nat.add_assoc]

/-- Behind the last frame the iteration is over. -/
theorem PackEntries.At.next_nil {past : List Frame} (h : p.At version past []) :
    p.next Z = (none, { p with done := true }) := by
  have hdone : p.count ≤ p.yielded := by
    rw [h.count_eq, h.yielded_eq]
    simp
  rw [PackEntries.next, if_pos (.inr hdone)]

/-- The iterator yields the entry behind the next frame, or ends with its error. -/
theorem PackEntries.At.next_cons {past todo : List Frame}
    (h : p.At version past (f :: todo)) (hf : f.payload.length < 2 ^ 32) :
    ∃ p', (p'.At version (past ++ [f]) todo ∧ p'.bytes = p.bytes ∧
        p'.last_payload_range = some (p.pos + ENTRY_FRAME_LEN, p.pos + f.wire.length)) ∧
      p.next Z =
        match f.entry version >>= decodeEncodedPayload Z with
        | .ok e => (some (.ok e), p')
        | .error e => (some (.error e), { p' with done := true }) := by
  have hmore : ¬ (p.done = true ∨ p.count ≤ p.yielded) := by
    rw [h.done_eq, h.count_eq, h.yielded_eq]
    simp
  obtain ⟨p', hentry, hp', hbytes, hrange⟩ := h.nextEncodedEntry hf
  refine ⟨p', ⟨hp', hbytes, hrange⟩, ?_⟩
  rw [PackEntries.next, if_neg hmore, hentry]
  cases f.entry version with
  | error e => rfl
  | ok entry =>
    change (match decodeEncodedPayload Z entry with | .ok e => _ | .error e => _) =
      match decodeEncodedPayload Z entry with | .ok e => _ | .error e => _
    cases decodeEncodedPayload Z entry <;> rfl

end Mkit.Pack
