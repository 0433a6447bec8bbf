import Mkit.Lib.Effect
import Mkit.Pack

/-!
# Writing Packs

The pack writer appends the frame of every pushed entry to its buffer and patches the header
when it is finished. Whether an entry is compressed is decided for each one on its own: long
enough, not too long, and strictly smaller on the wire. A caller may take that decision ahead
of time (`prepareRaw`, `prepareDelta`) and append later.

`PackWriter.Holds w fs` says that the writer has the frames `fs` in its buffer. Every push
keeps it with one frame more, and finishing gives the pack of the frames
(`Holds.finish`).
-/

namespace Mkit.Pack

open Wire Effect

variable (Z : Zstd) (B : Blake3)

/-- The writer's compression policy. -/
def maybeCompress (data : Bytes) : Option Bytes :=
  if MAX_RAW_OBJECT_SIZE < data.length then none
  else if data.length < MIN_COMPRESS_LEN then none
  else (Z.compress data).filter fun frame => ZSTD_LEN_PREFIX + frame.length < data.length

/-- A raw entry whose compression has been decided. -/
structure PreparedRaw where
  hash : Hash
  bytes : Bytes
  frame : Option Bytes

/-- A delta entry whose compression has been decided. -/
structure PreparedDelta where
  base : Hash
  stream : Bytes
  frame : Option Bytes

/-- A pack under construction. -/
structure PackWriter where
  /-- Header with placeholders, and the frames pushed so far. -/
  buf : Bytes
  entry_count : ℕ
  total_payload : ℕ
  /-- Has an entry been stored compressed? -/
  has_compressed_entry : Bool
  /-- Never compress, never accept a delta. -/
  raw_only : Bool

namespace PackWriter

def new : PackWriter :=
  { buf := MAGIC ++ leBytes 4 VERSION ++ leBytes 4 0, entry_count := 0, total_payload := 0,
    has_compressed_entry := false, raw_only := false }

def newRawOnly : PackWriter :=
  { new with raw_only := true }

/-- A step of the writer; what it changed stays changed when it fails. -/
abbrev Step := ExceptT PackError (StateM PackWriter)

/-- Is there room for one more entry with a payload of this length? -/
def checkCapsFor (add_len : ℕ) : Step Unit := do
  let w ← get
  if MAX_ENTRIES < w.entry_count + 1 then throw (.tooManyObjects (MAX_ENTRIES + 1))
  else if MAX_TOTAL_PAYLOAD < min (w.total_payload + add_len) U64_MAX then
    throw .packfileTooLarge
  else pure ()

/-- Append a frame whose payload is the concatenation of `parts`. -/
def appendEntry (etype : UInt8) (parts : List Bytes) : Step Unit := do
  let payload := parts.flatten
  if payload.length < 2 ^ 32 then
    let w ← get
    set { w with buf := w.buf ++ (etype :: leBytes 4 payload.length ++ payload) }
  else throw .packfileTooLarge

/-- Check the caps, count the payload and append the frame of an entry. -/
def appendCapped (etype : UInt8) (parts : List Bytes) (compressed : Bool) : Step Unit := do
  checkCapsFor parts.flatten.length
  let w ← get
  set { w with total_payload := w.total_payload + parts.flatten.length }
  appendEntry etype parts
  let w ← get
  set { w with
    has_compressed_entry := w.has_compressed_entry || compressed
    entry_count := w.entry_count + 1 }

/-- Append a raw entry, compressed when a frame is given. -/
def appendRawFrame (hash_of_bytes : Hash) (bytes : Bytes) : Option Bytes → Step Hash
  | some frame => do
    if bytes.length < 2 ^ 32 then
      appendCapped 0x03 [leBytes 4 bytes.length, frame] true
      pure hash_of_bytes
    else throw .packfileTooLarge
  | none => do
    appendCapped 0x00 [bytes] false
    pure hash_of_bytes

/-- Append a delta entry, with its stream compressed when a frame is given. -/
def appendDeltaFrame (base_hash : Hash) (delta_stream : Bytes) : Option Bytes → Step Unit
  | some frame =>
    if delta_stream.length < 2 ^ 32 then
      appendCapped 0x04 [base_hash.bytes, leBytes 4 delta_stream.length, frame] true
    else throw .packfileTooLarge
  | none => appendCapped 0x02 [base_hash.bytes, delta_stream] false

/-- Append an object. -/
def pushRaw (hash_of_bytes : Hash) (bytes : Bytes) : Step Hash := do
  let w ← get
  appendRawFrame hash_of_bytes bytes (if w.raw_only then none else maybeCompress Z bytes)

/-- Append a delta. -/
def pushDelta (base_hash : Hash) (delta_stream : Bytes) : Step Unit := do
  let w ← get
  if w.raw_only then throw .rawOnly
  else appendDeltaFrame base_hash delta_stream (maybeCompress Z delta_stream)

def prepareRaw (hash_of_bytes : Hash) (bytes : Bytes) : PreparedRaw :=
  { hash := hash_of_bytes, bytes, frame := maybeCompress Z bytes }

def prepareDelta (base_hash : Hash) (delta_stream : Bytes) : PreparedDelta :=
  { base := base_hash, stream := delta_stream, frame := maybeCompress Z delta_stream }

def pushPreparedRaw (entry : PreparedRaw) : Step Hash := do
  let w ← get
  appendRawFrame entry.hash entry.bytes (if w.raw_only then none else entry.frame)

def pushPreparedDelta (entry : PreparedDelta) : Step Unit := do
  let w ← get
  if w.raw_only then throw .rawOnly
  else appendDeltaFrame entry.base entry.stream entry.frame

/-- Patch version and count into the header and append the trailer. -/
def finish (w : PackWriter) : Except PackError Bytes :=
  if MAX_ENTRIES < w.entry_count then .error (.tooManyObjects w.entry_count)
  else
    let version := if w.has_compressed_entry then VERSION_V2 else VERSION
    let buf := w.buf.take VERSION_OFFSET ++ leBytes 4 version ++ w.buf.drop (VERSION_OFFSET + 4)
    let buf := buf.take ENTRY_COUNT_OFFSET ++ leBytes 4 w.entry_count ++
      buf.drop (ENTRY_COUNT_OFFSET + 4)
    .ok (buf ++ (B.hash buf).bytes)

end PackWriter

/-! ### Pushes -/

/-- What a caller pushes. -/
inductive Push where
  | raw (id : Hash) (bytes : Bytes)
  | delta (base : Hash) (stream : Bytes)
deriving DecidableEq

/-- Push an entry. -/
def Push.run : Push → PackWriter.Step Unit
  | .raw id bytes => do
    let _ ← PackWriter.pushRaw Z id bytes
    pure ()
  | .delta base stream => PackWriter.pushDelta Z base stream

/-- Prepare an entry and push it. -/
def Push.runPrepared : Push → PackWriter.Step Unit
  | .raw id bytes => do
    let _ ← PackWriter.pushPreparedRaw (PackWriter.prepareRaw Z id bytes)
    pure ()
  | .delta base stream => PackWriter.pushPreparedDelta (PackWriter.prepareDelta Z base stream)

/-- Push entries one after the other, each prepared first or not. -/
def pushAll : List (Bool × Push) → PackWriter.Step Unit
  | [] => pure ()
  | (prepared, p) :: ps => do
    let _ ← (if prepared then p.runPrepared Z else p.run Z)
    pushAll ps

/-- The entry a push stands for. -/
def Push.entry : Push → PackEntry
  | .raw _ bytes => .raw bytes
  | .delta base stream => .delta base stream

/-- The frame of a raw entry. -/
def rawFrame (bytes : Bytes) : Option Bytes → Frame
  | some frame => ⟨0x03, leBytes 4 bytes.length ++ frame⟩
  | none => ⟨0x00, bytes⟩

/-- The frame of a delta entry. -/
def deltaFrame (base : Hash) (stream : Bytes) : Option Bytes → Frame
  | some frame => ⟨0x04, base.bytes ++ (leBytes 4 stream.length ++ frame)⟩
  | none => ⟨0x02, base.bytes ++ stream⟩

/-- The frame a push appends. -/
def Push.frame (raw_only : Bool) : Push → Frame
  | .raw _ bytes => rawFrame bytes (if raw_only then none else maybeCompress Z bytes)
  | .delta base stream => deltaFrame base stream (maybeCompress Z stream)

/-- Is the entry stored compressed? -/
def Frame.Compressed (f : Frame) : Prop :=
  f.etype = 0x03 ∨ f.etype = 0x04

instance (f : Frame) : Decidable f.Compressed :=
  inferInstanceAs (Decidable (_ ∨ _))

/-- Preparing an entry first makes no difference. -/
theorem Push.runPrepared_eq (p : Push) : p.runPrepared Z = p.run Z := by
  cases p <;> rfl

/-- However the entries are prepared, the same pack comes out. -/
theorem pushAll_eq (ps : List (Bool × Push)) :
    pushAll Z ps = pushAll Z (ps.map fun p => (false, p.2)) := by
  induction ps with
  | nil => rfl
  | cons p ps ih =>
    obtain ⟨prepared, p⟩ := p
    rw [List.map_cons, pushAll, pushAll, ih, Push.runPrepared_eq]
    simp

/-! ### Reading entries back -/

variable {Z}

/-- What is compressed decompresses. -/
theorem decompressZstdEntry_of_maybeCompress (hZ : Z.Lossless) {data frame : Bytes}
    (h : maybeCompress Z data = some frame) :
    decompressZstdEntry Z (leBytes 4 data.length ++ frame) = .ok data := by
  rw [maybeCompress] at h
  split_ifs at h with hmax hmin
  rw [Option.filter_eq_some_iff] at h
  have hcompress := h.1
  have hword : ofLeBytes (leBytes 4 data.length) = data.length := by
    rw [ofLeBytes_leBytes]
    refine Nat.mod_eq_of_lt ?_
    have : MAX_RAW_OBJECT_SIZE < 256 ^ 4 := by decide
    omega
  have hclaim : zstdClaim (leBytes 4 data.length ++ frame) = .ok (data.length, frame) := by
    have hprefix : (leBytes 4 data.length).length = ZSTD_LEN_PREFIX := length_leBytes 4 _
    have htake : (leBytes 4 data.length ++ frame).take ZSTD_LEN_PREFIX = leBytes 4 data.length :=
      List.take_left' hprefix
    have hdrop : (leBytes 4 data.length ++ frame).drop ZSTD_LEN_PREFIX = frame :=
      List.drop_left' hprefix
    rw [zstdClaim, if_neg (by rw [List.length_append, hprefix]; omega)]
    simp only [htake, hdrop, hword]
    rw [if_neg hmax]
  have hinto : zstdDecompressInto Z frame data.length = .ok data := by
    rw [zstdDecompressInto, hZ.in_bounds hcompress, hZ.single_frame hcompress]
    change (if frame.length ≠ frame.length then _ else _) = _
    rw [if_neg (by simp), hZ.lossless hcompress]
    change (if data.length < data.length then _ else _) = _
    rw [if_neg (by simp)]
  rw [decompressZstdEntry, hclaim]
  change (zstdDecompressInto Z frame data.length >>= _) = _
  rw [hinto]
  change (if data.length ≠ data.length then _ else _) = _
  rw [if_neg (by simp)]

/-- The frame of a push is read back as the entry pushed. -/
theorem Push.decode_frame (hZ : Z.Lossless) (p : Push) (raw_only : Bool) {version : ℕ}
    (hv : (p.frame Z raw_only).Compressed → version = VERSION_V2) :
    ((p.frame Z raw_only).entry version >>= decodeEncodedPayload Z) = .ok p.entry := by
  cases p with
  | raw id bytes =>
    rw [Push.frame] at hv ⊢
    cases hframe : (if raw_only then none else maybeCompress Z bytes) with
    | none => rfl
    | some frame =>
      have hmaybe : maybeCompress Z bytes = some frame := by
        split_ifs at hframe
        exact hframe
      rw [hframe] at hv
      obtain rfl := hv (.inl rfl)
      change (decompressZstdEntry Z (leBytes 4 bytes.length ++ frame) >>= _) = _
      rw [decompressZstdEntry_of_maybeCompress hZ hmaybe]
      rfl
  | delta base stream =>
    have hhash : ∀ rest : Bytes, ¬ (base.bytes ++ rest).length < HASH_LEN := by
      intro rest
      rw [List.length_append, base.length_bytes]
      omega
    have hbase : ∀ rest : Bytes, (base.bytes ++ rest).take HASH_LEN = base.bytes :=
      fun rest => List.take_left' base.length_bytes
    have hrest : ∀ rest : Bytes, (base.bytes ++ rest).drop HASH_LEN = rest :=
      fun rest => List.drop_left' base.length_bytes
    rw [Push.frame] at hv ⊢
    cases hframe : maybeCompress Z stream with
    | none =>
      rw [Frame.entry, deltaFrame, encodedPayload]
      simp only [hbase, hrest]
      rw [if_neg (by decide), if_neg (by simp), if_pos (by simp), dif_neg (hhash _)]
      rfl
    | some frame =>
      rw [hframe] at hv
      obtain rfl := hv (.inr rfl)
      rw [Frame.entry, deltaFrame, encodedPayload]
      simp only [hbase, hrest]
      rw [if_neg (by decide), if_neg (by simp), if_pos (by simp), dif_neg (hhash _)]
      change (decompressZstdEntry Z (leBytes 4 stream.length ++ frame) >>= _) = _
      rw [decompressZstdEntry_of_maybeCompress hZ hframe]
      rfl

variable (Z)

/-! ### What the writer holds -/

namespace PackWriter

/-- The writer has the frames `fs` in its buffer, within its caps. -/
structure Holds (w : PackWriter) (fs : List Frame) : Prop where
  buf_eq : w.buf = MAGIC ++ leBytes 4 VERSION ++ leBytes 4 0 ++ framesWire fs
  count_eq : w.entry_count = fs.length
  count_le : fs.length ≤ MAX_ENTRIES
  payload_le : payloadSum fs ≤ w.total_payload
  total_le : w.total_payload ≤ MAX_TOTAL_PAYLOAD
  compressed_iff : w.has_compressed_entry = true ↔ ∃ f ∈ fs, f.Compressed
  legal : ∀ f ∈ fs, f.Legal VERSION_V2

theorem holds_new : new.Holds [] where
  buf_eq := rfl
  count_eq := rfl
  count_le := Nat.zero_le _
  payload_le := le_rfl
  total_le := Nat.zero_le _
  compressed_iff := by simp [new]
  legal := by simp

theorem holds_newRawOnly : newRawOnly.Holds [] where
  buf_eq := rfl
  count_eq := rfl
  count_le := Nat.zero_le _
  payload_le := le_rfl
  total_le := Nat.zero_le _
  compressed_iff := by simp [newRawOnly, new]
  legal := by simp

variable {w w' : PackWriter} {u : Unit}

theorem yields_checkCapsFor {n : ℕ} : Yields (checkCapsFor n) w u w' ↔
      w' = w ∧ w.entry_count + 1 ≤ MAX_ENTRIES ∧ w.total_payload + n ≤ MAX_TOTAL_PAYLOAD := by
  have hmin : MAX_TOTAL_PAYLOAD < min (w.total_payload + n) U64_MAX ↔
      MAX_TOTAL_PAYLOAD < w.total_payload + n := by
    have : MAX_TOTAL_PAYLOAD < U64_MAX := by decide
    omega
  rw [checkCapsFor, yields_bind]
  simp only [yields_get]
  constructor
  · rintro ⟨_, _, ⟨rfl, rfl⟩, h⟩
    split_ifs at h with hcount htotal
    · exact absurd h yields_throw
    · exact absurd h yields_throw
    · rw [hmin] at htotal
      exact ⟨(yields_pure.1 h).2.symm, by omega, by omega⟩
  · rintro ⟨rfl, hcount, htotal⟩
    refine ⟨w', w', ⟨rfl, rfl⟩, ?_⟩
    rw [if_neg (by omega), if_neg (by rw [hmin]; omega)]
    exact yields_pure.2 ⟨rfl, rfl⟩

/-- What a successful append leaves behind. -/
theorem yields_appendCapped {etype : UInt8} {parts : List Bytes} {compressed : Bool} :
    Yields (appendCapped etype parts compressed) w u w' ↔
      (w.entry_count + 1 ≤ MAX_ENTRIES ∧
        w.total_payload + parts.flatten.length ≤ MAX_TOTAL_PAYLOAD ∧
        parts.flatten.length < 2 ^ 32) ∧
      w' = { w with
        buf := w.buf ++ Frame.wire ⟨etype, parts.flatten⟩
        total_payload := w.total_payload + parts.flatten.length
        has_compressed_entry := w.has_compressed_entry || compressed
        entry_count := w.entry_count + 1 } := by
  simp only [appendCapped, appendEntry, yields_bind, yields_get, yields_set,
    yields_checkCapsFor]
  by_cases hlen : parts.flatten.length < 2 ^ 32
  · simp only [hlen, if_true, yields_bind, yields_get, yields_set]
    constructor
    · rintro ⟨_, _, ⟨rfl, hcount, htotal⟩, _, _, ⟨rfl, rfl⟩, _, _, rfl, _, _,
        ⟨_, _, ⟨rfl, rfl⟩, rfl⟩, _, _, ⟨rfl, rfl⟩, rfl⟩
      exact ⟨⟨hcount, htotal, trivial⟩, rfl⟩
    · rintro ⟨⟨hcount, htotal, -⟩, rfl⟩
      exact ⟨(), w, ⟨rfl, hcount, htotal⟩, w, w, ⟨rfl, rfl⟩, (), _, rfl, (), _,
        ⟨_, _, ⟨rfl, rfl⟩, rfl⟩, _, _, ⟨rfl, rfl⟩, rfl⟩
  · simp only [hlen, if_false, and_false, false_and, iff_false]
    rintro ⟨_, _, -, _, _, -, _, _, -, _, _, h, -⟩
    exact yields_throw h

/-- Is there room for one more frame? -/
structure HasRoom (w : PackWriter) (f : Frame) : Prop where
  count_lt : w.entry_count + 1 ≤ MAX_ENTRIES
  total_le : w.total_payload + f.payload.length ≤ MAX_TOTAL_PAYLOAD
  length_lt : f.payload.length < 2 ^ 32

/-- The writer with one more frame in its buffer. -/
def append (w : PackWriter) (f : Frame) : PackWriter :=
  { w with
    buf := w.buf ++ f.wire
    total_payload := w.total_payload + f.payload.length
    has_compressed_entry := w.has_compressed_entry || decide f.Compressed
    entry_count := w.entry_count + 1 }

theorem yields_appendFrame {w w' : PackWriter} {etype : UInt8} {parts : List Bytes}
    {compressed : Bool} {u : Unit}
    (hcompressed : compressed = decide (Frame.Compressed ⟨etype, parts.flatten⟩)) :
    Yields (appendCapped etype parts compressed) w u w' ↔
      w.HasRoom ⟨etype, parts.flatten⟩ ∧ w' = w.append ⟨etype, parts.flatten⟩ := by
  rw [yields_appendCapped, hcompressed]
  constructor
  · rintro ⟨⟨hcount, htotal, hlen⟩, rfl⟩
    exact ⟨⟨hcount, htotal, hlen⟩, rfl⟩
  · rintro ⟨⟨hcount, htotal, hlen⟩, rfl⟩
    exact ⟨⟨hcount, htotal, hlen⟩, rfl⟩

/-- An append keeps what the writer holds, with one frame more. -/
theorem Holds.append {fs : List Frame} {f : Frame} (h : w.Holds fs)
    (hroom : w.HasRoom f) (hcheck : checkEntryType f.etype VERSION_V2 f.payload.length = .ok ()) :
    (w.append f).Holds (fs ++ [f]) where
  buf_eq := by
    rw [framesWire_append, ← List.append_assoc, ← h.buf_eq]
    simp [PackWriter.append]
  count_eq := by simp [PackWriter.append, h.count_eq]
  count_le := by
    have := hroom.count_lt
    rw [h.count_eq] at this
    simpa using this
  payload_le := by
    have := h.payload_le
    rw [payloadSum_append, payloadSum_cons, payloadSum_nil]
    dsimp only [PackWriter.append]
    omega
  total_le := hroom.total_le
  compressed_iff := by
    rw [PackWriter.append, Bool.or_eq_true, h.compressed_iff, decide_eq_true_iff]
    simp only [List.mem_append, List.mem_singleton, or_and_right, exists_or, exists_eq_left]
  legal := by
    intro g hg
    rcases List.mem_append.1 hg with hg | hg
    · exact h.legal g hg
    · obtain rfl := List.mem_singleton.1 hg
      exact ⟨hroom.length_lt, hcheck⟩

end PackWriter

/-- A raw-only writer takes no delta. -/
def Push.Accepted (raw_only : Bool) : Push → Prop
  | .raw _ _ => True
  | .delta _ _ => raw_only = false

/-- What is compressed is no longer than an object. -/
theorem length_of_maybeCompress {data frame : Bytes} (h : maybeCompress Z data = some frame) :
    data.length < 2 ^ 32 := by
  rw [maybeCompress] at h
  split_ifs at h with hmax hmin
  have : MAX_RAW_OBJECT_SIZE < 2 ^ 32 := by decide
  omega

variable {w w' : PackWriter} {p : Push} {u : Unit}

/-- **A push appends its frame exactly when there is room for it.** -/
theorem Push.yields_run :
    Yields (p.run Z) w u w' ↔ p.Accepted w.raw_only ∧ w.HasRoom (p.frame Z w.raw_only) ∧
      w' = w.append (p.frame Z w.raw_only) := by
  cases p with
  | raw id bytes =>
    have hrun : Yields ((Push.raw id bytes).run Z) w u w' ↔ ∃ h, Yields
        (PackWriter.appendRawFrame id bytes
          (if w.raw_only then none else maybeCompress Z bytes)) w h w' := by
      simp only [Push.run, PackWriter.pushRaw, yields_bind, yields_get, yields_pure]
      constructor
      · rintro ⟨h, _, ⟨_, _, ⟨rfl, rfl⟩, hy⟩, -, rfl⟩
        exact ⟨h, hy⟩
      · rintro ⟨h, hy⟩
        exact ⟨h, w', ⟨w, w, ⟨rfl, rfl⟩, hy⟩, trivial, rfl⟩
    rw [hrun, Push.frame, Push.Accepted, true_and]
    cases hframe : (if w.raw_only then none else maybeCompress Z bytes) with
    | none =>
      simp only [PackWriter.appendRawFrame, yields_bind, yields_pure,
        @PackWriter.yields_appendFrame _ _ 0x00 [bytes] false _ rfl]
      simp [rawFrame, eq_comm]
    | some frame =>
      have hlen : bytes.length < 2 ^ 32 := by
        split_ifs at hframe
        exact length_of_maybeCompress Z hframe
      simp only [PackWriter.appendRawFrame, if_pos hlen, yields_bind, yields_pure,
        @PackWriter.yields_appendFrame _ _ 0x03 [leBytes 4 bytes.length, frame] true _ rfl]
      simp [rawFrame, eq_comm]
  | delta base stream =>
    have hrun : Yields ((Push.delta base stream).run Z) w u w' ↔ w.raw_only = false ∧
        Yields (PackWriter.appendDeltaFrame base stream (maybeCompress Z stream)) w u w' := by
      simp only [Push.run, PackWriter.pushDelta, yields_bind, yields_get]
      constructor
      · rintro ⟨_, _, ⟨rfl, rfl⟩, hy⟩
        split_ifs at hy with hraw
        · exact absurd hy yields_throw
        · exact ⟨Bool.not_eq_true _ ▸ hraw, hy⟩
      · rintro ⟨hraw, hy⟩
        refine ⟨w, w, ⟨rfl, rfl⟩, ?_⟩
        rw [hraw]
        exact hy
    rw [hrun, Push.frame, Push.Accepted]
    refine and_congr_right fun _ => ?_
    cases hframe : maybeCompress Z stream with
    | none =>
      rw [PackWriter.appendDeltaFrame,
        @PackWriter.yields_appendFrame _ _ 0x02 [base.bytes, stream] false _ rfl]
      simp [deltaFrame]
    | some frame =>
      rw [PackWriter.appendDeltaFrame, if_pos (length_of_maybeCompress Z hframe),
        @PackWriter.yields_appendFrame _ _ 0x04
          [base.bytes, leBytes 4 stream.length, frame] true _ rfl]
      simp [deltaFrame]

theorem Push.checkEntryType_frame (p : Push) (raw_only : Bool) :
    checkEntryType (p.frame Z raw_only).etype VERSION_V2 (p.frame Z raw_only).payload.length =
      .ok () := by
  cases p with
  | raw id bytes =>
    rw [Push.frame]
    cases (if raw_only then none else maybeCompress Z bytes) <;> rfl
  | delta base stream =>
    rw [Push.frame]
    cases maybeCompress Z stream <;> simp [deltaFrame, checkEntryType]

variable {fs : List Frame}

/-- A push adds its frame to what the writer holds. -/
theorem Push.holds_run (h : w.Holds fs) (hy : Yields (p.run Z) w u w') :
    w'.Holds (fs ++ [p.frame Z w.raw_only]) ∧ w'.raw_only = w.raw_only := by
  obtain ⟨-, hroom, rfl⟩ := (Push.yields_run Z).1 hy
  exact ⟨h.append hroom (p.checkEntryType_frame Z w.raw_only), rfl⟩

variable {ps : List Push}

/-- Pushing a sequence succeeds when there is room for all its frames. -/
theorem exists_yields_pushAll
    (hraw : ∀ p ∈ ps, p.Accepted w.raw_only) (hcount : w.entry_count + ps.length ≤ MAX_ENTRIES)
    (htotal : w.total_payload + payloadSum (ps.map (Push.frame Z w.raw_only)) ≤ MAX_TOTAL_PAYLOAD)
    (hlen : ∀ p ∈ ps, (p.frame Z w.raw_only).payload.length < 2 ^ 32) :
    ∃ w', Yields (pushAll Z (ps.map fun p => (false, p))) w () w' := by
  induction ps generalizing w with
  | nil => exact ⟨w, yields_pure.2 ⟨rfl, rfl⟩⟩
  | cons p ps ih =>
    rw [List.length_cons] at hcount
    rw [List.map_cons, payloadSum_cons] at htotal
    have hroom : w.HasRoom (p.frame Z w.raw_only) :=
      ⟨by omega, by omega, hlen p List.mem_cons_self⟩
    have hp : Yields (p.run Z) w () (w.append (p.frame Z w.raw_only)) :=
      (Push.yields_run Z).2 ⟨hraw p List.mem_cons_self, hroom, rfl⟩
    obtain ⟨w', hw'⟩ := @ih (w.append (p.frame Z w.raw_only))
      (fun q hq => hraw q (List.mem_cons_of_mem p hq))
      (by dsimp only [PackWriter.append]; omega) (by dsimp only [PackWriter.append]; omega)
      (fun q hq => hlen q (List.mem_cons_of_mem p hq))
    refine ⟨w', ?_⟩
    rw [List.map_cons, pushAll, if_neg (by simp), yields_bind]
    exact ⟨(), _, hp, hw'⟩

/-- Pushing a sequence adds its frames in order. -/
theorem holds_pushAll
    (h : w.Holds fs) (hy : Yields (pushAll Z (ps.map fun p => (false, p))) w u w') :
    w'.Holds (fs ++ ps.map (Push.frame Z w.raw_only)) := by
  induction ps generalizing w fs with
  | nil =>
    obtain ⟨-, rfl⟩ := yields_pure.1 hy
    simpa using h
  | cons p ps ih =>
    rw [List.map_cons, pushAll, yields_bind] at hy
    obtain ⟨_, w₁, hp, hy⟩ := hy
    rw [if_neg (by simp)] at hp
    obtain ⟨h₁, hraw⟩ := Push.holds_run Z h hp
    have := ih h₁ hy
    rw [hraw] at this
    simpa using this

/-- The version of a pack that has these frames. -/
def versionOf (fs : List Frame) : ℕ :=
  if ∃ f ∈ fs, f.Compressed then VERSION_V2 else VERSION

/-- Plain entries are legal in both versions. -/
theorem Frame.Legal.of_not_compressed {f : Frame} (h : f.Legal VERSION_V2)
    (hc : ¬ f.Compressed) : f.Legal VERSION := by
  obtain ⟨hlen, h⟩ := h
  rw [Frame.Compressed, not_or] at hc
  refine ⟨hlen, ?_⟩
  rw [checkEntryType] at h ⊢
  simpa [hc.1, hc.2] using h

/-- **A finished writer gives the pack of its frames.** -/
theorem PackWriter.Holds.finish (h : w.Holds fs) :
    w.finish B = .ok (packBytes B (versionOf fs) fs) ∧
      LegalPack (versionOf fs) MAX_TOTAL_PAYLOAD fs := by
  have hversion : (if w.has_compressed_entry then VERSION_V2 else VERSION) = versionOf fs := by
    rw [versionOf]
    by_cases hc : w.has_compressed_entry = true
    · rw [if_pos hc, if_pos (h.compressed_iff.1 hc)]
    · rw [if_neg hc, if_neg fun hc' => hc (h.compressed_iff.2 hc')]
  constructor
  · have hcount := h.count_le
    rw [PackWriter.finish, if_neg (by rw [h.count_eq]; omega)]
    simp only [hversion, h.count_eq, h.buf_eq]
    have hver : (MAGIC ++ leBytes 4 VERSION ++ leBytes 4 0 ++ framesWire fs).take
          VERSION_OFFSET ++ leBytes 4 (versionOf fs) ++
        (MAGIC ++ leBytes 4 VERSION ++ leBytes 4 0 ++ framesWire fs).drop (VERSION_OFFSET + 4) =
          MAGIC ++ leBytes 4 (versionOf fs) ++ leBytes 4 0 ++ framesWire fs := rfl
    have hcnt : (MAGIC ++ leBytes 4 (versionOf fs) ++ leBytes 4 0 ++ framesWire fs).take
          ENTRY_COUNT_OFFSET ++ leBytes 4 fs.length ++
        (MAGIC ++ leBytes 4 (versionOf fs) ++ leBytes 4 0 ++ framesWire fs).drop
          (ENTRY_COUNT_OFFSET + 4) = packBody (versionOf fs) fs := rfl
    rw [hver, hcnt]
    rfl
  · exact
      { version_eq := by
          rw [versionOf]
          split_ifs
          · exact .inr rfl
          · exact .inl rfl
        length_le := h.count_le
        legal := by
          intro f hf
          rw [versionOf]
          split_ifs with hc
          · exact h.legal f hf
          · exact (h.legal f hf).of_not_compressed fun hf' => hc ⟨f, hf, hf'⟩
        payload_le := h.payload_le.trans h.total_le }

/-- A sequence of pushes for which there is room gives the pack of its frames. -/
theorem exists_finish {ps : List Push} (hcount : ps.length ≤ MAX_ENTRIES)
    (htotal : payloadSum (ps.map (Push.frame Z false)) ≤ MAX_TOTAL_PAYLOAD)
    (hlen : ∀ f ∈ ps.map (Push.frame Z false), f.payload.length < 2 ^ 32) :
    ∃ w, Yields (pushAll Z (ps.map fun p => (false, p))) PackWriter.new () w ∧
      w.finish B = .ok (packBytes B (versionOf (ps.map (Push.frame Z false)))
        (ps.map (Push.frame Z false))) ∧
      LegalPack (versionOf (ps.map (Push.frame Z false))) MAX_TOTAL_PAYLOAD
        (ps.map (Push.frame Z false)) := by
  have haccepted : ∀ p ∈ ps, p.Accepted PackWriter.new.raw_only := by
    intro p _
    cases p with
    | raw id bytes => trivial
    | delta base stream => rfl
  obtain ⟨w, hw⟩ := exists_yields_pushAll Z haccepted
    (by rw [show PackWriter.new.entry_count = 0 from rfl]; omega)
    (by
      rw [show PackWriter.new.total_payload = 0 from rfl, Nat.zero_add]
      exact htotal)
    (List.forall_mem_map.1 hlen)
  exact ⟨w, hw, (holds_pushAll Z PackWriter.holds_new hw).finish B⟩

end Mkit.Pack
