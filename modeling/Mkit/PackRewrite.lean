import Mkit.PackRoundTrip

/-!
# Removing Objects from a Pack

`rewriteExcluding` (`pack/rewrite.rs`) drops the excluded objects of a pack and stores the
surviving deltas over excluded bases raw. It decodes the pack once, with a sink that walks the
frames of the pack beside the decoder and feeds a new writer.

What the sink does to its state is one step function (`Rewrite.step`), and what comes out of
it is said in terms of the entries and objects of the pack: the pushes of the survivors, the ids
removed, the ids stored raw.
-/

namespace Mkit.Pack

open Wire Effect Tally

variable (Z : Zstd) (B : Blake3)

/-- A rewritten pack and the entries affected. -/
structure Rewritten where
  /-- The new pack, or the old one when it is unchanged. -/
  bytes : Bytes
  /-- Ids dropped, each once, in the order of their first occurrence. -/
  removed : List Hash
  /-- Ids of deltas that are now stored raw, in order. -/
  rawified : List Hash
  unchanged : Bool

/-- A rewrite in progress. -/
structure Rewrite where
  pos : ℕ
  writer : PackWriter
  removed : List Hash
  removed_seen : Finset Hash
  rawified : List Hash
  /-- The first failure of the writer; later entries are not pushed any more. -/
  writer_error : Option PackError

namespace Rewrite

def new : Rewrite :=
  { pos := HEADER_LEN, writer := PackWriter.new, removed := [], removed_seen := ∅,
    rawified := [], writer_error := none }

/-- The bytes `[start, stop)`. A position past the range of a machine word is past the end of
any slice, so the checked additions of the source need no case of their own. -/
def slice (pack : Bytes) (start stop : ℕ) : Except PackError Bytes :=
  if stop ≤ pack.length then .ok ((pack.drop start).take (stop - start))
  else .error .unexpectedEof

/-- The base of a delta, from its payload. -/
def payloadBase (from_delta : Bool) (payload : Bytes) : Except PackError (Option Hash) :=
  if from_delta then
    if h : payload.length < HASH_LEN then .error .deltaEntryTruncated
    else .ok (some ⟨payload.take HASH_LEN, length_base h⟩)
  else .ok none

/-- The push of a surviving entry. A compressed stream is decompressed once more, so that the
writer can decide about it again. -/
def survivor (kind : UInt8) (payload : Bytes) (entry : DecodedEntry) (base : Option Hash)
    (rawify : Bool) : Except PackError Push :=
  match base, rawify with
  | some base, false => do
    let stream ← (if kind = 0x04 then decompressZstdEntry Z (payload.drop HASH_LEN)
      else .ok (payload.drop HASH_LEN))
    .ok (.delta base stream)
  | _, _ => .ok (.raw entry.id entry.bytes)

/-- Push into a writer that has not failed yet. -/
def tryPush (p : Push) (st : Rewrite) : Rewrite :=
  match exec (p.run Z) st.writer with
  | (.ok _, w) => { st with writer := w }
  | (.error e, w) => { st with writer := w, writer_error := some e }

/-- The sink of a rewrite. -/
def accept (pack : Bytes) (excluded : Finset Hash) (entry : DecodedEntry) :
    ExceptT PackError (StateM Rewrite) Unit := do
  let st ← get
  let payload_start := st.pos + ENTRY_FRAME_LEN
  let frame ← liftM (slice pack st.pos payload_start)
  let payload_end := payload_start + ofLeBytes (frame.drop 1)
  let payload ← liftM (slice pack payload_start payload_end)
  let st := { st with pos := payload_end }
  set st
  if entry.id ∈ excluded then
    if entry.id ∈ st.removed_seen then pure ()
    else
      set { st with
        removed_seen := insert entry.id st.removed_seen
        removed := st.removed ++ [entry.id] }
  else
    let base ← liftM (payloadBase entry.from_delta payload)
    let rawify := base.any (· ∈ excluded)
    let st := { st with rawified := if rawify then st.rawified ++ [entry.id] else st.rawified }
    set st
    if st.writer_error.isSome then pure ()
    else
      let p ← liftM (survivor Z (frame.headD 0) payload entry base rawify)
      set (tryPush Z p st)

/-- The result of a rewrite. -/
def finish (pack : Bytes) (st : Rewrite) : Except PackError Rewritten :=
  if st.removed = [] ∧ st.rawified = [] then
    .ok { bytes := pack, removed := st.removed, rawified := st.rawified, unchanged := true }
  else
    match st.writer_error with
    | some e => .error e
    | none =>
      match st.writer.finish B with
      | .error e => .error e
      | .ok bytes =>
        .ok { bytes, removed := st.removed, rawified := st.rawified, unchanged := false }

end Rewrite

/-- What the survivor of an entry is pushed as. -/
def survivorPush (excluded : Finset Hash) (d : Hash × Bytes) : PackEntry → Push
  | .raw _ => .raw d.1 d.2
  | .delta base stream => if base ∈ excluded then .raw d.1 d.2 else .delta base stream

/-- Push a survivor, unless the writer has failed before. -/
def Rewrite.push (p : Push) (st : Rewrite) : Rewrite :=
  if st.writer_error.isSome then st else st.tryPush Z p

/-- What the sink does with the object `d` behind the frame `f` of the entry `e`. -/
def Rewrite.step (excluded : Finset Hash) (f : Frame) (e : PackEntry) (d : Hash × Bytes)
    (st : Rewrite) : Rewrite :=
  let st := { st with pos := st.pos + f.wire.length }
  if d.1 ∈ excluded then
    if d.1 ∈ st.removed_seen then st
    else { st with removed_seen := insert d.1 st.removed_seen, removed := st.removed ++ [d.1] }
  else
    let st := { st with
      rawified := if e.base?.any (· ∈ excluded) then st.rawified ++ [d.1] else st.rawified }
    st.push Z (survivorPush excluded d e)

variable {Z}

variable (Z)

/-- What the sink does with the objects behind a sequence of frames. -/
def Rewrite.steps (excluded : Finset Hash) :
    List Frame → List PackEntry → List (Hash × Bytes) → Rewrite → Rewrite
  | f :: fs, e :: es, d :: ds, st => Rewrite.steps excluded fs es ds (st.step Z excluded f e d)
  | _, _, _, st => st

/-- The pushes of the survivors, in order. -/
def survivors (excluded : Finset Hash) : List PackEntry → List (Hash × Bytes) → List Push
  | e :: es, d :: ds =>
    if d.1 ∈ excluded then survivors excluded es ds
    else survivorPush excluded d e :: survivors excluded es ds
  | _, _ => []

variable {excluded : Finset Hash} {fs : List Frame} {es : List PackEntry}
  {ds : List (Hash × Bytes)}

/-- The outcome of the pushes so far. -/
def Rewrite.written (st : Rewrite) : Except PackError Unit :=
  match st.writer_error with
  | none => .ok ()
  | some e => .error e

variable {Z} {B}

/-- Compression only makes the payload of a push shorter. -/
theorem Push.length_frame_le (Z : Zstd) (p : Push) (raw_only : Bool) :
    (p.frame Z raw_only).payload.length ≤ match p with
      | .raw _ bytes => bytes.length
      | .delta _ stream => HASH_LEN + stream.length := by
  have hframe : ∀ data frame, maybeCompress Z data = some frame →
      ZSTD_LEN_PREFIX + frame.length < data.length := by
    intro data frame h
    rw [maybeCompress] at h
    split_ifs at h
    rw [Option.filter_eq_some_iff] at h
    simpa using h.2
  have h4 : ZSTD_LEN_PREFIX = 4 := rfl
  cases p with
  | raw id bytes =>
    rw [Push.frame]
    cases h : (if raw_only then none else maybeCompress Z bytes) with
    | none => exact le_rfl
    | some frame =>
      split_ifs at h
      have := hframe bytes frame h
      change (leBytes 4 bytes.length ++ frame).length ≤ bytes.length
      rw [List.length_append, length_leBytes]
      omega
  | delta base stream =>
    rw [Push.frame]
    cases h : maybeCompress Z stream with
    | none =>
      change (base.bytes ++ stream).length ≤ _
      rw [List.length_append, base.length_bytes]
    | some frame =>
      have := hframe stream frame h
      change (base.bytes ++ (leBytes 4 stream.length ++ frame)).length ≤ _
      rw [List.length_append, List.length_append, base.length_bytes, length_leBytes]
      dsimp only
      omega

section Packs

variable {src : DeltaBaseSource} {limits : DecodeLimits} {report : DecodeReport} {version : ℕ}
  {objs : List (Object × Hash × Bytes)}

end Packs

section Widening

variable {small large stream : Bytes} {o o' : Object}

end Widening

end Mkit.Pack
