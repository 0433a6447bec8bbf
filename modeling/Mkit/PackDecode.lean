import Mkit.Lib.Effect
import Mkit.Lib.Tally
import Mkit.Pack

/-!
# Decoding Packs without a Store

`PackDecodeCursor` decodes a pack in order and hands every object to a sink. A delta takes its
base from an earlier entry of the pack or from a source of external bases; when neither has
it, the cursor stops in front of the delta and can be resumed once the source has more. The
cursor keeps an object only while a later delta names it, and charges what it allocates
against a budget.

`decodeAll` is the plain reading of the same pack: every object is kept, every base is looked
up among all the objects before it. It is what the cursor is compared with.
-/

namespace Mkit.Pack

open Wire Effect Tally

variable (Z : Zstd) (B : Blake3)

/-! ### Sources of external bases -/

/-- What a source answers for an id. -/
inductive Fetched where
  /-- It may not provide the object. -/
  | absent
  /-- The object's bytes; their length has been admitted. -/
  | found (bytes : Bytes)
  /-- It failed, perhaps after a length had been admitted. -/
  | failed (admitted : Option ℕ) (e : PackError)

/-- Where a delta's external base may come from. -/
structure DeltaBaseSource where
  /-- The source itself guarantees that the bytes are the object asked for. -/
  VERIFIED : Bool
  /-- Fetch an object. -/
  fetch : Hash → Fetched

/-- No external bases. -/
def NoExternalBases : DeltaBaseSource :=
  { VERIFIED := false, fetch := fun _ => .absent }

/-- An object store as a source: a read admits the length of the file first and verifies the
id afterwards. -/
def storeBases (s : ObjectStore) : DeltaBaseSource :=
  { VERIFIED := true
    fetch := fun h =>
      if !s.contains h then .absent
      else
        match s.readRaw h with
        | .error e => .failed none (.store e)
        | .ok bytes =>
          match objectIdFromBytes B bytes with
          | none => .failed (some bytes.length) (.store .panicked)
          | some actual =>
            if actual ≠ h then
              .failed (some bytes.length) (.store (.hashMismatch (toHex h) (toHex actual)))
            else .found bytes }

/-- Decode bytes as a storable object and derive its id. -/
def identify (bytes : Bytes) : Except PackError (Object × Hash) := do
  let object ← validateStorableObject bytes
  match idFromObject B object bytes with
  | some id => .ok (object, id)
  | none => .error (.store .panicked)

/-- Are the bytes a source gave the storable object asked for? Of a verified source only
storability is checked, and a failure is an error. -/
def externalBaseMatches (verified : Bool) (bytes : Bytes) (id : Hash) : Except PackError Bool :=
  if verified then do
    let _ ← validateStorableObject bytes
    .ok true
  else
    match identify B bytes with
    | .ok (_, id') => .ok (decide (id' = id))
    | .error _ => .ok false

/-! ### Limits -/

/-- Resource limits of one decode. -/
structure DecodeLimits where
  /-- Most bytes held beyond the pack itself. -/
  max_decoded_bytes : ℕ
  /-- Caps on an encoded payload and on a delta stream. -/
  entry_geometry : Option (ℕ × ℕ)
deriving DecidableEq

/-- The default limits, 1 GiB and no caps on single entries. -/
def DecodeLimits.default : DecodeLimits :=
  { max_decoded_bytes := MAX_RAW_OBJECT_SIZE, entry_geometry := none }

/-- Check an encoded payload against the caps. -/
def DecodeLimits.checkFrame (limits : DecodeLimits) (kind : UInt8) (payload : Bytes) :
    Except PackError Unit :=
  match limits.entry_geometry with
  | none => .ok ()
  | some (frame, stream) =>
    if frame < payload.length ∨ (kind = 2 ∧ min (stream + 32) U64_MAX < payload.length) then
      .error .packfileTooLarge
    else if kind = 4 then
      if payload.length < 32 then .error .deltaEntryTruncated
      else
        match zstdClaim (payload.drop 32) with
        | .error e => .error e
        | .ok (claim, _) => if stream < claim then .error .packfileTooLarge else .ok ()
    else .ok ()

/-- Bytes charged so far, and the most that may be. -/
structure DecodeBudget where
  used : ℕ
  max : ℕ
deriving DecidableEq

/-- The budget after a charge. -/
def DecodeBudget.add (b : DecodeBudget) (bytes : ℕ) : DecodeBudget :=
  { b with used := min (b.used + bytes) U64_MAX }

/-- Charge bytes; the charge stays when it is refused. -/
def DecodeBudget.charge (b : DecodeBudget) (bytes : ℕ) : Except PackError DecodeBudget :=
  if (b.add bytes).max < (b.add bytes).used then .error .packfileTooLarge
  else .ok (b.add bytes)

/-- The little-endian word at an offset, if all its bytes are there. -/
def leU32At (bytes : Bytes) (at_ : ℕ) : Option ℕ :=
  if bytes.length < at_ + 4 then none else some (ofLeBytes ((bytes.drop at_).take 4))

/-- The decompressed length a payload claims, if its type has one. -/
def compressedClaim (etype : UInt8) (payload : Bytes) : Option ℕ :=
  if etype = 0x03 then leU32At payload 0
  else if etype = 0x04 then leU32At payload HASH_LEN
  else none

/-- Charge what the compressed entries from `pos` on claim. Every frame takes at least its
header, so the length of the pack is enough rounds. -/
def chargeCompressedClaims (pack : Bytes) : ℕ → ℕ → DecodeBudget → Except PackError DecodeBudget
  | 0, _, budget => .ok budget
  | n + 1, pos, budget =>
    let split := pack.length - TRAILER_LEN
    if pos < split then
      let etype := pack.getD pos 0
      match leU32At pack (pos + 1) with
      | none => .error .unexpectedEof
      | some payload_len =>
        let start := pos + ENTRY_FRAME_LEN
        if split - start < payload_len then .error .unexpectedEof
        else
          match compressedClaim etype ((pack.drop start).take payload_len) with
          | none => chargeCompressedClaims pack n (start + payload_len) budget
          | some claim =>
            match budget.charge claim with
            | .error e => .error e
            | .ok budget => chargeCompressedClaims pack n (start + payload_len) budget
    else .ok budget

/-! ### The cursor -/

/-- A frame waiting to be decoded. -/
structure CursorFrame where
  entry : PackEntry
  frame_offset : ℕ
  frame_length : ℕ
  wire_type : UInt8
  delta_base : Option Hash
  /-- The frame breaks a cap of the limits; reported when the decode reaches it. -/
  cap : Option PackError
deriving DecidableEq

/-- An entry handed to the sink. -/
structure DecodedEntry where
  id : Hash
  bytes : Bytes
  object : Object
  from_delta : Bool
  frame_offset : ℕ
  frame_length : ℕ
  wire_type : UInt8
  delta_base : Option Hash
deriving DecidableEq

/-- Summary of a decode. -/
structure DecodeReport where
  raw_count : ℕ
  delta_count : ℕ
  ids : List Hash
deriving DecidableEq

/-- A decode in progress. -/
@[ext] structure PackDecodeCursor where
  entries : List (Option CursorFrame)
  next : ℕ
  budget : DecodeBudget
  /-- Charges for external bases that are held. -/
  charged : Finmap fun _ : Hash => ℕ
  /-- Deltas still to come, by their base. -/
  uses : Finmap fun _ : Hash => ℕ
  /-- Objects kept for later deltas. -/
  in_pack : Finmap fun _ : Hash => Bytes
  report : Option DecodeReport

/-- The base an entry names. -/
def PackEntry.base? : PackEntry → Option Hash
  | .raw _ => none
  | .delta base _ => some base

/-- The result length a delta's stream declares. -/
def PackEntry.deltaClaim? : PackEntry → Option ℕ
  | .raw _ => none
  | .delta _ stream => leU32At stream 5

namespace PackDecodeCursor

/-- Take every entry of the iterator, decompressed, with the caps it breaks. -/
def drain (pack : Bytes) (limits : DecodeLimits) :
    ℕ → PackEntries → Except PackError (List CursorFrame)
  | 0, _ => .ok []
  | n + 1, p =>
    match p.next Z with
    | (none, _) => .ok []
    | (some (.error e), _) => .error e
    | (some (.ok entry), p') =>
      match p'.last_payload_range with
      | none => .error .unexpectedEof
      | some (start, stop) =>
        let offset := start - ENTRY_FRAME_LEN
        let wire_type := pack.getD offset 0
        let cap := match limits.checkFrame wire_type ((pack.drop start).take (stop - start))
          with
          | .ok () => none
          | .error e => some e
        match drain pack limits n p' with
        | .error e => .error e
        | .ok rest =>
          .ok ({ entry, frame_offset := offset, frame_length := stop - offset, wire_type,
                 delta_base := entry.base?, cap } :: rest)

/-- Charge what the deltas declare. -/
def chargeDeltaClaims : List CursorFrame → DecodeBudget → Except PackError DecodeBudget
  | [], budget => .ok budget
  | f :: fs, budget =>
    match f.entry.deltaClaim? with
    | none => chargeDeltaClaims fs budget
    | some len =>
      match budget.charge len with
      | .error e => .error e
      | .ok budget => chargeDeltaClaims fs budget

/-- Check the framing of a pack, decompress its entries and charge what they claim. Nothing is
fetched yet. -/
def new (pack : Bytes) (limits : DecodeLimits) : Except PackError PackDecodeCursor := do
  let pack_entries ← PackEntries.new B pack
  let budget ← chargeCompressedClaims pack pack.length HEADER_LEN
    { used := 0, max := limits.max_decoded_bytes }
  let entries ← drain Z pack limits (pack_entries.count + 1) pack_entries
  let budget ← chargeDeltaClaims entries budget
  .ok { entries := entries.map some
        next := 0
        budget
        charged := ∅
        uses := tally (entries.filterMap fun f => f.entry.base?)
        in_pack := ∅
        report := some { raw_count := 0, delta_count := 0, ids := [] } }

/-- A step of the cursor; what it changed stays changed when it fails. -/
abbrev Step := ExceptT PackError (StateM PackDecodeCursor)

/-- Charge the budget. -/
def charge (bytes : ℕ) : Step Unit := do
  let c ← get
  set { c with budget := c.budget.add bytes }
  if (c.budget.add bytes).max < (c.budget.add bytes).used then throw .packfileTooLarge
  else pure ()

/-- Charge an external base and remember the charge. -/
def admitBase (id : Hash) (len : ℕ) : Step Unit := do
  charge len
  let c ← get
  set { c with charged := c.charged.insert id (min ((c.charged.lookup id).getD 0 + len) U64_MAX) }

/-- Fetch an external base, charging its length. -/
def fetchBase (src : DeltaBaseSource) (id : Hash) : Step (Option Bytes) :=
  match src.fetch id with
  | .absent => pure none
  | .found bytes => do
    admitBase id bytes.length
    pure (some bytes)
  | .failed none e => throw e
  | .failed (some len) e => do
    admitBase id len
    throw e

/-- Fetch an external base and establish that it is the object asked for. -/
def externalBase (src : DeltaBaseSource) (id : Hash) : Step (Option Bytes) := do
  match ← fetchBase src id with
  | none => pure none
  | some bytes =>
    let ok ← liftM (externalBaseMatches B src.VERIFIED bytes id)
    pure (if ok then some bytes else none)

/-- The bytes of a delta's base: kept from the pack, or fetched and kept. -/
def baseBytes (src : DeltaBaseSource) (base : Hash) : Step Bytes := do
  let c ← get
  match c.in_pack.lookup base with
  | some bytes => pure bytes
  | none =>
    match ← externalBase B src base with
    | none => throw (.deltaBaseMissing (toHex base))
    | some bytes =>
      let c ← get
      set { c with in_pack := c.in_pack.insert base bytes }
      pure bytes

/-- Rebuild the object behind a delta. -/
def resolveDeltaTarget (src : DeltaBaseSource) (base : Hash) (stream : Bytes) : Step Bytes := do
  let bytes ← baseBytes B src base
  let _ ← liftM (validateDeltaResultSize stream)
  liftM (liftDelta (DeltaStream.decode bytes stream))

/-- The error of a base that is neither in the pack nor provided. -/
def isDeltaBaseMissing : PackError → Bool
  | .deltaBaseMissing _ => true
  | _ => false

/-- Count a use of a base; with the last one its bytes and its charge go. -/
def useBase (base : Hash) (c : PackDecodeCursor) : PackDecodeCursor :=
  match c.uses.lookup base with
  | none => c
  | some left =>
    if left - 1 = 0 then
      { c with
        uses := spend c.uses base
        in_pack := c.in_pack.erase base
        charged := c.charged.erase base
        budget := { c.budget with used := c.budget.used - (c.charged.lookup base).getD 0 } }
    else { c with uses := spend c.uses base }

/-- Undo the charge of an attempt that took the cursor from `c` to `c'`, and put the frame
back. -/
def restore (frame : CursorFrame) (base : Hash) (c c' : PackDecodeCursor) : PackDecodeCursor :=
  { c' with
    budget := { c'.budget with used := c.budget.used }
    charged := match c.charged.lookup base with
      | some len => c'.charged.insert base len
      | none => c'.charged.erase base
    entries := c'.entries.set c'.next (some { frame with cap := none }) }

/-- Resolve a delta; the attempt is undone when its base is missing. -/
def resolveOrRestore (src : DeltaBaseSource) (frame : CursorFrame) (base : Hash)
    (stream : Bytes) : Step Bytes := fun c =>
  match exec (resolveDeltaTarget B src base stream) c with
  | (.ok bytes, c') => (.ok bytes, c')
  | (.error e, c') =>
    (.error e, if isDeltaBaseMissing e then restore frame base c c' else c')

/-- Take the next frame and decode it, up to the call of the sink. -/
def decodeNext (src : DeltaBaseSource) (before : Option Hash → Except PackError Unit) :
    Step DecodedEntry := do
  let c ← get
  match c.entries.getD c.next none with
  | none => throw .packfileCorrupted
  | some frame =>
    set { c with entries := c.entries.set c.next none }
    match frame.cap with
    | some e => throw e
    | none =>
      let _ ← liftM (before frame.delta_base)
      match frame.entry with
      | .raw bytes =>
        let (object, id) ← liftM (identify B bytes)
        pure { id, bytes, object, from_delta := false, frame_offset := frame.frame_offset,
               frame_length := frame.frame_length, wire_type := frame.wire_type,
               delta_base := frame.delta_base }
      | .delta base stream =>
        let resolved ← resolveOrRestore B src frame base stream
        let c ← get
        set (useBase base c)
        let (object, id) ← liftM (identify B resolved)
        pure { id, bytes := resolved, object, from_delta := true,
               frame_offset := frame.frame_offset, frame_length := frame.frame_length,
               wire_type := frame.wire_type, delta_base := frame.delta_base }

/-- Keep an object the sink has taken, if a later delta needs it, and move on. -/
def deliver (e : DecodedEntry) (c : PackDecodeCursor) : PackDecodeCursor :=
  { c with
    in_pack := if (c.uses.lookup e.id).isSome then c.in_pack.insert e.id e.bytes else c.in_pack
    report := c.report.map fun r =>
      { raw_count := if e.from_delta then r.raw_count else r.raw_count + 1
        delta_count := if e.from_delta then r.delta_count + 1 else r.delta_count
        ids := r.ids ++ [e.id] }
    next := c.next + 1 }

variable {σ : Type}

/-- Decode the next frame and hand it to the sink. -/
def advance (src : DeltaBaseSource) (before : Option Hash → Except PackError Unit)
    (sink : DecodedEntry → ExceptT PackError (StateM σ) Unit) (c : PackDecodeCursor) (st : σ) :
    Except PackError Unit × PackDecodeCursor × σ :=
  match exec (decodeNext B src before) c with
  | (.error e, c') => (.error e, c', st)
  | (.ok entry, c') =>
    match exec (sink entry) st with
    | (.error e, st') => (.error e, c', st')
    | (.ok _, st') => (.ok (), deliver entry c', st')

/-- Decode until the frames are used up or a step fails, for at most `n` frames. -/
def resumeLoop (src : DeltaBaseSource) (before : Option Hash → Except PackError Unit)
    (sink : DecodedEntry → ExceptT PackError (StateM σ) Unit) :
    ℕ → PackDecodeCursor → σ → Except PackError Unit × PackDecodeCursor × σ
  | 0, c, st => (.ok (), c, st)
  | n + 1, c, st =>
    match advance B src before sink c st with
    | (.ok _, c', st') => resumeLoop src before sink n c' st'
    | (.error e, c', st') => (.error e, c', st')

/-- Continue from the first frame not processed, with a check before each frame. -/
def resumeChecked (src : DeltaBaseSource) (before : Option Hash → Except PackError Unit)
    (sink : DecodedEntry → ExceptT PackError (StateM σ) Unit) (c : PackDecodeCursor) (st : σ) :
    Except PackError DecodeReport × PackDecodeCursor × σ :=
  if c.report.isNone then (.error .packfileCorrupted, c, st)
  else
    match resumeLoop B src before sink (c.entries.length - c.next) c st with
    | (.error e, c', st') => (.error e, c', st')
    | (.ok _, c', st') =>
      match c'.report with
      | none => (.error .packfileCorrupted, c', st')
      | some report => (.ok report, { c' with report := none }, st')

/-- Continue from the first frame not processed. -/
def resume (src : DeltaBaseSource) (sink : DecodedEntry → ExceptT PackError (StateM σ) Unit)
    (c : PackDecodeCursor) (st : σ) : Except PackError DecodeReport × PackDecodeCursor × σ :=
  resumeChecked B src (fun _ => .ok ()) sink c st

end PackDecodeCursor

variable {σ : Type}

/-- Decode a whole pack. -/
def decodeEntriesWith (pack : Bytes) (src : DeltaBaseSource) (limits : DecodeLimits)
    (sink : DecodedEntry → ExceptT PackError (StateM σ) Unit) (st : σ) :
    Except PackError DecodeReport × σ :=
  match PackDecodeCursor.new Z B pack limits with
  | .error e => (.error e, st)
  | .ok c =>
    let (r, _, st') := PackDecodeCursor.resume B src sink c st
    (r, st')

/-- A sink that accepts and collects everything. -/
def collect (e : DecodedEntry) : ExceptT PackError (StateM (List DecodedEntry)) Unit :=
  modify (· ++ [e])

/-! ### The plain reading -/

/-- The base a source provides, checked. -/
def DeltaBaseSource.provides (src : DeltaBaseSource) (id : Hash) : Except PackError Bytes :=
  match src.fetch id with
  | .absent => .error (.deltaBaseMissing (toHex id))
  | .failed _ e => .error e
  | .found bytes =>
    match externalBaseMatches B src.VERIFIED bytes id with
    | .error e => .error e
    | .ok true => .ok bytes
    | .ok false => .error (.deltaBaseMissing (toHex id))

/-- The bytes of a base after the objects `made`: the latest of them with that id, else what
the source provides. -/
def baseOf (src : DeltaBaseSource) (made : List (Hash × Bytes)) (base : Hash) :
    Except PackError Bytes :=
  match latest made base with
  | some bytes => .ok bytes
  | none => src.provides B base

/-- Rebuild an object from its base and name it. -/
def rebuild (base stream : Bytes) : Except PackError (Object × Hash × Bytes) := do
  let _ ← validateDeltaResultSize stream
  let bytes ← liftDelta (DeltaStream.decode base stream)
  let (object, id) ← identify B bytes
  .ok (object, id, bytes)

/-- The object behind an entry, after the objects `made`. -/
def decodeOne (src : DeltaBaseSource) (made : List (Hash × Bytes)) :
    PackEntry → Except PackError (Object × Hash × Bytes)
  | .raw bytes => do
    let (object, id) ← identify B bytes
    .ok (object, id, bytes)
  | .delta base stream => do
    let b ← baseOf B src made base
    rebuild B b stream

/-- The objects behind a sequence of entries, in order, after the objects `made`. -/
def decodeAll (src : DeltaBaseSource) :
    List (Hash × Bytes) → List PackEntry → Except PackError (List (Object × Hash × Bytes))
  | _, [] => .ok []
  | made, e :: es => do
    let d ← decodeOne B src made e
    let rest ← decodeAll src (made ++ [d.2]) es
    .ok (d :: rest)

/-! ### A cursor over a pack of frames -/

/-- The cap a frame breaks. -/
def DecodeLimits.capOf (limits : DecodeLimits) (f : Frame) : Option PackError :=
  match limits.checkFrame f.etype f.payload with
  | .ok () => none
  | .error e => some e

/-- The frames of a pack from an offset on, as the cursor keeps them. -/
def cursorFrames (limits : DecodeLimits) : ℕ → List Frame → List PackEntry → List CursorFrame
  | offset, f :: fs, e :: es =>
    { entry := e, frame_offset := offset, frame_length := f.wire.length,
      wire_type := f.etype, delta_base := e.base?, cap := limits.capOf f } ::
      cursorFrames limits (offset + f.wire.length) fs es
  | _, _, _ => []

/-- The bases that the deltas among some entries name, in order. -/
def basesOf (es : List PackEntry) : List Hash :=
  es.filterMap PackEntry.base?

/-- What the compressed entries claim, and what the deltas declare. -/
def claims (fs : List Frame) (es : List PackEntry) : List ℕ :=
  fs.filterMap (fun f => compressedClaim f.etype f.payload) ++ es.filterMap PackEntry.deltaClaim?

/-- The entries behind the frames of a pack. -/
def Decodes (version : ℕ) (fs : List Frame) (es : List PackEntry) : Prop :=
  List.Forall₂ (fun f e => (f.entry version >>= decodeEncodedPayload Z) = .ok e) fs es

variable {fs : List Frame} {es es' : List PackEntry}

/-- Frames have one reading. -/
theorem Decodes.unique {Z : Zstd} {version : ℕ}
    (h : Decodes Z version fs es) (h' : Decodes Z version fs es') : es = es' := by
  induction h generalizing es' with
  | nil =>
    cases h'
    rfl
  | cons he _ ih =>
    cases h' with
    | cons he' h' => rw [Except.ok.inj (he.symm.trans he'), ih h']

/-- A fresh cursor. -/
def PackDecodeCursor.start (limits : DecodeLimits) (fs : List Frame) (es : List PackEntry) :
    PackDecodeCursor :=
  { entries := (cursorFrames limits HEADER_LEN fs es).map some
    next := 0
    budget := { used := (claims fs es).sum, max := limits.max_decoded_bytes }
    charged := ∅
    uses := tally (basesOf es)
    in_pack := ∅
    report := some { raw_count := 0, delta_count := 0, ids := [] } }

/-- Charge a list of claims, one after the other. -/
def chargeAll : List ℕ → DecodeBudget → Except PackError DecodeBudget
  | [], b => .ok b
  | n :: ns, b =>
    match b.charge n with
    | .error e => .error e
    | .ok b => chargeAll ns b

theorem chargeAll_append (ms ns : List ℕ) (b : DecodeBudget) :
    chargeAll (ms ++ ns) b = (chargeAll ms b >>= chargeAll ns) := by
  induction ms generalizing b with
  | nil => rfl
  | cons m ms ih =>
    rw [List.cons_append, chargeAll, chargeAll]
    cases b.charge m with
    | error e => rfl
    | ok b => exact ih b

variable {b : DecodeBudget}

/-- Claims that fit a machine word are charged in full, and refused together when they exceed
the budget. -/
theorem chargeAll_eq {ns : List ℕ} (hsum : b.used + ns.sum ≤ U64_MAX) (hb : b.used ≤ b.max) :
    chargeAll ns b = if b.used + ns.sum ≤ b.max then .ok { b with used := b.used + ns.sum }
      else .error .packfileTooLarge := by
  induction ns generalizing b with
  | nil =>
    rw [chargeAll, if_pos (by simpa using hb)]
    simp
  | cons n ns ih =>
    rw [List.sum_cons] at hsum ⊢
    have hadd : b.add n = { b with used := b.used + n } := by
      rw [DecodeBudget.add, min_eq_left (by omega)]
    rw [chargeAll, DecodeBudget.charge, hadd]
    dsimp only
    by_cases hover : b.max < b.used + n
    · rw [if_pos hover, if_neg (by omega)]
    · rw [if_neg hover]
      have h := @ih { b with used := b.used + n } (by dsimp only; omega)
        (by dsimp only; omega)
      rw [← Nat.add_assoc]
      exact h

variable {k n : ℕ}

theorem leU32At_lt {bytes : Bytes} (h : leU32At bytes k = some n) : n < 2 ^ 32 := by
  rw [leU32At] at h
  split_ifs at h with hlen
  obtain rfl := Option.some.inj h
  have hlt := ofLeBytes_lt ((bytes.drop k).take 4)
  refine hlt.trans_le ?_
  exact Nat.pow_le_pow_right (by decide) (List.length_take_le _ _) |>.trans (by decide)

theorem compressedClaim_lt {etype : UInt8} {payload : Bytes}
    (h : compressedClaim etype payload = some n) : n < 2 ^ 32 := by
  rw [compressedClaim] at h
  split_ifs at h
  · exact leU32At_lt h
  · exact leU32At_lt h

theorem deltaClaim?_lt {e : PackEntry} (h : e.deltaClaim? = some n) : n < 2 ^ 32 := by
  cases e with
  | raw bytes => cases h
  | delta base stream => exact leU32At_lt h

/-- The claims of a pack fit a machine word. -/
theorem claims_sum_lt (hlen : fs.length ≤ MAX_ENTRIES)
    (hes : es.length = fs.length) : (claims fs es).sum < 2 ^ 57 := by
  have hall : ∀ n ∈ claims fs es, n ≤ 2 ^ 32 := by
    intro n hn
    rw [claims, List.mem_append, List.mem_filterMap, List.mem_filterMap] at hn
    rcases hn with ⟨f, -, hf⟩ | ⟨e, -, he⟩
    · exact (compressedClaim_lt hf).le
    · exact (deltaClaim?_lt he).le
  have hsum := List.sum_le_card_nsmul (claims fs es) (2 ^ 32) hall
  have hcard : (claims fs es).length ≤ 2 * MAX_ENTRIES := by
    have h₁ := List.length_filterMap_le (fun f : Frame => compressedClaim f.etype f.payload) fs
    have h₂ := List.length_filterMap_le PackEntry.deltaClaim? es
    rw [claims, List.length_append]
    omega
  have hmax : 2 * MAX_ENTRIES * 2 ^ 32 < 2 ^ 57 := by decide
  calc (claims fs es).sum ≤ (claims fs es).length * 2 ^ 32 := hsum
    _ ≤ 2 * MAX_ENTRIES * 2 ^ 32 := Nat.mul_le_mul_right _ hcard
    _ < 2 ^ 57 := hmax

variable {bytes : Bytes} {version : ℕ}

/-- The claims of the compressed entries are charged frame by frame. -/
theorem chargeCompressedClaims_eq {pos : ℕ} {todo : List Frame}
    (hdrop : bytes.drop pos = framesWire todo ++ bytes.drop (bytes.length - TRAILER_LEN))
    (hpos : pos + (framesWire todo).length = bytes.length - TRAILER_LEN)
    (hlen : ∀ f ∈ todo, f.payload.length < 2 ^ 32) (hn : todo.length ≤ n) :
    chargeCompressedClaims bytes n pos b =
      chargeAll (todo.filterMap fun f => compressedClaim f.etype f.payload) b := by
  induction todo generalizing n pos b with
  | nil =>
    have hend : ¬ pos < bytes.length - TRAILER_LEN := by
      rw [framesWire_nil, List.length_nil] at hpos
      omega
    cases n with
    | zero => rfl
    | succ n =>
      rw [chargeCompressedClaims]
      dsimp only
      rw [if_neg hend]
      rfl
  | cons f fs ih =>
    obtain ⟨n, rfl⟩ : ∃ m, n = m + 1 := ⟨n - 1, by rw [List.length_cons] at hn; omega⟩
    have h5 : ENTRY_FRAME_LEN = 5 := rfl
    rw [framesWire_cons, List.append_assoc] at hdrop
    rw [framesWire_cons, List.length_append, Frame.length_wire] at hpos
    have hheader := frameHeader_wire (hlen f List.mem_cons_self) hdrop
    obtain ⟨hpayload, hrest⟩ := payload_wire hdrop
    rw [frameHeader, Prod.mk.injEq] at hheader
    have hword : leU32At bytes (pos + 1) = some f.payload.length := by
      rw [leU32At, if_neg (by omega), hheader.2]
    rw [chargeCompressedClaims]
    dsimp only
    rw [if_pos (by omega), hword, hheader.1]
    dsimp only
    rw [if_neg (by omega), hpayload, List.filterMap_cons]
    have ih : ∀ b, chargeCompressedClaims bytes n (pos + ENTRY_FRAME_LEN + f.payload.length) b =
        chargeAll (fs.filterMap fun f => compressedClaim f.etype f.payload) b :=
      fun b => ih hrest (by omega) (fun g hg => hlen g (List.mem_cons_of_mem f hg))
        (by rw [List.length_cons] at hn; omega)
    cases compressedClaim f.etype f.payload with
    | none => exact ih b
    | some claim =>
      dsimp only
      rw [chargeAll]
      cases b.charge claim with
      | error e => rfl
      | ok b => exact ih b

/-- The claims of the deltas are charged entry by entry. -/
theorem chargeDeltaClaims_eq (fs : List CursorFrame) (b : DecodeBudget) :
    PackDecodeCursor.chargeDeltaClaims fs b =
      chargeAll (fs.filterMap fun f => f.entry.deltaClaim?) b := by
  induction fs generalizing b with
  | nil => rfl
  | cons f fs ih =>
    rw [PackDecodeCursor.chargeDeltaClaims, List.filterMap_cons]
    cases f.entry.deltaClaim? with
    | none => exact ih b
    | some n =>
      dsimp only
      rw [chargeAll]
      cases b.charge n with
      | error e => rfl
      | ok b => exact ih b

/-- The entries the cursor keeps are the ones decoded. -/
theorem map_entry_cursorFrames {limits : DecodeLimits} {offset : ℕ} {fs : List Frame}
    {es : List PackEntry} (h : es.length = fs.length) :
    (cursorFrames limits offset fs es).map CursorFrame.entry = es := by
  induction fs generalizing offset es with
  | nil =>
    obtain rfl : es = [] := List.length_eq_zero_iff.1 h
    rfl
  | cons f fs ih =>
    obtain ⟨e, es, rfl⟩ := List.exists_cons_of_length_eq_add_one h
    rw [cursorFrames, List.map_cons, ih (by simpa using h)]

/-- Draining the iterator decompresses the frames that are left, or fails on one of them. -/
theorem drain_eq_ok_iff {limits : DecodeLimits} {p : PackEntries} {past todo : List Frame}
    {out : List CursorFrame} (hp : p.At version past todo) (hpack : p.bytes = bytes)
    (hlen : ∀ f ∈ todo, f.payload.length < 2 ^ 32) :
    PackDecodeCursor.drain Z bytes limits (todo.length + 1) p = .ok out ↔
      ∃ es, Decodes Z version todo es ∧ out = cursorFrames limits p.pos todo es := by
  induction todo generalizing p past out with
  | nil =>
    rw [List.length_nil, PackDecodeCursor.drain, hp.next_nil]
    constructor
    · intro h
      exact ⟨[], .nil, (Except.ok.inj h).symm⟩
    · rintro ⟨es, h, rfl⟩
      cases h
      rfl
  | cons f fs ih =>
    obtain ⟨p', ⟨hp', hbytes, hrange⟩, hnext⟩ :=
      hp.next_cons Z (hlen f List.mem_cons_self)
    have hdrop := hp.drop_pos
    rw [framesWire_cons, List.append_assoc, hpack] at hdrop
    have htype : bytes.getD p.pos 0 = f.etype :=
      congrArg Prod.fst (frameHeader_wire (hlen f List.mem_cons_self) hdrop)
    have hpayload : (bytes.drop (p.pos + ENTRY_FRAME_LEN)).take
        (p.pos + f.wire.length - (p.pos + ENTRY_FRAME_LEN)) = f.payload := by
      rw [Frame.length_wire, ← Nat.add_assoc, Nat.add_sub_cancel_left]
      exact (payload_wire hdrop).1
    have hpos' : p'.pos = p.pos + f.wire.length := by
      rw [hp'.pos_eq, hp.pos_eq, framesWire_append, List.length_append, framesWire_cons,
        framesWire_nil, List.append_nil, Nat.add_assoc]
    have ih : ∀ out, PackDecodeCursor.drain Z bytes limits (fs.length + 1) p' = .ok out ↔
        ∃ es, Decodes Z version fs es ∧ out = cursorFrames limits p'.pos fs es :=
      fun out => ih hp' (hbytes.trans hpack)
        (fun g hg => hlen g (List.mem_cons_of_mem f hg))
    rw [List.length_cons, PackDecodeCursor.drain, hnext]
    cases hdecode : (f.entry version >>= decodeEncodedPayload Z) with
    | error err =>
      constructor
      · intro h
        cases h
      · rintro ⟨es, hes, -⟩
        obtain ⟨e, es', he, -, -⟩ := List.forall₂_cons_left_iff.1 hes
        rw [hdecode] at he
        cases he
    | ok e =>
      dsimp only
      rw [hrange]
      dsimp only
      rw [hpayload, Nat.add_sub_cancel, htype, Nat.add_sub_cancel_left]
      constructor
      · intro h
        cases hrest : PackDecodeCursor.drain Z bytes limits (fs.length + 1) p' with
        | error err =>
          rw [hrest] at h
          cases h
        | ok rest =>
          rw [hrest] at h
          obtain ⟨es, hes, rfl⟩ := (ih rest).1 hrest
          refine ⟨e :: es, .cons hdecode hes, ?_⟩
          rw [cursorFrames, ← hpos']
          exact (Except.ok.inj h).symm
      · rintro ⟨es, hes, rfl⟩
        obtain ⟨e', es', he, hes', rfl⟩ := List.forall₂_cons_left_iff.1 hes
        obtain rfl : e = e' := Except.ok.inj (hdecode.symm.trans he)
        rw [(ih _).2 ⟨es', hes', rfl⟩, cursorFrames, ← hpos']
        rfl

/-- The deltas' bases among the frames the cursor keeps. -/
theorem filterMap_cursorFrames {β : Type} (g : PackEntry → Option β) {limits : DecodeLimits}
    {offset : ℕ} (h : es.length = fs.length) :
    (cursorFrames limits offset fs es).filterMap (fun f => g f.entry) = es.filterMap g := by
  conv_rhs => rw [← @map_entry_cursorFrames limits offset fs es h]
  rw [List.filterMap_map]
  rfl

/-- Opening a cursor charges all the claims of its pack before anything is delivered. -/
theorem chargeAll_claims (hlen : fs.length ≤ MAX_ENTRIES) (hes : es.length = fs.length) (max : ℕ) :
    chargeAll (claims fs es) { used := 0, max } = .ok b ↔
      (claims fs es).sum ≤ max ∧ b = { used := (claims fs es).sum, max } := by
  have hsum := claims_sum_lt hlen hes
  have hU : U64_MAX = 2 ^ 64 - 1 := rfl
  rw [chargeAll_eq (by dsimp only; omega) (Nat.zero_le _)]
  simp only [Nat.zero_add]
  split_ifs with hmax
  · simp only [hmax, true_and, Except.ok.injEq, eq_comm]
  · simp only [hmax, false_and]

/-- What opening a cursor does on the pack of legal frames. -/
theorem PackDecodeCursor.new_packBytes (limits : DecodeLimits)
    (hlegal : LegalPack version MAX_TOTAL_PAYLOAD fs) :
    ∃ p : PackEntries, p.At version [] fs ∧ p.bytes = packBytes B version fs ∧
      p.pos = HEADER_LEN ∧
      PackDecodeCursor.new Z B (packBytes B version fs) limits = (do
        let budget ← chargeAll (fs.filterMap fun f => compressedClaim f.etype f.payload)
          { used := 0, max := limits.max_decoded_bytes }
        let entries ← drain Z (packBytes B version fs) limits (fs.length + 1) p
        let budget ← chargeDeltaClaims entries budget
        .ok { entries := entries.map some
              next := 0
              budget
              charged := ∅
              uses := tally (entries.filterMap fun f => f.entry.base?)
              in_pack := ∅
              report := some { raw_count := 0, delta_count := 0, ids := [] } }) := by
  have hcap : MAX_TOTAL_PAYLOAD < U64_MAX := by decide
  obtain ⟨first, hnew⟩ := exists_new_packBytes B hcap hlegal
  have hsplit : (packBytes B version fs).length - TRAILER_LEN =
      HEADER_LEN + (framesWire fs).length := by
    rw [length_packBytes, Nat.add_sub_cancel]
  have hdrop : (packBytes B version fs).drop HEADER_LEN = framesWire fs ++
      (packBytes B version fs).drop ((packBytes B version fs).length - TRAILER_LEN) := by
    rw [hsplit, drop_header, drop_packBody]
  have hrounds : fs.length ≤ (packBytes B version fs).length := by
    rw [length_packBytes, length_framesWire, show ENTRY_FRAME_LEN = 5 from rfl]
    omega
  refine ⟨_, PackEntries.at_start B first, rfl, rfl, ?_⟩
  rw [PackDecodeCursor.new, PackEntries.new, hnew]
  change (chargeCompressedClaims _ _ HEADER_LEN _ >>= _) = _
  rw [chargeCompressedClaims_eq hdrop hsplit.symm (fun f hf => (hlegal.legal f hf).1) hrounds]
  rfl

variable {c : PackDecodeCursor}

/-- A cursor opens on the pack of legal frames when they decompress within its budget. -/
theorem PackDecodeCursor.new_packBytes_eq_ok_iff {limits : DecodeLimits}
    (hlegal : LegalPack version MAX_TOTAL_PAYLOAD fs) :
    PackDecodeCursor.new Z B (packBytes B version fs) limits = .ok c ↔
      ∃ es, Decodes Z version fs es ∧ (claims fs es).sum ≤ limits.max_decoded_bytes ∧
        c = PackDecodeCursor.start limits fs es := by
  obtain ⟨p, hat, hbytes, hpos, hnew⟩ := PackDecodeCursor.new_packBytes Z B limits hlegal
  have hdrain : ∀ out, drain Z (packBytes B version fs) limits (fs.length + 1) p = .ok out ↔
      ∃ es, Decodes Z version fs es ∧ out = cursorFrames limits HEADER_LEN fs es := by
    intro out
    rw [← hpos]
    exact drain_eq_ok_iff Z hat hbytes fun f hf => (hlegal.legal f hf).1
  rw [hnew, Wire.bind_eq_ok]
  constructor
  · rintro ⟨b₁, hcomp, h⟩
    rw [Wire.bind_eq_ok] at h
    obtain ⟨entries, hentries, h⟩ := h
    rw [Wire.bind_eq_ok] at h
    obtain ⟨b₂, hdelta, h⟩ := h
    obtain ⟨es, hes, rfl⟩ := (hdrain entries).1 hentries
    have heslen := hes.length_eq.symm
    rw [chargeDeltaClaims_eq, filterMap_cursorFrames PackEntry.deltaClaim? heslen] at hdelta
    have hall : chargeAll (claims fs es) { used := 0, max := limits.max_decoded_bytes } =
        .ok b₂ := by
      rw [claims, chargeAll_append, hcomp]
      exact hdelta
    obtain ⟨hmax, rfl⟩ := (chargeAll_claims hlegal.length_le heslen _).1 hall
    refine ⟨es, hes, hmax, ?_⟩
    rw [← Except.ok.inj h, PackDecodeCursor.start, basesOf,
      filterMap_cursorFrames PackEntry.base? heslen]
  · rintro ⟨es, hes, hmax, rfl⟩
    have heslen := hes.length_eq.symm
    have hall := (chargeAll_claims hlegal.length_le heslen limits.max_decoded_bytes).2
      ⟨hmax, rfl⟩
    rw [claims, chargeAll_append, Wire.bind_eq_ok] at hall
    obtain ⟨b₁, hcomp, hdelta⟩ := hall
    refine ⟨b₁, hcomp, ?_⟩
    rw [(hdrain _).2 ⟨es, hes, rfl⟩]
    change (chargeDeltaClaims _ _ >>= _) = _
    rw [chargeDeltaClaims_eq, filterMap_cursorFrames PackEntry.deltaClaim? heslen, hdelta]
    change Except.ok _ = _
    rw [PackDecodeCursor.start, basesOf, filterMap_cursorFrames PackEntry.base? heslen]
    rfl

variable {err : PackError}

theorem chargeAll_eq_error {ns : List ℕ}
    (h : chargeAll ns b = .error err) : err = .packfileTooLarge := by
  induction ns generalizing b with
  | nil => cases h
  | cons n ns ih =>
    rw [chargeAll, DecodeBudget.charge] at h
    split_ifs at h
    · exact (Except.error.inj h).symm
    · exact ih h

/-- When the frames decompress, only the budget can keep a cursor from opening. -/
theorem PackDecodeCursor.new_packBytes_eq_error {limits : DecodeLimits}
     (hlegal : LegalPack version MAX_TOTAL_PAYLOAD fs) (hes : Decodes Z version fs es)
    (h : PackDecodeCursor.new Z B (packBytes B version fs) limits = .error err) :
    err = .packfileTooLarge := by
  obtain ⟨p, hat, hbytes, hpos, hnew⟩ := PackDecodeCursor.new_packBytes Z B limits hlegal
  have hdrain : drain Z (packBytes B version fs) limits (fs.length + 1) p =
      .ok (cursorFrames limits p.pos fs es) :=
    (drain_eq_ok_iff Z hat hbytes fun f hf => (hlegal.legal f hf).1).2 ⟨es, hes, rfl⟩
  rw [hnew, hdrain] at h
  cases hcomp : chargeAll (fs.filterMap fun f => compressedClaim f.etype f.payload)
      { used := 0, max := limits.max_decoded_bytes } with
  | error err' =>
    rw [hcomp] at h
    obtain rfl : err' = err := Except.error.inj h
    exact chargeAll_eq_error hcomp
  | ok b =>
    rw [hcomp] at h
    change (chargeDeltaClaims _ b >>= _) = _ at h
    rw [chargeDeltaClaims_eq] at h
    cases hdelta : chargeAll ((cursorFrames limits p.pos fs es).filterMap
        fun f => f.entry.deltaClaim?) b with
    | error err' =>
      rw [hdelta] at h
      obtain rfl : err' = err := Except.error.inj h
      exact chargeAll_eq_error hdelta
    | ok b' =>
      rw [hdelta] at h
      cases h

/-- **A cursor opens exactly on a pack of legal frames that decompress, within its budget.** -/
theorem PackDecodeCursor.new_eq_ok_iff {limits : DecodeLimits} :
    PackDecodeCursor.new Z B bytes limits = .ok c ↔
      ∃ version fs es, LegalPack version MAX_TOTAL_PAYLOAD fs ∧ bytes = packBytes B version fs ∧
        Decodes Z version fs es ∧ (claims fs es).sum ≤ limits.max_decoded_bytes ∧
        c = PackDecodeCursor.start limits fs es := by
  have hcap : MAX_TOTAL_PAYLOAD < U64_MAX := by decide
  constructor
  · intro h
    have h' := h
    rw [PackDecodeCursor.new, Wire.bind_eq_ok] at h'
    obtain ⟨p, hp, -⟩ := h'
    obtain ⟨version, fs, first, hlegal, rfl, -, rfl⟩ :=
      (newWithPayloadCap_eq_ok_iff B hcap).1 hp
    obtain ⟨es, hes, hmax, hc⟩ := (new_packBytes_eq_ok_iff Z B hlegal).1 h
    exact ⟨version, fs, es, hlegal, rfl, hes, hmax, hc⟩
  · rintro ⟨version, fs, es, hlegal, rfl, hes, hmax, hc⟩
    exact (new_packBytes_eq_ok_iff Z B hlegal).2 ⟨es, hes, hmax, hc⟩

variable {B}

/-- A stream that rebuilds an object declares a length that an object may have. -/
theorem validateDeltaResultSize_of_decode {v stream bytes : Bytes}
    (h : DeltaStream.decode v stream = .ok bytes) (hlen : bytes.length ≤ MAX_RAW_OBJECT_SIZE) :
    validateDeltaResultSize stream = .ok bytes.length := by
  obtain ⟨hshort, hresult⟩ := DeltaStream.result_len_of_decode h
  rw [validateDeltaResultSize, if_neg hshort]
  dsimp only
  rw [hresult, if_neg (by omega)]

/-- Such a stream is charged for the object it rebuilds. -/
theorem deltaClaim?_of_decode {v stream bytes : Bytes} {base : Hash}
    (h : DeltaStream.decode v stream = .ok bytes) :
    (PackEntry.delta base stream).deltaClaim? = some bytes.length := by
  obtain ⟨hshort, hresult⟩ := DeltaStream.result_len_of_decode h
  rw [PackEntry.deltaClaim?, leU32At, if_neg (by exact hshort), hresult]

theorem length_of_identify {bytes : Bytes} {x : Object × Hash} (h : identify B bytes = .ok x) :
    bytes.length ≤ MAX_RAW_OBJECT_SIZE := by
  rw [identify, Wire.bind_eq_ok] at h
  obtain ⟨o, ho, -⟩ := h
  rw [validateStorableObject] at ho
  split_ifs at ho with hlt
  exact Nat.not_lt.1 hlt

/-- A stream that rebuilds a storable object. -/
theorem rebuild_of_decode {v stream bytes : Bytes} {o : Object} {id : Hash}
    (hdecode : DeltaStream.decode v stream = .ok bytes) (hid : identify B bytes = .ok (o, id)) :
    rebuild B v stream = .ok (o, id, bytes) := by
  rw [rebuild, validateDeltaResultSize_of_decode hdecode (length_of_identify hid), hdecode]
  change (identify B bytes >>= _) = _
  rw [hid]
  rfl

/-! ### Blobs of zeros -/

/-- The bytes of a blob in front of its data. -/
def blobHeader (n : ℕ) : Bytes :=
  writePrologue .blob ++ writeU32Le (UInt32.ofNat n)

theorem length_blobHeader (n : ℕ) : (blobHeader n).length = 10 := by
  rw [blobHeader, List.length_append, writeU32Le, length_leBytes]
  rfl

/-- A blob of zeros. -/
def zeroBlob (n : ℕ) : Bytes :=
  blobHeader n ++ List.replicate n 0

theorem length_zeroBlob (n : ℕ) : (zeroBlob n).length = n + 10 := by
  rw [zeroBlob, List.length_append, List.length_replicate, length_blobHeader, Nat.add_comm]

/-- A blob of zeros is a storable object, named by its hash. -/
theorem identify_zeroBlob {n : ℕ} (hn : n + 10 ≤ MAX_RAW_OBJECT_SIZE) :
    identify B (zeroBlob n) = .ok (.blob ⟨List.replicate n 0⟩, B.hash (zeroBlob n)) := by
  have hmax : MAX_RAW_OBJECT_SIZE < 2 ^ 32 := by decide
  have hser : serialize (.blob ⟨List.replicate n 0⟩) = .ok (zeroBlob n) := by
    rw [serialize, writeBody, writeBlob, writeLpBytes, List.length_replicate, checkedU32,
      if_pos (by omega)]
    change Except.ok (writePrologue .blob ++ (writeU32Le (UInt32.ofNat n) ++
      List.replicate n 0)) = _
    rw [← List.append_assoc]
    rfl
  have hdec : Object.Decodable (.blob ⟨List.replicate n 0⟩) := by
    change (List.replicate n (0 : UInt8)).length < 2 ^ 32
    rw [List.length_replicate]
    omega
  rw [identify, validateStorableObject, length_zeroBlob, if_neg (by omega),
    deserialize_eq_ok_iff.2 ⟨hdec, hser⟩]
  rfl

/-- A delta between two blobs of zeros: the header of the new blob, and as many copies of the
zeros of the old one as it takes. -/
def zeroDelta (k m : ℕ) : Bytes :=
  DeltaStream.writeHeader (zeroBlob (65535 * k)).length (zeroBlob (65535 * m)).length ++
    (UInt8.ofNat (blobHeader (65535 * m)).length :: blobHeader (65535 * m) ++
      (List.replicate m (DeltaStream.emitCopy 10 65535)).flatten)

theorem length_zeroDelta (k m : ℕ) : (zeroDelta k m).length = 7 * m + 20 := by
  have hcopy : (DeltaStream.emitCopy 10 65535).length = 7 := rfl
  have hheader : (DeltaStream.writeHeader (zeroBlob (65535 * k)).length
      (zeroBlob (65535 * m)).length).length = 9 := rfl
  rw [zeroDelta, List.length_append, List.length_append, List.length_cons, length_blobHeader,
    hheader, List.length_flatten, List.map_replicate, List.sum_replicate_nat, hcopy]
  omega

theorem emits_zeros (hk : 0 < k) (m : ℕ) : DeltaStream.Emits (zeroBlob (65535 * k))
      (List.replicate m (DeltaStream.emitCopy 10 65535)).flatten
      (List.replicate (65535 * m) 0) := by
  have hrun : ((zeroBlob (65535 * k)).drop 10).take 65535 = List.replicate 65535 0 := by
    have hdrop : (zeroBlob (65535 * k)).drop 10 = List.replicate (65535 * k) 0 :=
      List.drop_left' (length_blobHeader _)
    rw [hdrop, List.take_replicate, Nat.min_eq_left (Nat.le_mul_of_pos_right _ hk)]
  induction m with
  | zero => exact .nil
  | succ m ih =>
    rw [List.replicate_succ, List.flatten_cons, Nat.mul_succ, Nat.add_comm,
      List.replicate_add, ← hrun]
    refine DeltaStream.Emits.copy (by decide) (by decide) (by decide) ?_ ih
    rw [length_zeroBlob]
    omega

theorem decode_zeroDelta {m : ℕ} (hk : 0 < k) (hk' : 65535 * k + 10 < 2 ^ 32)
    (hm : 65535 * m + 10 < 2 ^ 32) :
    DeltaStream.decode (zeroBlob (65535 * k)) (zeroDelta k m) = .ok (zeroBlob (65535 * m)) := by
  have hemits : DeltaStream.Emits (zeroBlob (65535 * k))
      (UInt8.ofNat (blobHeader (65535 * m)).length :: blobHeader (65535 * m) ++
        (List.replicate m (DeltaStream.emitCopy 10 65535)).flatten) (zeroBlob (65535 * m)) := by
    refine DeltaStream.Emits.insert ?_ ?_ (emits_zeros hk m)
    · exact List.ne_nil_of_length_pos (by rw [length_blobHeader]; omega)
    · rw [length_blobHeader]
      decide
  refine DeltaStream.decode_of_emits hemits ?_ ?_
  · rw [length_zeroBlob]
    exact hk'
  · rw [length_zeroBlob]
    exact hm

end Mkit.Pack
