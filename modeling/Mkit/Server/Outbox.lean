import Mkit.Lib.Effect
import Mkit.Lib.SortedSet
import Mkit.Server.Codec

/-!
# Reservations and the Outbox

The pure fragments that plan reservations, terminal outcomes and relay rows. One guarded `o` row
arbitrates ticketed or pending to terminal; delivery removes that row only after its
acknowledgement. A terminal row is indexed by an `oq` row under a sequence from `os` and counted,
with its bytes, in the backlog `oc`.

The builder's methods change the builder as far as they got before they failed, and remember the
first failure; `tryFinish` and `planAck` work on the caller's guards and writes.
-/

namespace Mkit.Server

open Effect

/-- Maximum operations (puts plus deletes) per relay row. -/
def MAX_RELAY_PUTS : ℕ := 96

/-- `,"deletes":[]` -/
def RELAY_DELETE_FIELD_BYTES : ℕ := 13

/-- The timer kinds of the outbox. -/
def RELAY : UInt8 := 3

def OUTCOME_DELIVERY : UInt8 := 8

def RESERVATION_RECONCILE : UInt8 := 9

/-- A validated terminal value. -/
structure Terminal (S : Serde) where
  record : ReservationV1
  /-- A ticketed or pending value cannot be an outcome. -/
  terminal : record.isTerminal = true
  /-- Its encoding decodes. -/
  decodes : ∃ r, decodeReservation S (encodeReservation S record) = .ok r

/-- Validate a terminal record before planning its replacement. -/
def Terminal.new (S : Serde) (record : ReservationV1) : Except StoreError (Terminal S) :=
  if ht : record.isTerminal = true then
    match hd : decodeReservation S (encodeReservation S record) with
    | .ok r => .ok ⟨record, ht, r, hd⟩
    | .error e => .error e
  else .error (.invalid "outcome must be terminal")

def ReservationV1.occurredAtMs : ReservationV1 → UInt64
  | .committed _ at_ _ _ _ _ _ | .aborted _ at_ _ _ _ | .expired _ at_ | .readServed _ at_ _ _ _
  | .repoStorageChanged _ at_ _ _ => at_
  | _ => 0

/-- The guard that a row is still as it was read. -/
def guardOf (k : Key) (prior : Option Value) : Precondition :=
  match prior with
  | some value => .equals k value
  | none => .absent k

/-- Decode a row that may be missing. -/
def decodeOr {T : Type} (decode : Value → Except StoreError T) (missing : T) :
    Option Value → Except StoreError T
  | some value => decode value
  | none => .ok missing

/-- One batch's outbox edits, using a single snapshot of `os` and `oc`. -/
structure OutboxBuilder where
  os : Option Value
  oc : Option Value
  seq : UInt64
  backlog : Backlog
  sequenceTouched : Bool
  backlogTouched : Bool
  pre : List Precondition
  writes : List Write
  relays : SortedMap Partition (SortedMap Key (Option Value))
  reservations : SortedSet Bytes
  error : Option StoreError
  relayAtMs : Option UInt64
  kickAtMs : Option UInt64

/-- The caller's guards and writes. -/
structure Plan where
  pre : List Precondition
  writes : List Write
deriving DecidableEq

/-- What a builder method does: it may fail, and keeps what it changed until then. -/
abbrev Build := ExceptT StoreError (StateM OutboxBuilder)

/-- What the functions on the caller's vectors do. -/
abbrev Planning := ExceptT StoreError (StateM Plan)

namespace OutboxBuilder

variable (S : Serde)

/-- Read sequence and backlog once. Missing rows mean zero. -/
def new (os oc : Option Value) : Except StoreError OutboxBuilder := do
  let seq ← decodeOr decodeU64 0 os
  if os.isSome && seq == 0 then throw (.corrupt "outbox sequence is zero")
  let backlog ← decodeOr (decodeBacklog S) .zero oc
  pure
    { os, oc, seq, backlog
      sequenceTouched := false
      backlogTouched := false
      pre := []
      writes := []
      relays := .empty
      reservations := .empty
      error := none
      relayAtMs := none
      kickAtMs := none }

/-- Allocate the next sequence. -/
def allocate : Build UInt64 := do
  let b ← get
  match Words.checkedAdd b.seq 1 with
  | none => throw (.corrupt "outbox sequence overflow")
  | some seq =>
    set { b with seq, sequenceTouched := true }
    pure seq

/-- Run a method, keeping its first failure for later. -/
def remember (method : Build Unit) (b : OutboxBuilder) : OutboxBuilder :=
  match exec method b with
  | (.ok (), b') => b'
  | (.error e, b') => if b'.error.isNone then { b' with error := some e } else b'

/-- Append a guard. -/
def pushPre (p : Precondition) : Build Unit := do
  let b ← get
  set { b with pre := b.pre ++ [p] }

/-- Append a write. -/
def pushWrite (w : Write) : Build Unit := do
  let b ← get
  set { b with writes := b.writes ++ [w] }

/-- Take a reservation id that the batch does not use yet. -/
def claim (rid : Bytes) : Build Unit := do
  let b ← get
  if rid ∈ b.reservations then throw (.invalid "duplicate reservation in batch")
  set { b with reservations := b.reservations.insert rid }

/-- Is the prior row one that a new reservation may replace? -/
def checkPrior (prior : Option Value) : Except StoreError Unit :=
  match prior with
  | none => .ok ()
  | some value => do
    match ← decodeReservation S value with
    | .pending _ _ _ .write _ => pure ()
    | _ => throw (.invalid "reservation id already in use")

/-- Reserve a unique id. An existing row fails its guard at commit even when it contains the same
ticket. -/
def reserve (rid : Bytes) (ticketId : Hash) (prior : Option Value) :
    OutboxBuilder → OutboxBuilder :=
  remember do
    let k ← liftM (keys.reservation rid)
    claim rid
    liftM (checkPrior S prior)
    pushPre (guardOf k prior)
    pushWrite (.put k (encodeReservation S (.ticketed ticketId)))

/-- Durably record an admitted reservation before any guarded apply. -/
def pending (rid : Bytes) (prior : Option Value) (record : ReservationV1) :
    OutboxBuilder → OutboxBuilder :=
  remember do
    if prior.isSome then throw (.invalid "reservation id already in use")
    match record with
    | .pending _ _ reconcileAtMs _ _ => do
      let k ← liftM (keys.reservation rid)
      claim rid
      let value := encodeReservation S record
      let _ ← liftM (decodeReservation S value)
      pushPre (.absent k)
      pushWrite (.put k value)
      pushWrite (.put (keys.timer reconcileAtMs RESERVATION_RECONCILE rid) [])
    | _ => throw (.invalid "pending requires Pending record")

/-- Which terminal records may follow which reservations. -/
def permitted : ReservationV1 → ReservationV1 → Bool
  | .ticketed _, .committed .. | .ticketed _, .aborted .. | .ticketed _, .expired .. => true
  | .pending priorRepo _ _ .write _, .committed repository _ _ _ _ _ _
  | .pending priorRepo _ _ .write _, .aborted repository _ _ _ _
  | .pending priorRepo _ _ .read _, .readServed repository _ _ _ _
  | .pending priorRepo _ _ .read _, .aborted repository _ _ _ _ => priorRepo == repository
  | _, _ => false

/-- Count one more terminal row of the given size. -/
def countRow (size : UInt64) : Build Unit := do
  let b ← get
  match Words.checkedAdd b.backlog.rows 1 with
  | none => throw (.corrupt "backlog rows overflow")
  | some rows => set { b with backlog := ⟨rows, b.backlog.bytes⟩ }
  let b ← get
  match Words.checkedAdd b.backlog.bytes size with
  | none => throw (.corrupt "backlog bytes overflow")
  | some bytes => set { b with backlog := ⟨b.backlog.rows, bytes⟩ }

/-- Note that the backlog changed; the first row of an absent backlog kicks the delivery. -/
def touchBacklog (occurredAtMs : UInt64) : Build Unit := do
  let b ← get
  set { b with
    kickAtMs := if b.oc.isNone && b.kickAtMs.isNone then some occurredAtMs else b.kickAtMs
    backlogTouched := true }

/-- Write a terminal row under a guard: counted in the backlog and indexed for delivery. -/
def enqueue (rid : Bytes) (k : Key) (guard : Precondition) (record : ReservationV1) :
    Build Unit := do
  let value := encodeReservation S record
  countRow (UInt64.ofNat (k.length + value.length))
  let seq ← allocate
  touchBacklog record.occurredAtMs
  pushPre guard
  pushWrite (.put k value)
  let index ← liftM (keys.outcomePending seq rid)
  pushWrite (.put index [])

/-- Replace a still ticketed or pending row with exactly one terminal outcome, queued for
delivery. A terminal prior is rejected rather than replaced. -/
def outcome (rid : Bytes) (prior : Value) (terminal : Terminal S) :
    OutboxBuilder → OutboxBuilder :=
  remember do
    let k ← liftM (keys.reservation rid)
    let before ← liftM (decodeReservation S prior)
    if !permitted before terminal.record then throw (.corrupt "illegal reservation transition")
    claim rid
    enqueue S rid k (.equals k prior) terminal.record

/-- Insert a terminal row that has no prior state. -/
def newTerminal (rid : Bytes) (record : ReservationV1) : Build Unit := do
  let k ← liftM (keys.reservation rid)
  claim rid
  enqueue S rid k (.absent k) record

/-- Fail a ticketless streaming reservation in one guarded unit. -/
def abortDirect (rid : Bytes) (terminal : Terminal S) : OutboxBuilder → OutboxBuilder :=
  remember do
    match terminal.record with
    | .aborted .. => newTerminal S rid terminal.record
    | _ => throw (.invalid "direct abort requires Aborted")

/-- Queue a repository storage change for delivery as a new terminal row. -/
def storageChanged (rid : Bytes) (terminal : Terminal S) : OutboxBuilder → OutboxBuilder :=
  remember do
    match terminal.record with
    | .repoStorageChanged .. => newTerminal S rid terminal.record
    | _ => throw (.invalid "storage change requires its row")

/-! ### Relay rows -/

/-- Stamp relay rows and schedule their immediate source-side kick. -/
def relayAt (nowMs : UInt64) (b : OutboxBuilder) : OutboxBuilder :=
  { b with relayAtMs := some nowMs }

/-- The operations planned for a target. -/
def group (b : OutboxBuilder) (target : Partition) : SortedMap Key (Option Value) :=
  (b.relays.get target).getD .empty

/-- Plan one operation for a target. -/
def putGroup (target : Partition) (k : Key) (op : Option Value) : Build Unit := do
  let b ← get
  set { b with relays := b.relays.insert target ((b.group target).insert k op) }

/-- Group idempotent upserts by target. Conflicting values for one target and key invalidate the
whole fragment. -/
def relay (target : Partition) (puts : List (Key × Value)) : OutboxBuilder → OutboxBuilder :=
  remember do
    let _ ← liftM target.encode
    let b ← get
    set { b with relays := b.relays.insert target (b.group target) }
    puts.forM fun p => do
      let b ← get
      if ((b.group target).get p.1).any (· != some p.2) then
        throw (.invalid "conflicting relay upserts")
      putGroup target p.1 (some p.2)

/-- Group idempotent deletes by target. A key cannot be both put and deleted in the same source
batch. -/
def relayDelete (target : Partition) (deletes : List Key) : OutboxBuilder → OutboxBuilder :=
  remember do
    let _ ← liftM target.encode
    let b ← get
    set { b with relays := b.relays.insert target (b.group target) }
    deletes.forM fun k => do
      let b ← get
      if ((b.group target).get k).any Option.isSome then
        throw (.invalid "relay put/delete overlap")
      putGroup target k none

/-- Write a relay row under the next sequence. -/
def pushRelay (row : RelayV1) : Build Unit := do
  let value ← liftM (encodeRelay S row)
  let _ ← liftM (decodeRelay S value)
  let seq ← allocate
  pushWrite (.put (keys.relay seq) value)

/-- Does one more operation overflow the row? -/
def rowFull (row : RelayV1) (encodedBytes addition : ℕ) : Bool :=
  row.puts.length + row.deletes.length == MAX_RELAY_PUTS ||
    MAX_VALUE_BYTES < encodedBytes + addition ||
    MAX_BATCH_BYTES < encodedBytes + addition + 2 * (MAX_KEY_BYTES + 8)

/-- Spread upserts over rows; the last row stays open. -/
def planPuts (baseBytes : ℕ) (row : RelayV1) (encodedBytes : ℕ) :
    List (Key × Value) → Build (RelayV1 × ℕ)
  | [] => pure (row, encodedBytes)
  | (k, v) :: rest => do
    -- Two hex strings, their quotes and brackets; a comma after the first.
    let bytes := 7 + 2 * (k.length + v.length)
    if MAX_KEY_BYTES < k.length || MAX_VALUE_BYTES < v.length ||
        MAX_VALUE_BYTES < baseBytes + bytes then
      throw (.invalid "relay upsert cannot fit one row")
    let addition := bytes + if row.puts.isEmpty then 0 else 1
    if rowFull row encodedBytes addition then do
      pushRelay S row
      planPuts baseBytes { row with puts := [(k, v)] } (baseBytes + bytes) rest
    else
      planPuts baseBytes { row with puts := row.puts ++ [(k, v)] } (encodedBytes + addition) rest

/-- Spread deletes over rows behind the upserts; the last row stays open. -/
def planDeletes (baseBytes : ℕ) (row : RelayV1) (encodedBytes : ℕ) : List Key → Build RelayV1
  | [] => pure row
  | k :: rest => do
    let bytes := 3 + 2 * k.length
    if MAX_KEY_BYTES < k.length ||
        MAX_VALUE_BYTES < baseBytes + RELAY_DELETE_FIELD_BYTES + bytes then
      throw (.invalid "relay delete cannot fit one row")
    let addition := bytes + if row.deletes.isEmpty then RELAY_DELETE_FIELD_BYTES else 1
    if rowFull row encodedBytes addition then do
      pushRelay S row
      planDeletes baseBytes { row with puts := [], deletes := [k] }
        (baseBytes + bytes + RELAY_DELETE_FIELD_BYTES) rest
    else
      planDeletes baseBytes { row with deletes := row.deletes ++ [k] } (encodedBytes + addition)
        rest

/-- Write the rows of one target. -/
def planRelayRows (target : Partition) (operations : SortedMap Key (Option Value)) :
    Build UInt64 := do
  let b ← get
  match b.relayAtMs with
  | none => throw (.invalid "relay rows need relay_at")
  | some atMs => do
    let row : RelayV1 := ⟨atMs, target, [], []⟩
    let base ← liftM (encodeRelay S row)
    let puts := operations.entries.filterMap fun p => p.2.map fun v => (p.1, v)
    let deletes := (operations.entries.filter fun p => p.2.isNone).map Prod.fst
    let (row, encodedBytes) ← planPuts S base.length row base.length puts
    let row ← planDeletes S base.length row encodedBytes deletes
    pushRelay S row
    pure atMs

/-! ### Finishing -/

/-- A key no guard and no write of the caller is about. -/
def requireUnplanned (k : Key) (plan : Plan) : Except StoreError Unit :=
  if (plan.pre.any fun p => p.key? == some k) || plan.writes.any fun w => w.key == k then
    .error (.invalid "outbox key already planned in batch")
  else .ok ()

/-- Write the rows of every target, returning when the last was stamped. -/
def planRelays (due : Option UInt64) :
    List (Partition × SortedMap Key (Option Value)) → Build (Option UInt64)
  | [] => pure due
  | (target, operations) :: rest => do
    if operations.entries.isEmpty then planRelays due rest
    else do
      let due ← planRelayRows S target operations
      planRelays (some due) rest

/-- Guard and write a row of the outbox, which the caller must have left alone, if it was
touched. -/
def planRow (touched : Bool) (plan : Plan) (k : Key) (prior : Option Value) (value : Value) :
    Build Unit :=
  if touched then do
    liftM (requireUnplanned k plan)
    pushPre (guardOf k prior)
    pushWrite (.put k value)
  else pure ()

/-- Schedule a timer of a kind, if one is due. -/
def kick (kind : UInt8) : Option UInt64 → Build Unit
  | some due => pushWrite (.put (keys.timer due kind []) [])
  | none => pure ()

/-- The fragment of a finished builder. -/
def assemble (plan : Plan) : Build Batch := do
  let b ← get
  match b.error with
  | some error => throw error
  | none => pure ()
  b.reservations.elems.forM fun rid => do
    let k ← liftM (keys.reservation rid)
    liftM (requireUnplanned k plan)
  let due ← planRelays S none b.relays.entries
  kick RELAY due
  let b ← get
  planRow b.sequenceTouched plan keys.outboxSequence b.os (encodeU64 b.seq)
  planRow b.backlogTouched plan keys.outcomeBacklog b.oc (encodeBacklog S b.backlog)
  kick OUTCOME_DELIVERY b.kickAtMs
  let b ← get
  let batch : Batch := ⟨b.pre, b.writes⟩
  liftM (batch.validate .full)
  pure batch

/-- Finish with error reporting. -/
def tryFinish (b : OutboxBuilder) : Planning Unit := do
  let plan ← get
  let batch ← liftM (exec (assemble S plan) b).1
  set (Plan.mk (plan.pre ++ batch.preconditions) (plan.writes ++ batch.writes))

/-- Finish the fixed fragment API; malformed input makes the caller's complete batch
uncommittable. -/
def finish (b : OutboxBuilder) (plan : Plan) : Plan :=
  match exec (tryFinish S b) plan with
  | (.ok (), plan') => plan'
  | (.error _, plan') =>
    { plan' with
      pre := plan'.pre ++ [.absent keys.outboxSequence, .present keys.outboxSequence] }

end OutboxBuilder

/-! ### Acknowledging -/

/-- The index of the last element that satisfies `p`. -/
def rposition {α : Type} (p : α → Bool) : List α → Option ℕ
  | [] => none
  | a :: l =>
    match rposition p l with
    | some i => some (i + 1)
    | none => if p a then some 0 else none

/-- The backlog a batch leaves so far: what its last write says, or what was observed. -/
def plannedBacklog (S : Serde) (observed : Backlog) : Option Write → Except StoreError Backlog
  | some (.put _ value) => decodeBacklog S value
  | some (.delete _) => .ok .zero
  | some (.increment _) => .error (.invalid "backlog has an unresolved increment")
  | none => .ok observed

/-- Take one row of the given size off a backlog. -/
def discount (backlog : Backlog) (size : UInt64) : Except StoreError Backlog :=
  match Words.checkedSub backlog.rows 1 with
  | none => .error (.corrupt "backlog rows underflow")
  | some rows =>
    match Words.checkedSub backlog.bytes size with
    | none => .error (.corrupt "backlog bytes underflow")
    | some bytes =>
      if (rows == 0) != (bytes == 0) then .error (.corrupt "inconsistent outcome backlog")
      else .ok ⟨rows, bytes⟩

/-- The write that leaves a backlog: an empty one leaves no row. -/
def backlogWrite (S : Serde) (backlog : Backlog) : Write :=
  if backlog.rows == 0 then .delete keys.outcomeBacklog
  else .put keys.outcomeBacklog (encodeBacklog S backlog)

/-- The backlog that was read; it must be there. -/
def observedBacklog (S : Serde) : Option Value → Except StoreError Backlog
  | some value => decodeBacklog S value
  | none => .error (.corrupt "missing outcome backlog")

/-- Acknowledge exactly this terminal row and pending index. Counting the raw stored bytes makes
the decrement independent of codec re-encoding. -/
def planAck (S : Serde) (rid : Bytes) (value : Value) (oqSeq : UInt64) (oc : Option Value) :
    Planning Unit := do
  if oqSeq == 0 then throw (.corrupt "ack requires a terminal indexed outcome")
  let record ← liftM (decodeReservation S value)
  if !record.isTerminal then throw (.corrupt "ack requires a terminal indexed outcome")
  let k ← liftM (keys.reservation rid)
  let index ← liftM (keys.outcomePending oqSeq rid)
  let plan ← get
  if plan.writes.any fun w => w.key == k then
    throw (.invalid "outcome already planned in batch")
  let observed ← liftM (observedBacklog S oc)
  let expected := guardOf keys.outcomeBacklog oc
  let existing := plan.pre.find? fun p => p.key? == some keys.outcomeBacklog
  if existing.any (· != expected) then throw (.invalid "inconsistent backlog snapshots")
  let position := rposition (fun w => w.key == keys.outcomeBacklog) plan.writes
  let backlog ← liftM (plannedBacklog S observed (position.bind fun i => plan.writes[i]?))
  let backlog ← liftM (discount backlog (UInt64.ofNat (k.length + value.length)))
  let pre := plan.pre ++ [.equals k value, .equals index []]
  let writes := plan.writes ++ [.delete k, .delete index]
  set (Plan.mk (if existing.isNone then pre ++ [expected] else pre)
    (match position with
      | some i => writes.set i (backlogWrite S backlog)
      | none => writes ++ [backlogWrite S backlog]))

end Mkit.Server
