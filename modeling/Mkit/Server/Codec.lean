import Mathlib.Computability.Encoding
import Mkit.Server.Kv

/-!
# Stored Values

The structured values of the outbox, the relay and the stored-bytes counter, with the checks
their decoders make. Structured values are a version byte and JSON; the JSON library itself is a
parameter (`Serde`), of which only that it reads back what it wrote is used.
-/

namespace Mkit.Server

open Computability (Encoding)

/-- The hooks protocol's terminal abort reasons. -/
inductive AbortReason where
  | unspecified
  | refConflict
  | epochMismatch
  | packMissing
  | replayRace
  | internal
  | abandoned
deriving DecidableEq

/-- The operation a pending reservation will settle. -/
inductive PendingOp where
  /-- A directly admitted write or `BeginUpload`. -/
  | write
  /-- An admitted HTTP read. -/
  | read
deriving DecidableEq

/-- The visibility a stored visibility change set. -/
inductive StoredVisibility where
  | «public»
  | «private»
deriving DecidableEq

/-- The operation a reservation or outcome belongs to. -/
inductive StoredProcedure where
  | updateRef
  | advanceRefs
  | beginUpload
  | uploadPack
  | setRepoVisibility (visibility : StoredVisibility)
  | httpGetObject
  | httpGetRefPath
  | fork
deriving DecidableEq

/-- A ref changed by a committed reservation. -/
structure OutcomeRef where
  name : Str
  new : Option Hash
  deleted : Bool
deriving DecidableEq

/-- The one durable reservation arbiter. -/
inductive ReservationV1 where
  /-- Admission's durable pre-apply arbiter. -/
  | pending (repository : Str) (createdAtMs reconcileAtMs : UInt64) (op : PendingOp)
      (procedure : StoredProcedure)
  /-- Successful `BeginUpload`, awaiting ticket consumption or expiry. -/
  | ticketed (ticketId : Hash)
  /-- A committed apply. -/
  | committed (repository : Str) (occurredAtMs bytesStored newToRepo newToStore : UInt64)
      (refs : List OutcomeRef) (procedure : StoredProcedure)
  /-- Failed apply or abandoned pending reservation. -/
  | aborted (repository : Str) (occurredAtMs : UInt64) (reason : AbortReason) (detail : Str)
      (procedure : StoredProcedure)
  /-- An unconsumed ticket expired. -/
  | expired (repository : Str) (occurredAtMs : UInt64)
  /-- An admitted HTTP read. -/
  | readServed (repository : Str) (occurredAtMs : UInt64) (object : Hash) (bytesServed : UInt64)
      (procedure : StoredProcedure)
  /-- A repository's stored-bytes counter changed. -/
  | repoStorageChanged (repository : Str) (occurredAtMs storedBytes version : UInt64)
deriving DecidableEq

/-- Neither ticketed nor pending. -/
def ReservationV1.isTerminal : ReservationV1 → Bool
  | .ticketed .. | .pending .. => false
  | _ => true

/-- Terminal outcome backlog. Relay rows are excluded. -/
structure Backlog where
  /-- Number of terminal outcome rows. -/
  rows : UInt64
  /-- Sum of terminal outcome key lengths plus encoded value lengths. -/
  bytes : UInt64
deriving DecidableEq

/-- No outcome is waiting. -/
def Backlog.zero : Backlog := ⟨0, 0⟩

/-- An idempotent relay of upserts and deletes to one partition. -/
structure RelayV1 where
  atMs : UInt64
  target : Partition
  puts : List (Key × Value)
  deletes : List Key

/-- What is stored of a relay row: byte strings in hex. -/
structure RelayDtoV1 where
  atMs : UInt64
  target : Bytes
  puts : List (Bytes × Bytes)
  deletes : List Bytes
deriving DecidableEq

/-- A repository's pack-byte total and its monotonic change counter. -/
structure RepoStorageV1 where
  /-- Sum of the sizes of the distinct packs that are members of the repository. -/
  storedBytes : UInt64
  /-- Increments on every counter change. -/
  version : UInt64
deriving DecidableEq

/-- What is stored of the scan progress: the targets in hex. -/
structure RelayScanDtoV1 where
  cycleEnd : UInt64
  cursor : UInt64
  blocked : List Bytes
deriving DecidableEq

/-- The JSON library: how it writes and reads the records that are stored as JSON. -/
structure Serde where
  reservation : Encoding ReservationV1 UInt8
  backlog : Encoding Backlog UInt8
  relay : Encoding RelayDtoV1 UInt8
  relayScan : Encoding RelayScanDtoV1 UInt8

/-- Version byte of every structured value. -/
def CODEC_V1 : UInt8 := 0x01

def encodeJson {T : Type} (json : Encoding T UInt8) (value : T) : Value :=
  CODEC_V1 :: json.encode value

def decodeJson {T : Type} (json : Encoding T UInt8) (value : Value) (what : String) :
    Except StoreError T :=
  match value with
  | version :: body =>
    if version = CODEC_V1 then
      match json.decode body with
      | some t => .ok t
      | none => .error (.corrupt what)
    else .error (.corrupt "unknown codec version")
  | [] => .error (.corrupt "unknown codec version")

@[simp] theorem decodeJson_encodeJson {T : Type} (json : Encoding T UInt8) (t : T)
    (what : String) : decodeJson json (encodeJson json t) what = .ok t := by
  simp [decodeJson, encodeJson]

def checkValueLimit (value : Value) : Except StoreError Unit :=
  if MAX_VALUE_BYTES < value.length then .error (.corrupt "value exceeds MAX_VALUE_BYTES")
  else .ok ()

/-! ### Integers and counters -/

/-- A be64 integer. -/
def encodeU64 (n : UInt64) : Value :=
  keys.be64 n

/-- Decode a be64 integer. -/
def decodeU64 (value : Value) : Except StoreError UInt64 :=
  if value.length = 8 then .ok (UInt64.ofNat (Wire.ofLeBytes value.reverse))
  else .error (.corrupt "integer is not 8 bytes")

/-- Fixed 16-byte encoding: big-endian total, then version. -/
def encodeRepoStorage (value : RepoStorageV1) : Value :=
  keys.be64 value.storedBytes ++ keys.be64 value.version

/-- Refuse any value that is not exactly 16 bytes. -/
def decodeRepoStorage (value : Value) : Except StoreError RepoStorageV1 :=
  if value.length = 16 then
    .ok ⟨UInt64.ofNat (Wire.ofLeBytes (value.take 8).reverse),
      UInt64.ofNat (Wire.ofLeBytes (value.drop 8).reverse)⟩
  else .error (.corrupt "bad repository storage counter")

theorem ofNat_ofLeBytes_be64 (n : UInt64) :
    UInt64.ofNat (Wire.ofLeBytes (keys.be64 n).reverse) = n := by
  have hlt := n.toNat_lt
  rw [keys.be64, Wire.beBytes, List.reverse_reverse, Wire.ofLeBytes_leBytes, Nat.mod_eq_of_lt]
  · exact UInt64.ofNat_toNat
  · omega

@[simp] theorem decodeU64_encodeU64 (n : UInt64) : decodeU64 (encodeU64 n) = .ok n := by
  rw [decodeU64, encodeU64, if_pos (keys.length_be64 n), ofNat_ofLeBytes_be64]

/-- A be64 integer has one encoding. -/
theorem encodeU64_of_decodeU64 {v : Value} {n : UInt64} (h : decodeU64 v = .ok n) :
    v = encodeU64 n := by
  rw [decodeU64] at h
  split at h
  case isTrue hlen =>
    obtain rfl := Except.ok.inj h
    have hlt := Wire.ofLeBytes_lt v.reverse
    rw [List.length_reverse, hlen] at hlt
    rw [encodeU64, keys.be64, UInt64.toNat_ofNat', Nat.mod_eq_of_lt (by omega), Wire.beBytes,
      eq_comm, List.reverse_eq_iff]
    have hrev := Wire.leBytes_ofLeBytes v.reverse
    rwa [List.length_reverse, hlen] at hrev
  case isFalse => cases h

@[simp] theorem decodeRepoStorage_encodeRepoStorage (value : RepoStorageV1) :
    decodeRepoStorage (encodeRepoStorage value) = .ok value := by
  rw [decodeRepoStorage, encodeRepoStorage, if_pos (by simp),
    List.take_left' (keys.length_be64 _), List.drop_left' (keys.length_be64 _),
    ofNat_ofLeBytes_be64, ofNat_ofLeBytes_be64]

/-! ### Reservations and their backlog -/

/-- Encode a pending, ticket-backed, or terminal reservation. -/
def encodeReservation (S : Serde) (reservation : ReservationV1) : Value :=
  encodeJson S.reservation reservation

/-- The repository of an outcome must be an identity. -/
def checkOutcomeRepository (repository : Str) : Except StoreError Unit :=
  match RepositoryIdentity.parseStoredBareAllowed repository.bytes with
  | .ok _ => .ok ()
  | .error _ => .error (.corrupt "bad outcome repository")

/-- What the decoder checks of a reservation. -/
def checkReservation : ReservationV1 → Except StoreError Unit
  | .ticketed _ => .ok ()
  | .pending repository createdAtMs reconcileAtMs _ _ => do
    if reconcileAtMs < createdAtMs then throw (.corrupt "invalid pending deadline")
    checkOutcomeRepository repository
  | .committed repository _ _ _ _ refs _ => do
    if refs.any fun r => !isServedRefName r.name.bytes || r.deleted != r.new.isNone then
      throw (.corrupt "invalid outcome ref")
    checkOutcomeRepository repository
  | .aborted repository _ _ detail _ => do
    if 512 < detail.bytes.length then throw (.corrupt "outcome detail exceeds 512 bytes")
    checkOutcomeRepository repository
  | .expired repository _ | .readServed repository .. | .repoStorageChanged repository .. =>
    checkOutcomeRepository repository

/-- Decode a reservation; malformed outcomes fail closed. -/
def decodeReservation (S : Serde) (value : Value) : Except StoreError ReservationV1 := do
  checkValueLimit value
  let reservation ← decodeJson S.reservation value "bad reservation"
  checkReservation reservation
  pure reservation

/-- Encode the terminal outcome backlog. -/
def encodeBacklog (S : Serde) (backlog : Backlog) : Value :=
  encodeJson S.backlog backlog

/-- Decode the terminal outcome backlog. -/
def decodeBacklog (S : Serde) (value : Value) : Except StoreError Backlog := do
  checkValueLimit value
  let backlog ← decodeJson S.backlog value "bad outcome backlog"
  if (backlog.rows == 0) != (backlog.bytes == 0) then
    throw (.corrupt "inconsistent outcome backlog")
  pure backlog

/-- A value that decodes at all after it was written decodes to what was written. -/
theorem decodeReservation_encodeReservation {S : Serde} {r r' : ReservationV1}
    (h : decodeReservation S (encodeReservation S r) = .ok r') : r' = r := by
  obtain ⟨-, -, h⟩ := Wire.bind_eq_ok.1 h
  obtain ⟨t, ht, h⟩ := Wire.bind_eq_ok.1 h
  obtain ⟨-, -, h⟩ := Wire.bind_eq_ok.1 h
  rw [encodeReservation, decodeJson_encodeJson] at ht
  rw [← Except.ok.inj h, ← Except.ok.inj ht]

theorem decodeBacklog_encodeBacklog {S : Serde} {b b' : Backlog}
    (h : decodeBacklog S (encodeBacklog S b) = .ok b') : b' = b := by
  obtain ⟨-, -, h⟩ := Wire.bind_eq_ok.1 h
  obtain ⟨t, ht, h⟩ := Wire.bind_eq_ok.1 h
  rw [encodeBacklog, decodeJson_encodeJson] at ht
  obtain rfl := Except.ok.inj ht
  split at h
  · cases h
  · exact (Except.ok.inj h).symm

/-! ### Relay rows -/

/-- Lowercase hex of a byte string. -/
def toHexBytes (bytes : Bytes) : Bytes :=
  bytes.flatMap hexByte

/-- Decode lowercase hex. -/
def hexBytes (hex : Bytes) : Except StoreError Bytes :=
  match joinNibbles lowercaseNibble hex with
  | some bytes => .ok bytes
  | none => .error (.corrupt "bad hex bytes")

/-- Are the delete keys short, distinct and no key of a put? -/
def deletesOk (puts : List (Key × Value)) (deletes : List Key) : Bool :=
  (deletes.all fun k => k.length ≤ MAX_KEY_BYTES && !(puts.any fun p => p.1 == k)) &&
    decide deletes.Nodup

/-- Encode idempotent relay operations. A malformed target is invalid. -/
def encodeRelay (S : Serde) (relay : RelayV1) : Except StoreError Value := do
  if !deletesOk relay.puts relay.deletes then throw (.invalid "invalid relay delete key")
  let target ← relay.target.encode
  let value := encodeJson S.relay
    { atMs := relay.atMs
      target := toHexBytes target
      puts := relay.puts.map fun p => (toHexBytes p.1, toHexBytes p.2)
      deletes := relay.deletes.map toHexBytes }
  if MAX_VALUE_BYTES < value.length then throw (.invalid "relay exceeds MAX_VALUE_BYTES")
  if relay.puts.any fun p => MAX_KEY_BYTES < p.1.length || MAX_VALUE_BYTES < p.2.length then
    throw (.invalid "invalid relay upsert size")
  pure value

/-- Decode one upsert of a relay row. -/
def decodePut (p : Bytes × Bytes) : Except StoreError (Key × Value) := do
  let k ← hexBytes p.1
  let v ← hexBytes p.2
  if MAX_KEY_BYTES < k.length || MAX_VALUE_BYTES < v.length then
    throw (.corrupt "invalid relay upsert size")
  pure (k, v)

/-- Decode the deletes of a relay row behind those already decoded. -/
def decodeDeletes (puts : List (Key × Value)) (seen : List Key) :
    List Bytes → Except StoreError (List Key)
  | [] => .ok seen
  | encoded :: rest => do
    let k ← hexBytes encoded
    if MAX_KEY_BYTES < k.length || (puts.any fun p => p.1 == k) || seen.contains k then
      throw (.corrupt "invalid relay delete key")
    decodeDeletes puts (seen ++ [k]) rest

/-- Decode a relay target and its bounded idempotent operations. -/
def decodeRelay (S : Serde) (value : Value) : Except StoreError RelayV1 := do
  checkValueLimit value
  let dto ← decodeJson S.relay value "bad relay"
  let target ← hexBytes dto.target
  let target ← Partition.decode target
  let puts ← dto.puts.mapM decodePut
  let deletes ← decodeDeletes puts [] dto.deletes
  pure ⟨dto.atMs, target, puts, deletes⟩

end Mkit.Server
