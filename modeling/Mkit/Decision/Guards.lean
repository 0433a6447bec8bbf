import Mkit.Evidence

/-!
# Observed Facts and Atomic Guards

A decision primitive reads facts a host acquired — each at an exact revision, present or
authoritatively absent — and returns a decision together with the guards under which it may
be applied: the comparisons the host repeats, atomically, before it commits. `guardsHold` is
the reference comparison against the guards of freshly acquired facts. It is exact equality,
guard by guard, and a live view that contradicts itself holds nothing.
-/

namespace Mkit.Decision

/-! ### Facts -/

/-- A logical namespace. -/
abbrev NamespaceId := Hash

/-- A logical operation. -/
abbrev OperationId := Hash

/-- A logical upload ticket. -/
abbrev TicketId := Hash

/-- A logical reservation. -/
abbrev ReservationId := Hash

/-- An authenticated replay scope. -/
abbrev ReplayScope := Hash

/-- A validated served ref name. -/
abbrev RefName := Bytes

/-- An authoritative observation; a fact that was not acquired is an outer `none`. -/
inductive Observed (α : Type) where
  | absent (revision : Revision)
  | present (value : α) (revision : Revision)
deriving DecidableEq

/-- `matches!(observed, Observed::Present { .. })`. -/
def Observed.isPresent {α : Type} : Observed α → Bool
  | .absent _ => false
  | .present _ _ => true

/-- The authorization mode of a namespace. -/
inductive AuthorityMode where
  | selfCertifying
  | authority
deriving DecidableEq

/-- A commit-fenced authority observation. -/
structure AuthorityFact where
  namespaceId : NamespaceId
  mode : AuthorityMode
  generation : Revision
  ready : Bool
deriving DecidableEq

/-- A scoped authorization grant. -/
structure GrantFact where
  namespaceId : NamespaceId
  grant : Hash
  epoch : Revision
  presence : Option Bool
deriving DecidableEq

/-- The lifecycle of a repository. -/
inductive LifecycleState where
  | active
  | deleting
  | deleted
deriving DecidableEq

/-- The incarnation and lifecycle of a repository. -/
structure LifecycleFact where
  incarnation : Revision
  state : LifecycleState
deriving DecidableEq

/-- The complete captured publication state. -/
structure PublicationFact where
  generation : Revision
  sequence : UInt64
  publishedPrefix : UInt64
  deletionBoundary : UInt64
  head : Option Hash
  packmap : Option Hash
deriving DecidableEq

/-- Applicable denial and inspection observations. -/
structure DenialFact where
  objects : List Hash
  packs : List Hash
  held : List Hash
deriving DecidableEq

/-- The applicable ref policy. -/
structure PolicyFact where
  allowedSigners : List Hash
  fastForward : Bool
  revision : Revision
deriving DecidableEq

/-- A presence change committed by admission. -/
structure PresenceDelta where
  name : RefName
  before : Bool
  after : Bool
deriving DecidableEq

/-- An admission bound to exact proposed effects. -/
structure AdmissionFact where
  operation : OperationId
  effects : Hash
  presence : List PresenceDelta
  reservation : Option ReservationId
deriving DecidableEq

/-- Exact charge-window counters and ceilings. -/
structure AccountingFact where
  scope : Hash
  window : Revision
  bytes : UInt64
  byteLimit : UInt64
  operations : UInt64
  operationLimit : UInt64
deriving DecidableEq

/-- An exact upload ticket binding. -/
structure TicketFact where
  ticket : TicketId
  repository : RepositoryId
  name : RefName
  signer : Hash
  pack : PackSource
  partBytes : UInt64
  createdMs : UInt64
  expiresMs : UInt64
  reservation : ReservationId
  authorityGeneration : Option Revision
  uploadSession : Option Bytes
deriving DecidableEq

/-- The stored-bytes counter of a repository. -/
structure StorageFact where
  storedBytes : UInt64
  version : UInt64
deriving DecidableEq

/-- The terminal refusal classes permitted for durable replay. -/
inductive PermanentCode where
  | invalidArgument
  | notFound
  | alreadyExists
  | permissionDenied
  | failedPrecondition
  | outOfRange
  | unimplemented
deriving DecidableEq

/-- A replayable refusal with its exact public message. -/
structure PermanentRefusal where
  code : PermanentCode
  publicMessage : Bytes
deriving DecidableEq

/-- A normalized ref response component. -/
structure RefValue where
  name : RefName
  value : Option Hash
deriving DecidableEq

/-- A durable terminal result. -/
inductive TerminalResult where
  | applied (refs : List RefValue)
  | conflict (refs : List RefValue)
  | rejected (refusal : PermanentRefusal)
deriving DecidableEq

/-- The durable replay state of an operation. -/
inductive ReplayState where
  | inFlight (resumable : Bool)
  | committed (result : TerminalResult)
deriving DecidableEq

/-- A replay record bound to an authenticated fingerprint. -/
structure ReplayFact where
  scope : ReplayScope
  fingerprint : Hash
  expiresMs : UInt64
  state : ReplayState
deriving DecidableEq

/-- Why a reservation was aborted. -/
inductive ReservationAbortReason where
  | unspecified
  | refConflict
  | epochMismatch
  | packMissing
  | replayRace
  | internal
  | abandoned
deriving DecidableEq

/-- The accounting observations of a committed reservation. -/
structure ReservationAccounting where
  bytesStored : UInt64
  newToRepository : UInt64
  newToStore : UInt64
deriving DecidableEq

/-- The terminal payload of a reservation. -/
inductive ReservationTerminalKind where
  | committed (refs : List RefValue) (accounting : ReservationAccounting)
  | aborted (reason : ReservationAbortReason) (detail : Bytes)
  | expired
  | storageChanged (storedBytes version : UInt64)
deriving DecidableEq

/-- The exact terminal state of a reservation. -/
structure ReservationTerminal where
  repository : RepositoryId
  occurredMs : UInt64
  kind : ReservationTerminalKind
deriving DecidableEq

/-- Write or read admission semantics of a pending reservation. -/
inductive ReservationOp where
  | write
  | read
deriving DecidableEq

/-- The lifecycle of a reservation. -/
inductive ReservationFact where
  | pending (repository : RepositoryId) (createdMs reconcileMs : UInt64) (op : ReservationOp)
  | ticketed (ticket : TicketId)
  | terminal (state : ReservationTerminal)
deriving DecidableEq

/-! ### Guards -/

/-- The fork and clearance rows that have no typed guard of their own. -/
inductive GuardRow where
  | forkRequest
  | forkJob
  | forkEmptiness
  | forkName
  | forkPermission
  | forkAdmission
  | forkQuota
  | forkReservation
  | forkReplay
  | forkApply
  | forkProgress
  | forkRecordedAuthority
  | forkAuthority
  | forkRecordedEpoch
  | forkEpoch
  | forkReservationRecorded (id : ReservationId)
  | forkReservationCurrent (id : ReservationId)
  | forkLifecycleProfile
  | forkAccepted
  | forkUnit (pack : Hash)
  | forkProof (pack : Hash)
  | forkDenial (pack : Hash)
  | forkCompletion
  | clearancePrior
  | clearanceChanged (sequence : UInt64)
  | clearanceSuffix (sequence : UInt64)
  | clearanceWitness (object : Hash)
  | clearanceLifecycleProfile
deriving DecidableEq

/-- Every mutable fact used to choose a result or an effect, as the comparison that must hold
when the effect is applied. -/
inductive RequiredGuard where
  | refValue (repository : RepositoryId) (name : RefName) (expected : Observed Hash)
  | refPresence (repository : RepositoryId) (name : RefName) (present : Bool)
  | replay (scope : ReplayScope) (expected : Observed ReplayFact)
  | ticket (id : TicketId) (expected : Observed TicketFact)
  | reservation (id : ReservationId) (expected : Observed ReservationFact)
  | authority (namespaceId : NamespaceId) (expected : Observed AuthorityFact)
  | grant (namespaceId : NamespaceId) (expected : Observed GrantFact)
  | repository (id : RepositoryId) (expected : Observed LifecycleFact)
  | membership (repository : RepositoryId) (object : Hash) (expected : Observed MemberFact)
  | denial (repository : RepositoryId) (expected : Observed DenialFact)
  | policy (repository : RepositoryId) (expected : Observed PolicyFact)
  | admission (operation : OperationId) (expected : Observed AdmissionFact)
  | accounting (repository : RepositoryId) (expected : Observed AccountingFact)
  | storage (repository : RepositoryId) (expected : Observed StorageFact)
  | publication (repository : RepositoryId) (expected : Observed PublicationFact)
  | validThrough (instantMs : UInt64)
  | membershipWitness (repository : RepositoryId) (generation removalVersion : UInt64)
  | denialVersion (version : UInt64)
  | dependencyPublication (repository : RepositoryId) (object supplier : Hash)
      (published held : Bool)
  | binding (digest : Hash)
  | row (repository : RepositoryId) (row : GuardRow) (expected : Observed Hash)
deriving DecidableEq

/-- A decision with its complete atomic requirements. The source fences, which are compared
before the apply and not in it, belong to fork acceptance and are empty elsewhere. -/
structure Guarded (D : Type) where
  repository : RepositoryId
  decision : D
  required : List RequiredGuard
deriving DecidableEq

/-- Whether two guards constrain the same identity. -/
def sameIdentity : RequiredGuard → RequiredGuard → Bool
  | .refValue a x _, .refValue b y _ | .refPresence a x _, .refPresence b y _ => a = b ∧ x = y
  | .replay a _, .replay b _ => a = b
  | .ticket a _, .ticket b _ => a = b
  | .reservation a _, .reservation b _ => a = b
  | .authority a _, .authority b _ | .grant a _, .grant b _ => a = b
  | .membership a x _, .membership b y _ => a = b ∧ x = y
  | .dependencyPublication a x _ _ _, .dependencyPublication b y _ _ _ => a = b ∧ x = y
  | .repository a _, .repository b _
  | .denial a _, .denial b _
  | .policy a _, .policy b _
  | .accounting a _, .accounting b _
  | .storage a _, .storage b _
  | .publication a _, .publication b _
  | .membershipWitness a _ _, .membershipWitness b _ _ => a = b
  | .admission a _, .admission b _ => a = b
  | .row a x _, .row b y _ => a = b ∧ x = y
  | .denialVersion _, .denialVersion _ => true
  | .binding a, .binding b => a = b
  | _, _ => false

/-- A value and a presence of one ref agree when the presence is the value's. -/
def presenceAgrees (expected : Observed Hash) (present : Bool) : Bool :=
  expected.isPresent == present

/-- Two guards that no state contradicts. -/
def compatible (left right : RequiredGuard) : Bool :=
  let byIdentity := if sameIdentity left right then decide (left = right) else true
  match left, right with
  | .refValue a x expected, .refPresence b y present
  | .refPresence b y present, .refValue a x expected =>
    if a = b ∧ x = y then presenceAgrees expected present else byIdentity
  | _, _ => byIdentity

/-- Every guard is compatible with the ones before it. -/
def consistent : List RequiredGuard → List RequiredGuard → Bool
  | _, [] => true
  | before, guard :: rest =>
    before.all (compatible · guard) && consistent (before ++ [guard]) rest

/-- The reference comparison of a decision's guards with the live guards a host derives from
its current facts. -/
def guardsHold {D : Type} (guarded : Guarded D) (live : List RequiredGuard) (nowMs : UInt64) :
    Bool :=
  consistent [] live && guarded.required.all fun
    | .validThrough instantMs => decide (nowMs ≤ instantMs)
    | guard => live.contains guard

/-- Guards that hold are found among the live ones, the validity bounds apart. -/
theorem mem_live_of_guardsHold {D : Type} {guarded : Guarded D} {live : List RequiredGuard}
    {nowMs : UInt64} (h : guardsHold guarded live nowMs = true) {guard : RequiredGuard}
    (hg : guard ∈ guarded.required) (hkind : ∀ t, guard ≠ .validThrough t) : guard ∈ live := by
  rw [guardsHold, Bool.and_eq_true, List.all_eq_true] at h
  have hguard := h.2 guard hg
  cases guard with
  | validThrough t => exact absurd rfl (hkind t)
  | _ => exact List.contains_iff_mem.1 hguard

end Mkit.Decision
