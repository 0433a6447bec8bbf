import Mkit.Decision.Guards
import Mkit.Refs

/-!
# Ref Write Requests and Snapshots

The bounded input of a ref decision: the request, the facts a host acquired for it, and the
finite ceilings both are checked against before anything is decided. `guardsMatch` is the
reference comparison of a decision's guards with the facts of the moment.
-/

namespace Mkit.Decision

/-! ### Requests -/

/-- The shape and decision order of a ref operation. -/
inductive RefWriteKind where
  | update
  | advance
  | delete
  | deletePair
deriving DecidableEq

/-- One ref change; a missing target denotes deletion. -/
structure RefChange where
  name : RefName
  condition : RefWriteCondition
  target : Option Hash
deriving DecidableEq

/-- The original commit-fenced authorization. -/
structure AuthorityBinding where
  namespaceId : NamespaceId
  mode : AuthorityMode
  generation : Revision
deriving DecidableEq

/-- The original scoped grant identity and epoch. -/
structure GrantBinding where
  namespaceId : NamespaceId
  grant : Hash
  epoch : Revision
deriving DecidableEq

/-- The exact ref proposal seen by custom admission. -/
structure AdmittedRef where
  name : RefName
  target : Option Hash
  priorPresent : Bool
deriving DecidableEq

/-- The original custom admission binding. -/
structure AdmissionBinding where
  effects : Hash
deriving DecidableEq

/-- Ancestry acquisition distinguishes a final denial from membership lag. -/
inductive AncestryResult where
  | descendant
  | denied
  | membershipLag
deriving DecidableEq

/-- Repository-local immutable ancestry evidence. -/
structure AncestryFact where
  repository : RepositoryId
  name : RefName
  source : Hash
  target : Hash
  result : AncestryResult
deriving DecidableEq

/-- Which deployment policy applies to the head of the operation. -/
structure PolicyRequirement where
  signerRestricted : Bool
  grantFastForward : Bool
deriving DecidableEq

/-- The replay identity authenticated at ingress. -/
structure RefReplay where
  scope : ReplayScope
  fingerprint : Hash
  expiresMs : UInt64
deriving DecidableEq

/-- The membership visibility classification of the original request. -/
inductive MembershipWindow where
  | withinLag
  | elapsed
deriving DecidableEq

/-- The pre-apply fence on a published source. -/
structure PublishedSourceFence where
  repository : RepositoryId
  name : RefName
  publication : Observed PublicationFact
  readAuthority : Observed AuthorityFact
deriving DecidableEq

/-- The applicable mutable categories. -/
structure RefRequirements where
  authority : Option AuthorityBinding
  grant : Option GrantBinding
  incarnation : Option Revision
  policy : Option PolicyRequirement
  admission : Option AdmissionBinding
  members : List Hash
  indexedHead : Bool
  membershipWindow : MembershipWindow
  denial : Bool
  publication : Bool
  source : Option PublishedSourceFence
  validThroughMs : Option UInt64
deriving DecidableEq

/-- The bounded input to a ref decision. -/
structure RefWriteRequest where
  repository : RepositoryId
  operation : Option OperationId
  kind : RefWriteKind
  changes : List RefChange
  admitted : List AdmittedRef
  presence : Option (RefName × Bool)
  signer : Option Hash
  replay : Option RefReplay
  required : RefRequirements
  ancestry : List AncestryFact
  nowMs : UInt64
deriving DecidableEq

/-- Explicit finite execution ceilings. -/
structure RefDecisionLimits where
  facts : UInt32
  guards : UInt32
  bytes : UInt64
  work : UInt64
  publicMessageBytes : UInt32
deriving DecidableEq

/-! ### Snapshots -/

/-- The observation of one member. -/
structure MembershipObservation where
  object : Hash
  observed : Observed MemberFact
deriving DecidableEq

/-- The facts acquired for one decision; what was not acquired is left out. -/
structure Snapshot where
  repository : RepositoryId
  refs : List (RefName × Observed Hash)
  replay : Option (Observed ReplayFact)
  tickets : List (TicketId × Observed TicketFact)
  reservations : List (ReservationId × Observed ReservationFact)
  authority : Option (Observed AuthorityFact)
  grant : Option (Observed GrantFact)
  lifecycle : Option (Observed LifecycleFact)
  members : List MembershipObservation
  denial : Option (Observed DenialFact)
  policy : Option (Observed PolicyFact)
  admission : Option (Observed AdmissionFact)
  accounting : Option (Observed AccountingFact)
  storage : Option (Observed StorageFact)
  publication : Option (Observed PublicationFact)
  basis : List RequiredGuard
deriving DecidableEq

/-! ### Bounds -/

/-- The value of an observation that was acquired and is present. -/
def presentValue {α : Type} : Option (Observed α) → Option α
  | some (.present value _) => some value
  | _ => none

/-- The refs a terminal reservation row holds. -/
def terminalRefs : Observed ReservationFact → List RefValue
  | .present (.terminal ⟨_, _, .committed refs _⟩) _ => refs
  | _ => []

/-- The refs a recorded result holds. -/
def recordedRefs : Option (Observed ReplayFact) → List RefValue
  | some (.present ⟨_, _, _, .committed (.applied refs)⟩ _) => refs
  | some (.present ⟨_, _, _, .committed (.conflict refs)⟩ _) => refs
  | _ => []

/-- The number of acquired facts, those no decision uses included. Sums that overflow a machine
word are over every limit, so the model counts without overflow. -/
def factCount (request : RefWriteRequest) (snapshot : Snapshot) : ℕ :=
  snapshot.refs.length + snapshot.members.length + snapshot.tickets.length +
    snapshot.reservations.length + request.ancestry.length + request.required.members.length +
    request.changes.length + request.admitted.length +
    [snapshot.replay.isSome, snapshot.authority.isSome, snapshot.grant.isSome,
      snapshot.lifecycle.isSome, snapshot.denial.isSome, snapshot.policy.isSome,
      snapshot.admission.isSome, snapshot.accounting.isSome, snapshot.storage.isSome,
      snapshot.publication.isSome, request.required.source.isSome,
      request.presence.isSome].count true +
    (snapshot.reservations.map fun row => (terminalRefs row.2).length).sum +
    ((presentValue snapshot.policy).elim 0 fun policy => policy.allowedSigners.length) +
    ((presentValue snapshot.admission).elim 0 fun admission => admission.presence.length) +
    ((presentValue snapshot.denial).elim 0 fun denial =>
      denial.objects.length + denial.packs.length + denial.held.length) +
    (recordedRefs snapshot.replay).length

/-- The bytes of a terminal reservation row. -/
def terminalBytes : Observed ReservationFact → ℕ
  | .present (.terminal ⟨_, _, .committed refs _⟩) _ => (refs.map (·.name.length)).sum
  | .present (.terminal ⟨_, _, .aborted _ detail⟩) _ => detail.length
  | _ => 0

/-- The bytes of a ticket row. -/
def ticketBytes : Observed TicketFact → ℕ
  | .present value _ => value.name.length + (value.uploadSession.elim 0 List.length)
  | .absent _ => 0

/-- The public message of a recorded refusal. -/
def recordedMessage : Option (Observed ReplayFact) → Bytes
  | some (.present ⟨_, _, _, .committed (.rejected refusal)⟩ _) => refusal.publicMessage
  | _ => []

/-- The bytes of names, signer sets, denial sets and messages. -/
def inputBytes (request : RefWriteRequest) (snapshot : Snapshot) : ℕ :=
  (request.changes.map (·.name.length)).sum + (snapshot.refs.map (·.1.length)).sum +
    (snapshot.tickets.map fun row => 32 + ticketBytes row.2).sum +
    (snapshot.reservations.map fun row => terminalBytes row.2).sum +
    (request.presence.elim 0 (·.1.length)) + (request.ancestry.map (·.name.length)).sum +
    (request.admitted.map (·.name.length)).sum +
    (request.required.source.elim 0 (·.name.length)) +
    ((presentValue snapshot.policy).elim 0 fun policy => policy.allowedSigners.length * 32) +
    ((presentValue snapshot.denial).elim 0 fun denial =>
      denial.objects.length * 32 + denial.packs.length * 32 + denial.held.length * 32) +
    ((presentValue snapshot.admission).elim 0 fun admission =>
      (admission.presence.map (·.name.length)).sum) +
    ((recordedRefs snapshot.replay).map (·.name.length)).sum +
    (recordedMessage snapshot.replay).length

/-- A list with an entry equal to an earlier one. -/
def repeats {α : Type} [DecidableEq α] (l : List α) : Bool :=
  ¬ l.Nodup

/-- A member row of another repository or object. -/
def misplaced (repository : RepositoryId) (member : MembershipObservation) : Bool :=
  match member.observed with
  | .present value _ => value.repository ≠ repository ∨ value.object ≠ member.object
  | .absent _ => false

/-- Repeated identities are invalid even when their values agree. -/
def unambiguous (request : RefWriteRequest) (snapshot : Snapshot) : Except Failure Unit := do
  refuseIf ((presentValue snapshot.policy).any (repeats ·.allowedSigners))
    (failure .invalidResponse)
  refuseIf ((presentValue snapshot.denial).any fun denial =>
    repeats denial.objects || repeats denial.packs || repeats denial.held) (failure .invalidResponse)
  refuseIf ((presentValue snapshot.admission).any fun admission =>
    repeats (admission.presence.map (·.name))) (failure .invalidResponse)
  refuseIf (repeats (snapshot.refs.map Prod.fst)) (failure .invalidResponse)
  refuseIf (repeats (snapshot.members.map (·.object)) ||
    snapshot.members.any (misplaced request.repository)) (failure .invalidResponse)
  refuseIf (repeats (snapshot.tickets.map Prod.fst)) (failure .invalidResponse)
  refuseIf (repeats (snapshot.reservations.map Prod.fst)) (failure .invalidResponse)
  refuseIf (repeats request.required.members) (failure .invalidResponse)
  refuseIf (request.ancestry.any (·.repository ≠ request.repository) ||
    repeats (request.ancestry.map fun proof => (proof.name, proof.source, proof.target)))
    (failure .invalidResponse)
  refuseIf (repeats (request.admitted.map (·.name))) (failure .invalidResponse)
  refuseIf (request.presence.any fun presence =>
    !request.changes.any fun change => change.name = presence.1) (failure .invalidResponse)

/-- Check a request and its facts against the ceilings. -/
def bounds (request : RefWriteRequest) (snapshot : Snapshot) (limits : RefDecisionLimits) :
    Except Failure Unit := do
  let facts := factCount request snapshot
  let cost := facts * facts * 8 + 64
  refuseIf (limits.facts.toNat < facts ∨ limits.work.toNat < cost) (failure .resourceLimit)
  let bytes := inputBytes request snapshot
  refuseIf (limits.bytes.toNat < bytes ∨
    limits.publicMessageBytes.toNat < (recordedMessage snapshot.replay).length)
    (failure .resourceLimit)
  refuseIf (limits.work.toNat < cost + bytes * (facts + 2)) (failure .resourceLimit)
  refuseIf (snapshot.repository ≠ request.repository) (failure .invalidResponse)
  unambiguous request snapshot

/-! ### Matching -/

/-- A present observation carries the scope key its guard names. -/
def keyed {α : Type} (expected : Observed α) (scopeOk : α → Bool) : Bool :=
  match expected with
  | .present value _ => scopeOk value
  | .absent _ => true

/-- A member row with exactly this publication state. -/
def memberIs (repository : RepositoryId) (object supplier : Hash) (published held : Bool)
    (member : MembershipObservation) : Bool :=
  member.object == object &&
    match member.observed with
    | .present value _ => value.repository == repository && value.supplier.id == supplier &&
        value.published == published && value.held == held
    | .absent _ => false

/-- Compare one guard with the facts of the moment. -/
def guardMatches (guard : RequiredGuard) (current : Snapshot) (nowMs : UInt64) : Bool :=
  match guard with
  | .refValue repository name expected =>
    repository = current.repository ∧ (name, expected) ∈ current.refs
  | .refPresence repository name present =>
    repository = current.repository ∧
      current.refs.any fun row => row.1 = name ∧ row.2.isPresent = present
  | .replay scope expected =>
    keyed expected (·.scope = scope) ∧ current.replay = some expected
  | .ticket id expected => (id, expected) ∈ current.tickets
  | .reservation id expected => (id, expected) ∈ current.reservations
  | .authority namespaceId expected =>
    keyed expected (·.namespaceId = namespaceId) ∧ current.authority = some expected
  | .grant namespaceId expected =>
    keyed expected (·.namespaceId = namespaceId) ∧ current.grant = some expected
  | .repository id expected => id = current.repository ∧ current.lifecycle = some expected
  | .membership repository object expected =>
    repository = current.repository ∧ ⟨object, expected⟩ ∈ current.members
  | .denial repository expected =>
    repository = current.repository ∧ current.denial = some expected
  | .policy repository expected =>
    repository = current.repository ∧ current.policy = some expected
  | .admission operation expected =>
    keyed expected (·.operation = operation) ∧ current.admission = some expected
  | .accounting repository expected =>
    repository = current.repository ∧ current.accounting = some expected
  | .storage repository expected =>
    repository = current.repository ∧ current.storage = some expected
  | .publication repository expected =>
    repository = current.repository ∧ current.publication = some expected
  | .validThrough instantMs => nowMs ≤ instantMs
  | .membershipWitness repository _ _ =>
    repository = current.repository ∧ guard ∈ current.basis
  | .dependencyPublication repository object supplier published held =>
    repository = current.repository ∧
      current.members.any (memberIs repository object supplier published held)
  | .denialVersion _ | .binding _ => guard ∈ current.basis
  -- rows of other decision families never compare equal here
  | .row _ _ _ => false

/-- The guards a live basis view may hold. -/
def isBasisGuard : RequiredGuard → Bool
  | .membershipWitness _ _ _ | .denialVersion _ | .binding _ => true
  | _ => false

/-- A view that contradicts itself. -/
def ambiguous (current : Snapshot) : Bool :=
  repeats (current.refs.map Prod.fst) || repeats (current.members.map (·.object)) ||
    repeats (current.tickets.map Prod.fst) || repeats (current.reservations.map Prod.fst) ||
    current.basis.any (!isBasisGuard ·) || !consistent [] current.basis

/-- The reference comparison of a decision's guards with a snapshot of the moment. -/
def guardsMatch {D : Type} (guarded : Guarded D) (current : Snapshot) (nowMs : UInt64) : Bool :=
  if guarded.repository ≠ current.repository then false
  else if ambiguous current then false
  else guarded.required.all (guardMatches · current nowMs)

end Mkit.Decision
