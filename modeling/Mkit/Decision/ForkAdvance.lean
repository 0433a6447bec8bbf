import Mkit.Decision.ClearanceGuards
import Mkit.Lib.Run

/-!
# Fork Clearance

After a fork is accepted its inherited packs become visible one by one. Workers decide each
installation (`decideForkActivation`) and the end of the clearance (`decideForkCompletion`) from
acquired facts; both return the guards that the host compares at the commit. Facts without a
typed guard of their own are rows that carry a commitment to their value.
-/

namespace Mkit.Decision.Fork

/-! ### Facts -/

/-- Logical construction stage. -/
inductive ForkAdvancePhase where
  | preparing
  | accepted
  | complete
  | failed
deriving DecidableEq

/-- Exact expected durable checkpoint. -/
structure ForkProgress where
  phase : ForkAdvancePhase
  cursor : UInt64
  part : UInt16
  revision : Revision
deriving DecidableEq

/-- Acquired authoritative observation. -/
inductive ForkObservation where
  | absent
  | present (revision : Revision)
deriving DecidableEq

/-- An enabled grant-epoch fence. -/
structure ForkEpochFence where
  recorded : ForkObservation
  current : ForkObservation
deriving DecidableEq

/-- Exact original reservation protection before acceptance. -/
structure ForkReservationFence where
  reservation : ReservationId
  expected : Revision
  current : ForkObservation
deriving DecidableEq

/-- Fixed-shape snapshot needed by every advancing commit. -/
structure ForkAdvanceFacts where
  binding : Hash
  destination : RepositoryId
  progress : ForkProgress
  recordedAuthority : ForkObservation
  authority : ForkObservation
  grantEpoch : Option ForkEpochFence
  reservation : Option ForkReservationFence
  constructionExpiresMs : UInt64
deriving DecidableEq

/-- Why progress is refused. -/
inductive ForkAdvanceRefusal where
  | authorityMoved
  | epochMoved
  | expired
  | reservationSettled
deriving DecidableEq

/-- Progress permission. -/
inductive ForkAdvanceDecision where
  | advance
  | terminal
  | refuse (reason : ForkAdvanceRefusal)
deriving DecidableEq

/-- Exact semantic membership witness. -/
structure ForkWitness where
  generation : Revision
  sequence : UInt64
  published : Bool
  held : Bool
  boundary : Bool
deriving DecidableEq

/-- Distinguishes the first read from the read after a failed absent-row comparison. -/
inductive ForkPairContext where
  | initial
  | afterGuardLoss
deriving DecidableEq

/-- One exact inherited membership unit. -/
structure ForkMembershipUnit where
  pack : Hash
  inheritedRevision : Revision
  expected : ForkWitness
  live : Option ForkWitness
  published : Option ForkWitness
  context : ForkPairContext
deriving DecidableEq

/-- Destination lifecycle profile and exact managed protection. -/
inductive ForkLifecycleProtection where
  | notOffered
  | managed (expectedIncarnation : Revision) (current : Option (Observed LifecycleFact))
deriving DecidableEq

/-- Trusted completed destination denial acquisition. -/
structure ForkClearanceProof where
  destination : RepositoryId
  binding : Hash
  progressRevision : Revision
  pack : Hash
  applyAttempt : Revision
  validThroughMs : UInt64
  denialRevision : Revision
deriving DecidableEq

/-- The result a fork acceptance fixed. -/
structure ForkResult where
  branch : RefName
  source : RepositoryId
  sourceSequence : UInt64
  tip : Hash
  packmap : Hash
  packs : UInt64
  bytes : UInt64
  indexEntries : UInt64
  packDigest : Hash
  destinationGeneration : Revision
deriving DecidableEq

/-- Activation facts. -/
structure ForkActivationFacts where
  lifecycle : ForkLifecycleProtection
  advance : ForkAdvanceFacts
  expectedResult : ForkResult
  acceptedResult : Option ForkResult
  inheritedPacks : List Hash
  unit : ForkMembershipUnit
  proof : Option ForkClearanceProof
deriving DecidableEq

/-- Explicit ceilings for both result comparisons. -/
structure ForkActivationLimits where
  packs : UInt64
  branchBytes : UInt64
  work : UInt64
deriving DecidableEq

/-- The refusals of activation and completion. -/
inductive ForkRefusal where
  | destinationNotEmpty
  | bindingMismatch
deriving DecidableEq

/-- Post-acceptance conditions that withhold visibility. -/
inductive ForkWithheld where
  | lifecycleUnavailable
deriving DecidableEq

/-- Membership activation permission. -/
inductive ForkActivationDecision where
  | install
  | replay
  | retryPartial
  | defer (reason : ForkAdvanceRefusal)
  | withhold (reason : ForkWithheld)
  | refuse (reason : ForkRefusal)
deriving DecidableEq

/-- Final clearance facts. -/
structure ForkCompletionFacts where
  lifecycle : ForkLifecycleProtection
  advance : ForkAdvanceFacts
  expectedResult : ForkResult
  acceptedResult : Option ForkResult
  completedCursor : UInt64
  completedPart : UInt16
  completedPacks : UInt64
  completedDigest : Hash
  expectedBarrierOwner : Hash
deriving DecidableEq

/-- Final coordinator action. -/
inductive ForkCompletionDecision where
  | complete
  | replay
  | defer (reason : ForkAdvanceRefusal)
  | withhold (reason : ForkWithheld)
  | refuse (reason : ForkRefusal)
deriving DecidableEq

/-! ### Commitments -/

def PROGRESS_DOMAIN : Bytes := ascii "fork-progress".toList
def LIFECYCLE_DOMAIN : Bytes := ascii "fork-lifecycle-profile".toList
def ACCEPTED_DOMAIN : Bytes := ascii "fork-accepted".toList
def UNIT_DOMAIN : Bytes := ascii "fork-unit".toList
def PROOF_DOMAIN : Bytes := ascii "fork-proof".toList
def COMPLETION_DOMAIN : Bytes := ascii "fork-completion".toList

def phaseTag : ForkAdvancePhase → UInt8
  | .preparing => 0
  | .accepted => 1
  | .complete => 2
  | .failed => 3

def contextTag : ForkPairContext → UInt8
  | .initial => 0
  | .afterGuardLoss => 1

/-- Absorb a result. -/
def result (c : Commit) (value : ForkResult) : Commit :=
  (((((((((c.bytes value.branch).hash value.source).u64 value.sourceSequence).hash
    value.tip).hash value.packmap).u64 value.packs).u64 value.bytes).u64
    value.indexEntries).hash value.packDigest).revision value.destinationGeneration

/-- Absorb a witness or its absence. -/
def witness (c : Commit) : Option ForkWitness → Commit
  | some w =>
    (((((c.u8 1).revision w.generation).u64 w.sequence).bool w.published).bool w.held).bool
      w.boundary
  | none => c.u8 0

/-- The commitment to the durable checkpoint; its revision is the row's. -/
def ForkAdvanceFacts.progressCommit (facts : ForkAdvanceFacts) : Commit :=
  (((((Commit.new PROGRESS_DOMAIN).hash facts.binding).u8 (phaseTag facts.progress.phase)).u64
    facts.progress.cursor).u64 (UInt64.ofNat facts.progress.part.toNat)).u64
    facts.constructionExpiresMs

/-- The commitment to a lifecycle profile; the observation itself has a typed guard. -/
def lifecycleCommit (protection : ForkLifecycleProtection) : Commit :=
  let c := Commit.new LIFECYCLE_DOMAIN
  match protection with
  | .notOffered => c.u8 0
  | .managed expectedIncarnation current =>
    ((c.u8 1).revision expectedIncarnation).bool current.isSome

/-- The commitment to the retained result, the saved one and the inventory. -/
def acceptedCommit (expected : ForkResult) (accepted : Option ForkResult) (packs : List Hash) :
    Commit :=
  let c := result (Commit.new ACCEPTED_DOMAIN) expected
  let c := match accepted with
    | some saved => result (c.u8 1) saved
    | none => c.u8 0
  c.hashes packs

/-- The commitment to a membership unit. -/
def ForkMembershipUnit.commit (unit : ForkMembershipUnit) : Commit :=
  let c := ((Commit.new UNIT_DOMAIN).hash unit.pack).revision unit.inheritedRevision
  let c := witness c (some unit.expected)
  let c := witness c unit.live
  let c := witness c unit.published
  c.u8 (contextTag unit.context)

/-- The commitment to a proof; the denial revision has a row of its own. -/
def ForkClearanceProof.commit (proof : ForkClearanceProof) : Commit :=
  ((((((Commit.new PROOF_DOMAIN).hash proof.destination).hash proof.binding).revision
    proof.progressRevision).hash proof.pack).revision proof.applyAttempt).u64 proof.validThroughMs

/-- The commitment to a proposed completion. -/
def ForkCompletionFacts.completionCommit (facts : ForkCompletionFacts) : Commit :=
  (((((Commit.new COMPLETION_DOMAIN).u64 facts.completedCursor).u64
    (UInt64.ofNat facts.completedPart.toNat)).u64 facts.completedPacks).hash
    facts.completedDigest).hash facts.expectedBarrierOwner

/-! ### Guards -/

/-- A row that is known by its revision only. -/
def revisionRow (revision : Revision) : Observed Hash :=
  .present revision revision

/-- The row of an observation; an absence has no revision of its own. -/
def observation : ForkObservation → Observed Hash
  | .absent => .absent ZERO
  | .present revision => revisionRow revision

section Guards

variable (B : Blake3)

/-- The guards of the advance facts: durable progress, both authority observations, the epoch
fence when enabled, and the reservation fence. -/
def ForkAdvanceFacts.guards (facts : ForkAdvanceFacts) : List RequiredGuard :=
  let row := RequiredGuard.row facts.destination
  [row .forkProgress (.present (facts.progressCommit.finish B) facts.progress.revision),
    row .forkRecordedAuthority (observation facts.recordedAuthority),
    row .forkAuthority (observation facts.authority)] ++
  (facts.grantEpoch.elim [] fun epoch =>
    [row .forkRecordedEpoch (observation epoch.recorded),
      row .forkEpoch (observation epoch.current)]) ++
  facts.reservation.elim [] fun fence =>
    [row (.forkReservationRecorded fence.reservation) (revisionRow fence.expected),
      row (.forkReservationCurrent fence.reservation) (observation fence.current)]

/-- The guards of a lifecycle protection. -/
def lifecycleGuards (repository : RepositoryId) (protection : ForkLifecycleProtection) :
    List RequiredGuard :=
  (match protection with
    | .managed _ (some expected) => [.repository repository expected]
    | _ => []) ++
  [.row repository .forkLifecycleProfile (.present ((lifecycleCommit protection).finish B) ZERO)]

/-- The row of the accepted result. -/
def acceptedRow (repository : RepositoryId) (revision : Revision) (expected : ForkResult)
    (accepted : Option ForkResult) (packs : List Hash) : RequiredGuard :=
  .row repository .forkAccepted
    (.present ((acceptedCommit expected accepted packs).finish B) revision)

/-- The guards of the activation facts. -/
def ForkActivationFacts.guards (facts : ForkActivationFacts) : List RequiredGuard :=
  let repository := facts.advance.destination
  facts.advance.guards B ++ lifecycleGuards B repository facts.lifecycle ++
  [acceptedRow B repository facts.advance.progress.revision facts.expectedResult
      facts.acceptedResult facts.inheritedPacks,
    .row repository (.forkUnit facts.unit.pack)
      (.present (facts.unit.commit.finish B) facts.unit.inheritedRevision)] ++
  facts.proof.elim [] fun proof =>
    [.row repository (.forkProof proof.pack)
        (.present (proof.commit.finish B) proof.applyAttempt),
      .row repository (.forkDenial proof.pack) (revisionRow proof.denialRevision)]

/-- The guards of the completion facts. -/
def ForkCompletionFacts.guards (facts : ForkCompletionFacts) : List RequiredGuard :=
  let repository := facts.advance.destination
  facts.advance.guards B ++ lifecycleGuards B repository facts.lifecycle ++
  [acceptedRow B repository facts.advance.progress.revision facts.expectedResult
      facts.acceptedResult [],
    .row repository .forkCompletion
      (.present (facts.completionCommit.finish B) facts.advance.progress.revision)]

/-- Seal a decision with its guards and the validity bound, if there is one. -/
def sealed {D : Type} (repository : RepositoryId) (decision : D) (guards : List RequiredGuard)
    (validThroughMs : Option UInt64) : Guarded D :=
  ⟨repository, decision, guards ++ validThroughMs.toList.map .validThrough⟩

end Guards

/-! ### Decisions -/

/-- Compare acquired authority observations before any progress work. -/
def decideForkAuthority (recorded current : ForkObservation) (epoch : Option ForkEpochFence) :
    Option ForkAdvanceRefusal :=
  if recorded ≠ current then some .authorityMoved
  else if epoch.any fun e => e.recorded ≠ e.current then some .epochMoved
  else none

/-- The permission of an advancing commit. -/
def forkAdvance (facts : ForkAdvanceFacts) (nowMs : UInt64) : ForkAdvanceDecision :=
  let phase := facts.progress.phase
  if phase = .complete ∨ phase = .failed then .terminal
  else
    match decideForkAuthority facts.recordedAuthority facts.authority facts.grantEpoch with
    | some reason => .refuse reason
    | none =>
      if phase = .preparing ∧ facts.constructionExpiresMs < nowMs then .refuse .expired
      else if phase = .preparing ∧ facts.reservation.any
          (fun r => r.current ≠ .present r.expected) then .refuse .reservationSettled
      else .advance

/-- Decide an advancing coordinator commit. An advance of a preparing phase also carries the
construction expiry, so that a commit ordered after it fails the comparison. -/
def decideForkAdvance (B : Blake3) (facts : ForkAdvanceFacts) (nowMs : UInt64) :
    Guarded ForkAdvanceDecision :=
  let decision := forkAdvance facts nowMs
  sealed facts.destination decision (facts.guards B)
    (if decision = .advance ∧ facts.progress.phase = .preparing
      then some facts.constructionExpiresMs else none)

def lifecycleAvailable : ForkLifecycleProtection → Except Failure Bool
  | .notOffered => .ok true
  | .managed expectedIncarnation current => do
    match ← okOr (failure .unavailableInput) current with
    | .present value _ =>
      return value.incarnation = expectedIncarnation ∧ value.state = .active
    | .absent _ => return false

/-- Sums that overflow a machine word are over every ceiling, so the model adds without
overflow. -/
def checkResultBounds (expected : ForkResult) (accepted : Option ForkResult)
    (limits : ForkActivationLimits) : Except Failure Unit :=
  let expectedLen := expected.branch.length
  let acceptedLen := accepted.elim 0 (·.branch.length)
  refuseIf (limits.branchBytes.toNat < expectedLen ∨ limits.branchBytes.toNat < acceptedLen ∨
    limits.work.toNat < expectedLen + acceptedLen + 64) (failure .resourceLimit)

/-- `a.windows(2).any(|p| p[0] >= p[1])` is false: the ids ascend strictly. -/
def ascending : List Hash → Bool
  | a :: b :: rest => a.bytes < b.bytes && ascending (b :: rest)
  | _ => true

section Decisions

variable (B : Blake3)

/-- The digest of an inventory: the ids one after the other. -/
def inventoryDigest (packs : List Hash) : Hash :=
  B.finalize ((packs.map ByteArr.bytes).foldl B.update B.new)

def checkActivationInventory (facts : ForkActivationFacts) : Except Failure Unit := do
  refuseIf (ascending facts.inheritedPacks = false) (failure .invalidResponse)
  refuseIf (facts.unit.inheritedRevision ≠ facts.advance.progress.revision ∨
    facts.inheritedPacks.length ≠ facts.expectedResult.packs.toNat ∨
    inventoryDigest B facts.inheritedPacks ≠ facts.expectedResult.packDigest ∨
    facts.unit.pack ∉ facts.inheritedPacks) (failure .invalidResponse)

/-- The answers that need no lifecycle and no proof. -/
def earlyActivation (facts : ForkActivationFacts) (nowMs : UInt64) :
    Option ForkActivationDecision :=
  if facts.advance.progress.phase ≠ .accepted ∨
      facts.acceptedResult ≠ some facts.expectedResult then some (.refuse .bindingMismatch)
  else
    match (decideForkAdvance B facts.advance nowMs).decision with
    | .refuse reason => some (.defer reason)
    | _ => none

/-- The proof is for exactly this unit of this job. -/
def checkProof (facts : ForkActivationFacts) (proof : ForkClearanceProof) (nowMs : UInt64) :
    Except Failure Unit := do
  refuseIf (proof.destination ≠ facts.advance.destination ∨
    proof.binding ≠ facts.advance.binding ∨
    proof.progressRevision ≠ facts.advance.progress.revision ∨
    proof.pack ≠ facts.unit.pack) (failure .invalidResponse)
  refuseIf (proof.validThroughMs < nowMs) (failure .unavailableInput)

/-- The decision on the two witnesses of a unit. -/
def decideUnit (facts : ForkActivationFacts) : Except Failure ForkActivationDecision := do
  let unit := facts.unit
  refuseIf (unit.expected.generation ≠ facts.expectedResult.destinationGeneration ∨
    unit.expected.sequence ≠ 0 ∨ unit.expected.published = false ∨ unit.expected.held = true ∨
    unit.expected.boundary ≠ decide (unit.pack = facts.expectedResult.packmap))
    (failure .invalidResponse)
  if unit.live = some unit.expected ∧ unit.published = some unit.expected then return .replay
  else if unit.live = none ∧ unit.published = none then
    if unit.context = .initial then return .install else return .retryPartial
  else if unit.context = .afterGuardLoss ∧ unit.live.all (· = unit.expected) ∧
      unit.published.all (· = unit.expected) then return .retryPartial
  else return .refuse .destinationNotEmpty

/-- Decide one membership installation after terminal acceptance. -/
def decideForkActivation (facts : ForkActivationFacts) (nowMs : UInt64)
    (limits : ForkActivationLimits) : Except Failure (Guarded ForkActivationDecision) := do
  checkResultBounds facts.expectedResult facts.acceptedResult limits
  let count := facts.inheritedPacks.length
  let work := count * 33 + facts.expectedResult.branch.length +
    facts.acceptedResult.elim 0 (·.branch.length) + 64
  refuseIf (limits.packs.toNat < count ∨ limits.work.toNat < work) (failure .resourceLimit)
  let answer := sealed facts.advance.destination (D := ForkActivationDecision)
  match earlyActivation B facts nowMs with
  | some decision => return answer decision (facts.guards B) none
  | none =>
    if (← lifecycleAvailable facts.lifecycle) = false then
      return answer (.withhold .lifecycleUnavailable) (facts.guards B) none
    else do
      checkActivationInventory B facts
      let proof ← okOr (failure .unavailableInput) facts.proof
      checkProof facts proof nowMs
      let decision ← decideUnit facts
      return answer decision (facts.guards B) (some proof.validThroughMs)

/-- The completion is not the one the acceptance fixed. -/
def completionMismatch (facts : ForkCompletionFacts) : Bool :=
  facts.advance.progress.phase ≠ .accepted ∨
    facts.completedPacks ≠ facts.expectedResult.packs ∨
    facts.completedDigest ≠ facts.expectedResult.packDigest ∨
    facts.completedCursor ≠ facts.completedPacks ∨ facts.completedPart ≠ 0 ∨
    facts.completedCursor < facts.advance.progress.cursor

/-- The decision of a completion. -/
def completionDecision (facts : ForkCompletionFacts) : Except Failure ForkCompletionDecision :=
  if facts.acceptedResult ≠ some facts.expectedResult then .ok (.refuse .bindingMismatch)
  else if facts.advance.progress.phase = .complete then .ok .replay
  else if completionMismatch facts then .ok (.refuse .bindingMismatch)
  else
    match decideForkAuthority facts.advance.recordedAuthority facts.advance.authority
        facts.advance.grantEpoch with
    | some reason => .ok (.defer reason)
    | none =>
      if facts.expectedBarrierOwner ≠ facts.advance.binding then
        .ok (.refuse .bindingMismatch)
      else do
        if (← lifecycleAvailable facts.lifecycle) = false then
          return .withhold .lifecycleUnavailable
        else return .complete

/-- Finish clearance only after the exact accepted inventory completed. -/
def decideForkCompletion (facts : ForkCompletionFacts) (limits : ForkActivationLimits) :
    Except Failure (Guarded ForkCompletionDecision) := do
  checkResultBounds facts.expectedResult facts.acceptedResult limits
  let decision ← completionDecision facts
  return sealed facts.advance.destination decision (facts.guards B) none

end Decisions

end Mkit.Decision.Fork
