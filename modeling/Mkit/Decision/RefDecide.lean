import Mkit.Decision.RefWrite
import Mkit.Lib.Guarding

/-!
# The Ref Decision

A single write, a paired advance or an exact deletion, decided from acquired facts. The
decision is a fixed sequence of checks; each looks at one category of facts, collects the guard
that repeats its comparison, and either lets the next one run or answers. Completed replay
answers before any of them.
-/

namespace Mkit.Decision

open Guarding

/-! ### Decisions and effects -/

/-- A ref mutation; a missing target deletes. -/
structure RefEffect where
  name : RefName
  target : Option Hash
deriving DecidableEq

/-- A pack that joins a repository. -/
structure MembershipEffect where
  repository : RepositoryId
  pack : PackSource
deriving DecidableEq

/-- A ticket state replacement; `none` consumes. -/
structure TicketTransition where
  id : TicketId
  next : Option TicketFact
deriving DecidableEq

/-- A reservation settlement. -/
structure ReservationOutcome where
  id : ReservationId
  terminal : ReservationTerminal
deriving DecidableEq

/-- A nonterminal reservation transition. -/
structure ReservationTransition where
  id : ReservationId
  next : ReservationFact
deriving DecidableEq

/-- A replay record replacement. -/
structure ReplayTransition where
  scope : ReplayScope
  next : ReplayFact
deriving DecidableEq

/-- A publication transition. -/
structure PublicationEffect where
  repository : RepositoryId
  next : PublicationFact
deriving DecidableEq

/-- An accounting charge. -/
structure AccountingEffect where
  scope : Hash
  bytes : UInt64
  operations : UInt64
deriving DecidableEq

/-- A stored-bytes counter replacement. -/
structure StorageEffect where
  repository : RepositoryId
  next : StorageFact
deriving DecidableEq

/-- A durable operation outcome. -/
structure DurableOutcome where
  operation : OperationId
  reservation : ReservationId
  terminal : ReservationTerminal
deriving DecidableEq

/-- The effects of an acceptance, committed in one atomic unit. -/
structure AcceptanceEffects where
  refs : List RefEffect
  membership : List MembershipEffect
  tickets : List TicketTransition
  reservations : List ReservationOutcome
  reservationTransitions : List ReservationTransition
  replay : Option ReplayTransition
  publication : List PublicationEffect
  accounting : List AccountingEffect
  storage : List StorageEffect
  outcomes : List DurableOutcome
deriving DecidableEq

/-- Effects that change nothing. -/
def AcceptanceEffects.none : AcceptanceEffects :=
  ⟨[], [], [], [], [], Option.none, [], [], [], []⟩

/-- Why an operation has to be decided again. -/
inductive RetryReason where
  | unavailable
  | changedFacts
  | admittedRefChanged
  | membershipNotVisible
  | inFlight
deriving DecidableEq

/-- The outcome of a ref decision. -/
inductive WriteDecision where
  | apply (effects : AcceptanceEffects)
  | conflict (current : List RefValue) (replay : Option TerminalResult)
      (reservation : Option ReservationOutcome)
  | reject (refusal : PermanentRefusal) (terminal : Option TerminalResult)
      (reservation : Option ReservationOutcome)
  | returnRecorded (result : TerminalResult)
  | retry (reason : RetryReason)
deriving DecidableEq

/-- A guarded decision with its separate pre-apply source fences. -/
structure FencedDecision where
  guarded : Guarded WriteDecision
  sourceFences : List PublishedSourceFence
deriving DecidableEq

/-! ### Attempts -/

/-- One decision attempt: it reads the snapshot and collects guards. -/
abbrev Attempt := Decide Snapshot RequiredGuard Failure

/-- Add one guard, dropping an exact duplicate. A guard that contradicts a collected one is a
failure: the decision could never commit. -/
def pushGuard (limit : UInt32) (guards : List RequiredGuard) (guard : RequiredGuard) :
    Except Failure (List RequiredGuard) :=
  if guard ∈ guards then .ok guards
  else if guards.any (!compatible · guard) then .error (failure .invalidResponse)
  else if limit.toNat ≤ guards.length then .error (failure .resourceLimit)
  else .ok (guards ++ [guard])

/-- A snapshot fact that has to be acquired. -/
def acquired {α : Type} (get : Snapshot → Option α) : Attempt α :=
  fetch fun snapshot => okOr (failure .unavailableInput) (get snapshot)

/-- The early return of a failure. -/
def refuseWhen (c : Prop) [Decidable c] (code : FailureCode) : Attempt Unit :=
  lift (refuseIf c (failure code))

/-- Run the next check when the first one does not answer. -/
def orElse {D : Type} (first second : Attempt (Option D)) : Attempt (Option D) := do
  match ← first with
  | some decision => return some decision
  | none => second

def NONCE_REUSED : Bytes := ascii "nonce reused for a different operation".toList
def SOURCE_NOT_FOUND : Bytes := ascii "source not found".toList
def GENERATION_CHANGED : Bytes := ascii "namespace authority generation changed".toList
def GRANT_EPOCH_CHANGED : Bytes := ascii "write grant epoch changed; re-authorize".toList
def SIGNER_NOT_ALLOWED : Bytes := ascii "signer not allowed for this ref".toList
def OPEN_CLOSURE : Bytes := ascii "open closure".toList
def OBJECT_BLOCKED : Bytes := ascii "object blocked".toList
def NON_FAST_FORWARD : Bytes := ascii "non-fast-forward update not allowed on this ref".toList
def REF_SCOPE : Bytes := ascii "write grant rejected: ref scope".toList

section Checks

variable (req : RefWriteRequest) (limits : RefDecisionLimits)

def add (guard : RequiredGuard) : Attempt Unit :=
  collect (pushGuard limits.guards) guard

def reject (code : PermanentCode) (message : Bytes) : Attempt WriteDecision := do
  refuseWhen (limits.publicMessageBytes.toNat < message.length ∨
    limits.bytes.toNat < min (message.length * 2) (2 ^ 64 - 1)) .resourceLimit
  return .reject ⟨code, message⟩ none none

/-- `Attempt::reject` where the check answers with it. -/
def answerReject (code : PermanentCode) (message : Bytes) : Attempt (Option WriteDecision) := do
  return some (← reject limits code message)

def authority : Attempt (Option WriteDecision) :=
  match req.required.authority with
  | none => return none
  | some bound => do
    let observed ← acquired (·.authority)
    refuseWhen (¬ keyed observed (·.namespaceId = bound.namespaceId)) .invalidResponse
    add limits (.authority bound.namespaceId observed)
    match observed with
    | .present value _ =>
      if value.ready ∧ value.generation = bound.generation ∧ value.mode = bound.mode then
        return none
      else if ¬ value.ready then return some (.retry .unavailable)
      else answerReject limits .permissionDenied GENERATION_CHANGED
    | .absent _ => answerReject limits .permissionDenied GENERATION_CHANGED

def grant : Attempt (Option WriteDecision) :=
  match req.required.grant with
  | none => return none
  | some bound => do
    let observed ← acquired (·.grant)
    refuseWhen (¬ keyed observed (·.namespaceId = bound.namespaceId)) .invalidResponse
    add limits (.grant bound.namespaceId observed)
    match observed with
    | .present value _ =>
      if value.grant = bound.grant ∧ value.epoch = bound.epoch then do
        refuseWhen (value.presence ≠ req.presence.map Prod.snd) .invalidResponse
        return none
      else answerReject limits .permissionDenied GRANT_EPOCH_CHANGED
    | .absent _ => answerReject limits .permissionDenied GRANT_EPOCH_CHANGED

def lifecycle : Attempt (Option WriteDecision) :=
  match req.required.incarnation with
  | none => return none
  | some incarnation => do
    let observed ← acquired (·.lifecycle)
    add limits (.repository req.repository observed)
    match observed with
    | .present value _ =>
      if value.incarnation = incarnation ∧ value.state = .active then return none
      else return some (.retry .changedFacts)
    | .absent _ => return some (.retry .changedFacts)

/-- The original authorization still holds. -/
def authorized : Attempt (Option WriteDecision) :=
  orElse (grant req limits) (orElse (authority req limits) (lifecycle req limits))

/-- Whether a refusal will be stored in the replay record. -/
def recording (snapshot : Snapshot) : Bool :=
  req.replay.isSome && match snapshot.replay with
    | some (.absent _) => true
    | _ => false

/-- A refusal with the terminal result the replay record stores. -/
def recordRefusal : WriteDecision → WriteDecision
  | .reject refusal _ reservation => .reject refusal (some (.rejected refusal)) reservation
  | other => other

/-- A refusal the replay record will store, while the original authorization still holds. -/
def rejectRecorded (code : PermanentCode) (message : Bytes) : Attempt (Option WriteDecision) := do
  let isRecording ← fetch fun snapshot => .ok (recording req snapshot)
  if isRecording then
    orElse (authorized req limits) do
      return some (recordRefusal (← reject limits code message))
  else answerReject limits code message

/-- What a replay record says about an operation. -/
inductive ReplayDecision where
  | fresh
  | recorded (result : TerminalResult)
  | resume
  | inFlight
  | conflict
deriving DecidableEq

/-- Classify a replay record. Every permanent code may be stored, so a recorded refusal is always
returned. -/
def classifyReplay (existing : Observed ReplayFact) (fingerprint : Hash) : ReplayDecision :=
  match existing with
  | .absent _ => .fresh
  | .present record _ =>
    if record.fingerprint ≠ fingerprint then .conflict
    else
      match record.state with
      | .committed result => .recorded result
      | .inFlight true => .resume
      | .inFlight false => .inFlight

def replay : Attempt (Option WriteDecision) :=
  match req.replay with
  | none => return none
  | some bound => do
    let observed ← acquired (·.replay)
    refuseWhen (¬ keyed observed (·.scope = bound.scope)) .invalidResponse
    add limits (.replay bound.scope observed)
    match classifyReplay observed bound.fingerprint with
    | .fresh => return none
    | .recorded result => return some (.returnRecorded result)
    | .resume | .inFlight => return some (.retry .inFlight)
    | .conflict => answerReject limits .invalidArgument NONCE_REUSED

def validity : Attempt (Option WriteDecision) :=
  match req.required.validThroughMs with
  | none => return none
  | some instantMs => do
    add limits (.validThrough instantMs)
    if instantMs < req.nowMs then return some (.retry .changedFacts) else return none

/-- A served ref name. -/
def servedName (name : RefName) : Bool :=
  (ascii "refs/".toList).isPrefixOf name &&
    (name.length ≤ MAX_REF_NAME_BYTES && validateRefNameGrammar name)

/-- The published source of a paired creation; it is read from the request only. -/
def source : Attempt (Option WriteDecision) :=
  match req.required.source with
  | none => return none
  | some fence => do
    refuseWhen (fence.repository ≠ req.repository ∨ ¬ servedName fence.name) .invalidResponse
    refuseWhen (req.kind ≠ .advance ∨ req.changes.any (·.condition ≠ .missing))
      .invalidRefRequest
    match fence.readAuthority with
    | .absent _ => answerReject limits .notFound SOURCE_NOT_FOUND
    | .present reader _ =>
      if ¬ reader.ready then answerReject limits .notFound SOURCE_NOT_FOUND
      else
        match fence.publication with
        | .absent _ => answerReject limits .notFound SOURCE_NOT_FOUND
        | .present value _ => do
          refuseWhen (value.sequence < value.publishedPrefix ∨
            value.publishedPrefix < value.deletionBoundary) .invalidResponse
          if value.sequence = 0 ∨ value.head = none ∨ value.packmap = none then
            answerReject limits .notFound SOURCE_NOT_FOUND
          else if (req.changes[0]?.map (·.target)) ≠ some value.packmap ∨
              (req.changes[1]?.map (·.target)) ≠ some value.head then
            return some (.retry .unavailable)
          else return none

def policy : Attempt (Option WriteDecision) :=
  match req.required.policy with
  | none => return none
  | some required => do
    let observed ← acquired (·.policy)
    add limits (.policy req.repository observed)
    match observed with
    | .absent _ => lift (.error (failure .invalidResponse))
    | .present value _ =>
      if required.signerRestricted ∧ ¬ req.signer.any (value.allowedSigners.contains ·) then
        rejectRecorded req limits .permissionDenied SIGNER_NOT_ALLOWED
      else return none

/-- The observation of a member. -/
def observedMember (object : Hash) : Attempt (Observed MemberFact) :=
  acquired fun snapshot => (snapshot.members.find? (·.object = object)).map (·.observed)

/-- A missing member. -/
def memberMissing : Attempt (Option WriteDecision) :=
  if req.required.membershipWindow = .withinLag then return some (.retry .membershipNotVisible)
  else rejectRecorded req limits .invalidArgument OPEN_CLOSURE

def membershipOf : List Hash → Attempt (Option WriteDecision)
  | [] => return none
  | object :: rest => do
    let observed ← observedMember object
    add limits (.membership req.repository object observed)
    match observed with
    | .present _ _ => membershipOf rest
    | .absent _ => memberMissing req limits

/-- A non-delete head has to be a commit, a remix or a tag. -/
def indexedHead : Attempt (Option WriteDecision) :=
  match req.required.indexedHead, req.changes.getLast?.bind (·.target) with
  | true, some object => do
    let observed ← observedMember object
    add limits (.membership req.repository object observed)
    match observed with
    | .present value _ =>
      if value.kind = .commit ∨ value.kind = .remix ∨ value.kind = .tag then return none
      else rejectRecorded req limits .invalidArgument OPEN_CLOSURE
    | .absent _ => memberMissing req limits
  | _, _ => return none

def membership : Attempt (Option WriteDecision) :=
  orElse (membershipOf req limits req.required.members) (indexedHead req limits)

def denial : Attempt (Option WriteDecision) :=
  if req.required.denial then do
    let observed ← acquired (·.denial)
    add limits (.denial req.repository observed)
    match observed with
    | .present value _ =>
      if value.held ≠ [] then return some (.retry .unavailable)
      else if value.objects ≠ [] ∨ value.packs ≠ [] then
        answerReject limits .permissionDenied OBJECT_BLOCKED
      else return none
    | .absent _ => return none
  else return none

/-- The admission is for exactly the admitted proposal. -/
def admissionMatches (bound : AdmissionBinding) (operation : OperationId) (value : AdmissionFact) :
    Bool :=
  value.operation = operation ∧ value.effects = bound.effects ∧
    req.admitted.length = req.changes.length ∧ value.presence.length = req.admitted.length ∧
    req.admitted.all fun admitted => value.presence.any fun delta =>
      delta.name = admitted.name ∧ delta.before = admitted.priorPresent ∧
        delta.after = admitted.target.isSome

def admission : Attempt (Option WriteDecision) :=
  match req.required.admission with
  | none => return none
  | some bound => do
    let observed ← acquired (·.admission)
    let operation ← lift (okOr (failure .invalidResponse) req.operation)
    add limits (.admission operation observed)
    match observed with
    | .absent _ => lift (.error (failure .invalidResponse))
    | .present value _ => do
      refuseWhen (¬ admissionMatches req bound operation value) .invalidResponse
      return none

def publication : Attempt (Option WriteDecision) :=
  if req.required.publication then do
    let observed ← acquired (·.publication)
    add limits (.publication req.repository observed)
    return none
  else return none

/-- The value of an observed ref. -/
def targetOf : Observed Hash → Option Hash
  | .absent _ => none
  | .present value _ => some value

/-- The observation of a ref. -/
def observedRef (name : RefName) : Attempt (Observed Hash) :=
  acquired fun snapshot => (snapshot.refs.find? (·.1 = name)).map Prod.snd

/-- The deployment asks for fast-forward updates. -/
def deploymentFastForward (snapshot : Snapshot) : Bool :=
  (presentValue snapshot.policy).any (·.fastForward)

/-- The ancestry proof of a subject from one value to another. -/
def ancestryProof (subject : RefChange) (source target : Hash) (message : Bytes) :
    Attempt (Option WriteDecision) := do
  let proof ← lift (okOr (failure .unavailableInput) (req.ancestry.find? fun proof =>
    proof.name = subject.name ∧ proof.source = source ∧ proof.target = target))
  refuseWhen (proof.repository ≠ req.repository) .invalidResponse
  match proof.result with
  | .descendant => return none
  | .denied => rejectRecorded req limits .permissionDenied message
  | .membershipLag => return some (.retry .membershipNotVisible)

def ancestrySubject (message : Bytes) : Attempt (Option WriteDecision) := do
  let subject ← lift (okOr (failure .invalidResponse) req.changes.getLast?)
  match subject.target with
  | none => rejectRecorded req limits .permissionDenied message
  | some target =>
    match subject.condition with
    | .missing => return none
    | .matching expected => ancestryProof req limits subject expected target message
    | .any => do
      let observed ← observedRef subject.name
      add limits (.refValue req.repository subject.name observed)
      match targetOf observed with
      | none => return none
      | some source => ancestryProof req limits subject source target message

def ancestry : Attempt (Option WriteDecision) :=
  match req.required.policy with
  | none => return none
  | some required => do
    let deployment ← fetch fun snapshot => .ok (deploymentFastForward snapshot)
    if ¬ deployment ∧ ¬ required.grantFastForward then return none
    else ancestrySubject req limits (if deployment then NON_FAST_FORWARD else REF_SCOPE)

/-- Every applicable fence, in order. -/
def context : Attempt (Option WriteDecision) :=
  orElse (validity req limits) <| orElse (source req limits) <| orElse (policy req limits) <|
    orElse (membership req limits) <| orElse (ancestry req limits) <|
    orElse (denial req limits) <| orElse (grant req limits) <| orElse (authority req limits) <|
    orElse (lifecycle req limits) <| orElse (admission req limits) (publication req limits)

/-- The grant's presence constraint on a change. -/
def presenceCheck (change : RefChange) (isPresent : Bool) : Attempt (Option WriteDecision) :=
  match req.presence with
  | none => return none
  | some (name, present) =>
    if name = change.name then do
      add limits (.refPresence req.repository name isPresent)
      if isPresent ≠ present then answerReject limits .permissionDenied REF_SCOPE
      else return none
    else return none

/-- Whether a ref is not in the state a change expects. -/
def conflicts (change : RefChange) (value : Option Hash) : Bool :=
  match change.condition with
  | .any => false
  | .missing => value.isSome
  | .matching expected => value ≠ some expected

/-- The comparison of a change with the value of its ref. -/
def valueCheck (change : RefChange) (observed : Observed Hash) : Attempt (Option WriteDecision) := do
  let conflict := conflicts change (targetOf observed)
  if conflict ∨ change.condition ≠ .any then
    add limits (.refValue req.repository change.name observed)
  if conflict then
    let current := [⟨change.name, targetOf observed⟩]
    return some (.conflict current (req.replay.map fun _ => .conflict current) none)
  else return none

/-- The comparison of a change with the admitted proposal. -/
def admittedCheck (change : RefChange) (isPresent : Bool) : Attempt (Option WriteDecision) :=
  if req.admitted = [] then return none
  else do
    let admitted ← lift (okOr (failure .invalidResponse)
      (req.admitted.find? (·.name = change.name)))
    add limits (.refPresence req.repository change.name isPresent)
    if admitted.target ≠ change.target ∨ admitted.priorPresent ≠ isPresent then
      return some (.retry .admittedRefChanged)
    else return none

/-- Check one change. -/
def checkChange (change : RefChange) : Attempt (Option WriteDecision) := do
  let observed ← observedRef change.name
  orElse (presenceCheck req limits change observed.isPresent) <|
    orElse (valueCheck req limits change observed)
      (admittedCheck req limits change observed.isPresent)

def checkChanges : List RefChange → Attempt (Option WriteDecision)
  | [] => return none
  | change :: rest => orElse (checkChange req limits change) (checkChanges rest)

/-- The refs a request writes. -/
def writtenRefs : List RefValue :=
  req.changes.map fun change => ⟨change.name, change.target⟩

/-- The effects of an accepted ref write. -/
def refEffects : AcceptanceEffects :=
  { AcceptanceEffects.none with
    refs := req.changes.map fun change => ⟨change.name, change.target⟩
    replay := req.replay.map fun bound =>
      ⟨bound.scope, ⟨bound.scope, bound.fingerprint, bound.expiresMs,
        .committed (.applied (writtenRefs req))⟩⟩ }

def refs : Attempt WriteDecision := do
  match ← checkChanges req limits req.changes with
  | some decision => return decision
  | none => return .apply (refEffects req)

/-- A request the wire rejects. -/
def invalidShape : Bool :=
  let pair := req.kind = .advance ∨ req.kind = .deletePair
  let deletes := req.kind = .delete ∨ req.kind = .deletePair
  req.changes.length ≠ (if pair then 2 else 1) ∨ req.changes.any (!servedName ·.name) ∨
    if deletes then
      req.changes.any fun change => change.target.isSome || match change.condition with
        | .matching _ => false
        | _ => true
    else req.changes.any (·.target = none)

/-- The decision after the bounds: replay first, then the shape, the context and the refs. -/
def refAttempt : Attempt WriteDecision := do
  match ← replay req limits with
  | some recorded => return recorded
  | none => do
    refuseWhen (invalidShape req) .invalidRefRequest
    match ← context req limits with
    | some refusal => return refusal
    | none => refs req limits

end Checks

/-- The source fences of a decision: a recorded answer needs none. -/
def sourceFences (req : RefWriteRequest) : WriteDecision → List PublishedSourceFence
  | .returnRecorded _ => []
  | _ => req.required.source.toList

/-- Run an attempt and seal its guards. -/
def sealAttempt (req : RefWriteRequest) (attempt : Attempt WriteDecision) (snapshot : Snapshot) :
    Except Failure FencedDecision := do
  let (decision, guards) ← attempt snapshot []
  return ⟨⟨req.repository, decision, guards⟩, sourceFences req decision⟩

/-- Decide a single write, a paired advance or an exact deletion with all read guards. -/
def decideRefWrite (request : RefWriteRequest) (snapshot : Snapshot) (limits : RefDecisionLimits) :
    Except Failure FencedDecision := do
  refuseIf (2 < request.changes.length) (failure .invalidRefRequest)
  bounds request snapshot limits
  sealAttempt request (refAttempt request limits) snapshot

end Mkit.Decision
