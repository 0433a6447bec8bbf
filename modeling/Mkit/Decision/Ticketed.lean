import Mkit.Decision.RefDecide
import Mkit.Lib.Words

/-!
# Ticketed Advances and Settlements

A ticketed advance consumes upload tickets and settles their reservations in the atomic unit of
its ref changes. Ticket cleanup aborts a ticket whose pack is lost, and reservation settlement
ends a reservation on its own; all three race over the same rows from earlier snapshots.
-/

namespace Mkit.Decision

open Guarding

/-- The upload proof a host acquired for a ticket. -/
inductive UploadProof where
  | ready
  | markerMissing
  | packMissing
deriving DecidableEq

/-- One ticket a request consumes. `counted` says that the pack already counts toward the stored
bytes of the repository. -/
structure TicketClaim where
  ticket : TicketId
  proof : UploadProof
  counted : Bool
deriving DecidableEq

/-- What an acceptance relied on: the packs it covers and its guards. -/
structure AcceptanceBasis where
  repository : RepositoryId
  packs : List (Hash × UInt64)
  guards : List RequiredGuard
deriving DecidableEq

def AcceptanceBasis.covers (basis : AcceptanceBasis) (id : Hash) (len : UInt64) : Bool :=
  basis.packs.isEmpty || basis.packs.any fun pack => pack.1 = id ∧ pack.2 = len

/-- The content-verification verdict of a batch. -/
inductive VerificationVerdict where
  | verified (bases : List AcceptanceBasis)
  | pending
  | refused (refusal : PermanentRefusal)
deriving DecidableEq

/-- A verdict without a basis, or with a basis for another repository. -/
def VerificationVerdict.misplaced (repository : RepositoryId) : VerificationVerdict → Bool
  | .verified bases => bases = [] ∨ bases.any (·.repository ≠ repository)
  | _ => false

/-- Where stored bytes are counted. -/
inductive StorageAccounting where
  | disabled
  | relay
  | inline (observed : Observed StorageFact) (outcome : ReservationId) (occurredMs : UInt64)
deriving DecidableEq

/-- The admission reservation a write settles. -/
structure PendingBinding where
  reservation : ReservationId
  expected : Observed ReservationFact
  occurredMs : UInt64
deriving DecidableEq

/-- The input of a ticketed advance. -/
structure TicketedAdvanceRequest where
  write : RefWriteRequest
  tickets : List TicketClaim
  verification : VerificationVerdict
  storage : StorageAccounting
  pending : Option PendingBinding
deriving DecidableEq

/-- Most upload tickets one advance consumes. -/
def MAX_TICKETS_PER_ADVANCE : ℕ := 7

def INVALID_TICKET : Bytes := ascii "invalid or expired upload ticket".toList
def INCOMPLETE_UPLOAD : Bytes := ascii "upload not complete for ticket".toList
def SIGNER_MISMATCH : Bytes := ascii "upload ticket binding mismatch".toList
def EPOCH_MOVED : Bytes := ascii "namespace authority generation changed".toList

def HEADS_ROOT : Bytes := ascii "refs/heads/".toList
def PACKMAP_ROOT : Bytes := ascii "refs/mkit/packmap/".toList

/-- `str::strip_prefix`. -/
def stripRoot (root name : Bytes) : Option Bytes :=
  if root.isPrefixOf name then some (name.drop root.length) else none

/-- Canonical `refs/mkit/packmap/<x>`/`refs/heads/<x>` pairing. -/
def canonicalPair (packmap head : RefName) : Bool :=
  (stripRoot HEADS_ROOT head).isSome && stripRoot HEADS_ROOT head = stripRoot PACKMAP_ROOT packmap

def validateClaims (claims : List TicketClaim) : Except Failure Unit :=
  refuseIf (MAX_TICKETS_PER_ADVANCE < claims.length ∨ repeats (claims.map (·.ticket)))
    (failure .invalidRefRequest)

/-! ### Rows -/

/-- The observation of a ticket. -/
def observedTicket (id : TicketId) : Attempt (Observed TicketFact) :=
  acquired fun snapshot => (snapshot.tickets.find? (·.1 = id)).map Prod.snd

/-- The observation of a reservation. -/
def observedReservation (id : ReservationId) : Attempt (Observed ReservationFact) :=
  acquired fun snapshot => (snapshot.reservations.find? (·.1 = id)).map Prod.snd

/-- The verdict on a claimed ticket row. -/
inductive Verdict where
  | valid (fact : TicketFact)
  | refuse (code : PermanentCode) (message : Bytes)
deriving DecidableEq

/-- Validate a claimed ticket row: identity, destination, expiry and signer. -/
def validateTicket (claim : TicketClaim) (observed : Observed TicketFact) (write : RefWriteRequest) :
    Except Failure Verdict :=
  match observed with
  | .absent _ => .ok (.refuse .failedPrecondition INVALID_TICKET)
  | .present fact _ =>
    if fact.ticket ≠ claim.ticket then .error (failure .invalidResponse)
    else if fact.repository ≠ write.repository ∨
        some fact.name ≠ (write.changes[1]?.map (·.name)) ∨ fact.expiresMs ≤ write.nowMs then
      .ok (.refuse .failedPrecondition INVALID_TICKET)
    else if some fact.signer ≠ write.signer then
      .ok (.refuse .permissionDenied SIGNER_MISMATCH)
    else .ok (.valid fact)

/-- A valid claim with its row. -/
structure ValidTicket where
  claim : TicketClaim
  fact : TicketFact
  observed : Observed TicketFact
deriving DecidableEq

/-- The row of a reservation a ticket is bound to. -/
def isTicketed (observed : Observed ReservationFact) (ticket : TicketId) : Bool :=
  match observed with
  | .present (.ticketed id) _ => id = ticket
  | _ => false

/-! ### Effects -/

/-- Add a reservation settlement with its durable outcome. -/
def AcceptanceEffects.settle (effects : AcceptanceEffects) (operation : OperationId)
    (id : ReservationId) (terminal : ReservationTerminal) : AcceptanceEffects :=
  { effects with
    reservations := effects.reservations ++ [⟨id, terminal⟩]
    outcomes := effects.outcomes ++ [⟨operation, id, terminal⟩] }

/-- Consume or close a ticket. -/
def AcceptanceEffects.close (effects : AcceptanceEffects) (id : TicketId) : AcceptanceEffects :=
  { effects with tickets := effects.tickets ++ [⟨id, Option.none⟩] }

/-- Add a pack to the membership, once. -/
def AcceptanceEffects.join (effects : AcceptanceEffects) (repository : RepositoryId)
    (pack : PackSource) : AcceptanceEffects :=
  if effects.membership.any (·.pack.id = pack.id) then effects
  else { effects with membership := effects.membership ++ [⟨repository, pack⟩] }

/-- Replace the stored-bytes counter. -/
def AcceptanceEffects.count (effects : AcceptanceEffects) (repository : RepositoryId)
    (next : StorageFact) : AcceptanceEffects :=
  { effects with storage := effects.storage ++ [⟨repository, next⟩] }

/-- The terminal payload of a pending reservation. -/
def pendingTerminal (request : TicketedAdvanceRequest) (pending : PendingBinding)
    (conflict : Bool) : ReservationTerminal :=
  ⟨match pending.expected with
    | .present (.pending repository _ _ _) _ => repository
    | _ => request.write.repository,
    pending.occurredMs,
    if conflict then .aborted .refConflict []
    else .committed (writtenRefs request.write) ⟨0, 0, 0⟩⟩

def pendingOutcome (request : TicketedAdvanceRequest) (pending : PendingBinding)
    (conflict : Bool) : ReservationOutcome :=
  ⟨pending.reservation, pendingTerminal request pending conflict⟩

/-- The terminal payload of a consumed ticket's reservation. -/
def consumedTerminal (request : TicketedAdvanceRequest) (refs : List RefValue)
    (ticket : ValidTicket) : ReservationTerminal :=
  ⟨request.write.repository, request.write.nowMs,
    .committed refs ⟨ticket.fact.pack.len,
      if ticket.claim.counted then 0 else ticket.fact.pack.len, ticket.fact.pack.len⟩⟩

section Advance

variable (request : TicketedAdvanceRequest) (limits : RefDecisionLimits)

/-- An admission-written observation: a present pending row. -/
def isPending : Observed ReservationFact → Bool
  | .present (.pending _ _ _ _) _ => true
  | _ => false

/-- The pending reservation fences the whole decision. -/
def pendingCheck : Attempt (Option WriteDecision) :=
  match request.pending with
  | none => return none
  | some pending => do
    let observed ← observedReservation pending.reservation
    add limits (.reservation pending.reservation observed)
    refuseWhen (¬ isPending pending.expected) .invalidResponse
    if observed ≠ pending.expected then return some (.retry .unavailable) else return none

/-- Replay; a pending reservation turns a recorded answer into an in-flight retry. -/
def ticketedReplay : Attempt (Option WriteDecision) := do
  match ← replay request.write limits with
  | none => return none
  | some (.returnRecorded result) =>
    if request.pending.isSome then return some (.retry .inFlight)
    else return some (.returnRecorded result)
  | some other => return some other

/-- The verdict with the upload proof. -/
def provenVerdict (claim : TicketClaim) : Verdict → Verdict
  | .valid fact =>
    if claim.proof ≠ .ready then .refuse .failedPrecondition INCOMPLETE_UPLOAD else .valid fact
  | other => other

/-- Validate the ticket rows in order; the first failure decides. -/
def checkTickets : List TicketClaim → Attempt (WriteDecision ⊕ List ValidTicket)
  | [] => return .inr []
  | claim :: rest => do
    let observed ← observedTicket claim.ticket
    let verdict ← lift (validateTicket claim observed request.write)
    add limits (.ticket claim.ticket observed)
    match provenVerdict claim verdict with
    | .refuse code message => return .inl (← reject limits code message)
    | .valid fact =>
      match ← checkTickets rest with
      | .inl decision => return .inl decision
      | .inr valid => return .inr (⟨claim, fact, observed⟩ :: valid)

def addAll : List RequiredGuard → Attempt Unit
  | [] => return ()
  | guard :: rest => do
    add limits guard
    addAll rest

/-- `char::is_control` of some character of a UTF-8 text: the ASCII controls, and the C1 controls
behind their lead byte. -/
def hasControl : Bytes → Bool
  | [] => false
  | b :: rest =>
    b < 0x20 || b == 0x7f || (b == 0xc2 && rest.head?.any fun c => 0x80 ≤ c && c ≤ 0x9f) ||
      hasControl rest

/-- Why a refused proof aborts the pending reservation. -/
def proofAbort (refusal : PermanentRefusal) : ReservationAbortReason × Bytes :=
  if refusal.code = .permissionDenied ∨ refusal.code = .failedPrecondition then
    (.unspecified,
      if refusal.publicMessage.length ≤ 512 ∧ ¬ hasControl refusal.publicMessage then
        refusal.publicMessage
      else ascii "write denied".toList)
  else (.internal, [])

/-- The abort of a pending reservation whose proof was refused. -/
def failedProofOutcome (pending : PendingBinding) (refusal : PermanentRefusal) :
    ReservationOutcome :=
  ⟨pending.reservation,
    { pendingTerminal request pending false with
      kind := .aborted (proofAbort refusal).1 (proofAbort refusal).2 }⟩

def verification (valid : List ValidTicket) : Attempt (Option WriteDecision) :=
  match request.verification with
  | .pending => return some (.retry .unavailable)
  | .refused refusal => do
    refuseWhen (limits.publicMessageBytes.toNat < refusal.publicMessage.length) .resourceLimit
    return some (.reject refusal none
      (request.pending.map fun pending => failedProofOutcome request pending refusal))
  | .verified bases => do
    refuseWhen (valid.any fun ticket =>
      !bases.any (·.covers ticket.fact.pack.id ticket.fact.pack.len)) .invalidResponse
    addAll limits (bases.flatMap (·.guards))
    return none

/-- Tickets issued under a superseded authority generation cannot commit. -/
def generationCheck (valid : List ValidTicket) : Attempt (Option WriteDecision) :=
  match request.write.required.authority with
  | none => return none
  | some bound =>
    if valid.any (·.fact.authorityGeneration ≠ some bound.generation) then
      answerReject limits .permissionDenied EPOCH_MOVED
    else return none

/-- Consume the valid tickets. -/
def consume (operation : OperationId) (refs : List RefValue) :
    List ValidTicket → AcceptanceEffects → Attempt AcceptanceEffects
  | [], effects => return effects
  | ticket :: rest, effects => do
    let row ← observedReservation ticket.fact.reservation
    refuseWhen (¬ isTicketed row ticket.claim.ticket) .invalidResponse
    add limits (.ticket ticket.claim.ticket ticket.observed)
    add limits (.reservation ticket.fact.reservation row)
    consume operation refs rest
      (((effects.close ticket.claim.ticket).join request.write.repository ticket.fact.pack).settle
        operation ticket.fact.reservation (consumedTerminal request refs ticket))

/-- The bytes of the packs not counted yet, each pack once. -/
def addedBytes : List Hash → UInt64 → List ValidTicket → Except Failure UInt64
  | _, added, [] => .ok added
  | fresh, added, ticket :: rest =>
    if ¬ ticket.claim.counted ∧ ticket.fact.pack.id ∉ fresh then do
      let added ← okOr (failure .resourceLimit) (Words.checkedAdd added ticket.fact.pack.len)
      addedBytes (ticket.fact.pack.id :: fresh) added rest
    else addedBytes fresh added rest

/-- The counter after a batch that added bytes. -/
def nextCounter (counter : StorageFact) (added : UInt64) : Except Failure StorageFact := do
  let storedBytes ← okOr (failure .resourceLimit) (Words.checkedAdd counter.storedBytes added)
  let version ← okOr (failure .resourceLimit) (Words.checkedAdd counter.version 1)
  return ⟨storedBytes, version⟩

/-- The value of an observation that has to be present. -/
def requirePresent {α : Type} : Observed α → Except Failure α
  | .present value _ => .ok value
  | .absent _ => .error (failure .invalidResponse)

/-- The exact counter row covers the `counted` value of every claim, whether or not the batch adds
bytes. -/
def guardCounter (valid : List ValidTicket) (observed : Observed StorageFact) : Attempt Unit :=
  if valid = [] then return ()
  else do
    let row ← acquired (·.storage)
    refuseWhen (row ≠ observed) .invalidResponse
    add limits (.storage request.write.repository row)

/-- Move the counter. -/
def moveCounter (operation : OperationId) (observed : Observed StorageFact)
    (outcome : ReservationId) (occurredMs added : UInt64) (effects : AcceptanceEffects) :
    Attempt AcceptanceEffects := do
  let counter ← lift (requirePresent observed)
  let next ← lift (nextCounter counter added)
  let row ← observedReservation outcome
  refuseWhen (row.isPresent = true) .invalidResponse
  add limits (.reservation outcome row)
  return (effects.count request.write.repository next).settle operation outcome
    ⟨request.write.repository, occurredMs, .storageChanged next.storedBytes next.version⟩

/-- Count the fresh packs of a batch. -/
def countStorage (operation : OperationId) (valid : List ValidTicket)
    (effects : AcceptanceEffects) : Attempt AcceptanceEffects :=
  match request.storage with
  | .disabled | .relay => return effects
  | .inline observed outcome occurredMs => do
    let added ← lift (addedBytes [] 0 valid)
    guardCounter request limits valid observed
    if 0 < added then
      moveCounter request limits operation observed outcome occurredMs added effects
    else return effects

/-- Add the ticket, storage and reservation effects of an accepted advance. -/
def augmentApply (valid : List ValidTicket) (effects : AcceptanceEffects) :
    Attempt AcceptanceEffects := do
  let operation ← lift (okOr (failure .invalidResponse) request.write.operation)
  let refs := effects.refs.map fun effect => ⟨effect.name, effect.target⟩
  let effects ← consume request limits operation refs valid effects
  let effects ← countStorage request limits operation valid effects
  match request.pending with
  | none => return effects
  | some pending =>
    return effects.settle operation pending.reservation (pendingTerminal request pending false)

/-- The ref changes with the effects of the tickets. -/
def ticketedRefs (valid : List ValidTicket) : Attempt WriteDecision := do
  match ← refs request.write limits with
  | .apply effects => return .apply (← augmentApply request limits valid effects)
  | .conflict current replay none =>
    return .conflict current replay
      (request.pending.map fun pending => pendingOutcome request pending true)
  | other => return other

/-- The decision behind the ticket rows. -/
def driveValid (valid : List ValidTicket) : Attempt WriteDecision := do
  match ← orElse (verification request limits valid) (orElse (context request.write limits)
    (generationCheck request limits valid)) with
  | some decision => return decision
  | none => ticketedRefs request limits valid

def drive : Attempt WriteDecision := do
  match ← orElse (pendingCheck request limits) (ticketedReplay request limits) with
  | some decision => return decision
  | none =>
    match ← checkTickets request limits request.tickets with
    | .inl decision => return decision
    | .inr valid => driveValid request limits valid

end Advance

/-- The shape a ticketed request has on the wire. -/
def ticketedShape (request : TicketedAdvanceRequest) : Except Failure Unit := do
  let write := request.write
  refuseIf (write.kind ≠ .advance ∨ write.changes.length ≠ 2) (failure .invalidRefRequest)
  validateClaims request.tickets
  refuseIf (request.tickets ≠ [] ∧ (write.changes.any (·.target = none) ∨
    ¬ canonicalPair ((write.changes[0]?.map (·.name)).getD [])
      ((write.changes[1]?.map (·.name)).getD []))) (failure .invalidRefRequest)
  refuseIf (request.tickets ≠ [] ∧ (write.signer = none ∨ write.operation = none))
    (failure .invalidRefRequest)
  refuseIf (request.verification.misplaced write.repository) (failure .invalidResponse)

/-- Decide one ticketed advance with every read guard sealed. -/
def decideTicketedAdvance (request : TicketedAdvanceRequest) (snapshot : Snapshot)
    (limits : RefDecisionLimits) : Except Failure FencedDecision := do
  ticketedShape request
  bounds request.write snapshot limits
  sealAttempt request.write (drive request limits) snapshot

/-! ### Cleanup -/

section Cleanup

variable (request : TicketedAdvanceRequest) (limits : RefDecisionLimits)

/-- The row of a claim, `none` when it is refused. -/
def cleanupRow (claim : TicketClaim) (observed : Observed TicketFact) :
    Except Failure (Option ValidTicket) := do
  match ← validateTicket claim observed request.write with
  | .valid fact => return some ⟨claim, fact, observed⟩
  | .refuse _ _ => return none

/-- All rows of the claims, in order. -/
def cleanupRows (snapshot : Snapshot) :
    List TicketClaim → Except Failure (List (TicketClaim × Observed TicketFact × Option ValidTicket))
  | [] => .ok []
  | claim :: rest => do
    let observed ← okOr (failure .unavailableInput)
      ((snapshot.tickets.find? (·.1 = claim.ticket)).map Prod.snd)
    let row ← cleanupRow request claim observed
    let rows ← cleanupRows snapshot rest
    return (claim, observed, row) :: rows

/-- A row that fails the request. -/
def rowFails (row : TicketClaim × Observed TicketFact × Option ValidTicket) : Bool :=
  row.2.2 = none || row.1.proof ≠ .ready

/-- The rows up to and including the first failure. -/
def examined (rows : List (TicketClaim × Observed TicketFact × Option ValidTicket)) :
    Option (List (TicketClaim × Observed TicketFact × Option ValidTicket)) :=
  (rows.findIdx? rowFails).map fun boundary => rows.take (boundary + 1)

/-- Abort the tickets whose pack is missing. -/
def abortLost (operation : OperationId) (detail : Bytes) (occurredMs : UInt64) :
    List ValidTicket → AcceptanceEffects → Attempt AcceptanceEffects
  | [], effects => return effects
  | ticket :: rest, effects =>
    if ticket.claim.proof ≠ .packMissing then
      abortLost operation detail occurredMs rest effects
    else do
      let row ← observedReservation ticket.fact.reservation
      refuseWhen (¬ isTicketed row ticket.claim.ticket) .invalidResponse
      add limits (.reservation ticket.fact.reservation row)
      abortLost operation detail occurredMs rest
        ((effects.close ticket.claim.ticket).settle operation ticket.fact.reservation
          ⟨request.write.repository, occurredMs, .aborted .packMissing detail⟩)

/-- Guard every examined row, then abort the lost tickets. -/
def cleanupAttempt (operation : OperationId) (detail : Bytes) (occurredMs : UInt64)
    (rows : List (TicketClaim × Observed TicketFact × Option ValidTicket)) :
    Attempt WriteDecision := do
  addAll limits (rows.map fun row => .ticket row.1.ticket row.2.1)
  return .apply (← abortLost request limits operation detail occurredMs
    (rows.filterMap fun row => row.2.2) AcceptanceEffects.none)

/-- The separate defensive abort for tickets whose pack is missing. -/
def decideTicketCleanup (detail : Bytes) (occurredMs : UInt64) (snapshot : Snapshot) :
    Except Failure FencedDecision := do
  let write := request.write
  refuseIf (write.kind ≠ .advance ∨ write.changes.length ≠ 2 ∨ write.signer = none ∨
    write.operation = none) (failure .invalidRefRequest)
  validateClaims request.tickets
  bounds write snapshot limits
  refuseIf (limits.publicMessageBytes.toNat < detail.length) (failure .resourceLimit)
  let rows ← cleanupRows request snapshot request.tickets
  let rows ← okOr (failure .invalidResponse) (examined rows)
  let operation ← okOr (failure .invalidResponse) write.operation
  let (decision, guards) ← cleanupAttempt request limits operation detail occurredMs rows snapshot []
  return ⟨⟨write.repository, decision, guards⟩, []⟩

end Cleanup

/-! ### Settlement -/

/-- The refs and bytes a terminal payload is charged for. -/
def chargeTerminal (limits : RefDecisionLimits) (terminal : ReservationTerminal) :
    Except Failure (ℕ × ℕ) :=
  match terminal.kind with
  | .committed refs _ => .ok (refs.length, (refs.map (·.name.length)).sum)
  | .aborted _ detail => do
    refuseIf (limits.publicMessageBytes.toNat < detail.length) (failure .resourceLimit)
    return (0, detail.length)
  | _ => .ok (0, 0)

/-- The request a settlement is bounded as. -/
def settlementRequest (repository : RepositoryId) : RefWriteRequest :=
  ⟨repository, none, .update, [], [], none, none, none,
    ⟨none, none, none, none, none, [], false, .elapsed, false, false, none, none⟩, [], 0⟩

/-- The terminal row an observation holds. -/
def terminalRow : Observed ReservationFact → Option ReservationTerminal
  | .present (.terminal terminal) _ => some terminal
  | _ => none

/-- The bounds of a settlement: the prior and the terminal, with two output copies, are charged
before the snapshot. -/
def settlementBounds (repository : RepositoryId) (expected : Observed ReservationFact)
    (terminal : ReservationTerminal) (snapshot : Snapshot) (limits : RefDecisionLimits) :
    Except Failure Unit := do
  refuseIf (limits.guards = 0) (failure .resourceLimit)
  let (refs, bytes) ← chargeTerminal limits terminal
  let (priorRefs, priorBytes) ← match terminalRow expected with
    | some prior => chargeTerminal limits prior
    | none => .ok (0, 0)
  let refs := refs + priorRefs
  let bytes := bytes + priorBytes
  refuseIf (limits.facts.toNat < refs + 2 ∨ limits.bytes.toNat < bytes * 3 ∨
    limits.work.toNat < bytes * 3 + refs * 8 + 64) (failure .resourceLimit)
  bounds (settlementRequest repository) snapshot
    { limits with
      facts := UInt32.ofNat (limits.facts.toNat - (refs + 2))
      bytes := UInt64.ofNat (limits.bytes.toNat - bytes * 3)
      work := UInt64.ofNat (limits.work.toNat - (bytes * 3 + refs * 8 + 64)) }

/-- The transitions a settlement may make. -/
def settlementLegal : Observed ReservationFact → ReservationTerminalKind → Bool
  | .present (.pending _ _ _ _) _, .committed _ _ => true
  | .present (.pending _ _ _ _) _, .aborted _ _ => true
  | .present (.ticketed _) _, .committed _ _ => true
  | .present (.ticketed _) _, .aborted _ _ => true
  | .present (.ticketed _) _, .expired => true
  | .absent _, .aborted _ _ => true
  | _, _ => false

/-- The detail of an abort. -/
def abortDetail : ReservationTerminalKind → Bytes
  | .aborted _ detail => detail
  | _ => []

/-- A ticketed reservation ends together with its ticket. -/
def closeSettledTicket (settled : Observed ReservationFact) (reservation : ReservationId)
    (snapshot : Snapshot) (required : List RequiredGuard) (effects : AcceptanceEffects) :
    Except Failure (List RequiredGuard × AcceptanceEffects) :=
  match settled with
  | .present (.ticketed ticket) _ => do
    let row ← okOr (failure .unavailableInput)
      ((snapshot.tickets.find? (·.1 = ticket)).map Prod.snd)
    refuseIf (¬ keyed row fun value => value.ticket = ticket ∧ value.reservation = reservation)
      (failure .invalidResponse)
    return (required ++ [.ticket ticket row],
      if row.isPresent then effects.close ticket else effects)
  | _ => .ok (required, effects)

/-- Decide a standalone reservation settlement. When the fresh observation differs from the
expected one, another contender settled the reservation and nothing is applied. -/
def decideReservationSettlement (repository : RepositoryId) (operation : OperationId)
    (reservation : ReservationId) (expected : Observed ReservationFact)
    (terminal : ReservationTerminal) (snapshot : Snapshot) (limits : RefDecisionLimits) :
    Except Failure FencedDecision := do
  refuseIf (snapshot.repository ≠ repository ∨ terminal.repository ≠ repository)
    (failure .invalidResponse)
  settlementBounds repository expected terminal snapshot limits
  refuseIf (¬ settlementLegal expected terminal.kind) (failure .invalidResponse)
  refuseIf (limits.publicMessageBytes.toNat < (abortDetail terminal.kind).length)
    (failure .resourceLimit)
  let observed ← okOr (failure .unavailableInput)
    ((snapshot.reservations.find? (·.1 = reservation)).map Prod.snd)
  let guards := [RequiredGuard.reservation reservation observed]
  let (guards, effects) ← if observed = expected then
      closeSettledTicket observed reservation snapshot guards
        (AcceptanceEffects.none.settle operation reservation terminal)
    else .ok (guards, AcceptanceEffects.none)
  return ⟨⟨repository, .apply effects, guards⟩, []⟩

end Mkit.Decision
