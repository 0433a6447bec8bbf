import Mkit.Decision.Commit
import Mkit.Lib.Words

/-!
# Published Clearance

A ref's publication has accepted advances up to `sequence` and publishes the longest prefix
of them that inspection has cleared. `decideClearance` decides, from facts the host acquired,
whether the published prefix moves: at acceptance of the next advance, at a recheck of a
retained one, and for a deletion, which moves the prefix and the deletion boundary at once.
The decision carries the guards under which it may be applied (`ClearanceFacts.guards`).

The model follows the source check by check. Every refusal of this module names no location
and no bounds, and a reservation of memory never fails.
-/

namespace Mkit.Decision

/-! ### Facts -/

/-- The lifecycle profile of a publication. -/
inductive ClearanceLifecycle where
  | notOffered
  | managed (expectedIncarnation : Revision) (current : Option (Observed LifecycleFact))
deriving DecidableEq

/-- The clearance state of an advance. -/
inductive ClearanceState where
  | pending
  | cleared
  | held
  | hit
  | resolved
deriving DecidableEq

/-- Whether a state may advance the published prefix. -/
def ClearanceState.publishable : ClearanceState → Bool
  | .cleared | .resolved => true
  | _ => false

/-- When the host applies the decision. -/
inductive ClearanceMoment where
  | acceptance
  | recheck
deriving DecidableEq

/-- One retained or candidate advance, reduced to the facts clearance compares. -/
structure ClearanceAdvance where
  sequence : UInt64
  generation : UInt64
  operation : OperationId
  head : Option Hash
  packmap : Option Hash
  state : ClearanceState
  additions : List Hash
  dependencies : List Hash
  externalSuppliers : List Hash
  obligations : List ClearanceState
  obligationRevisions : List Revision
  takedownComplete : Bool
  flagged : Bool
  revision : Revision
deriving DecidableEq

/-- The identity of the publication before the decision. -/
structure PriorPublication where
  generation : UInt64
  sequence : UInt64
  publishedPrefix : UInt64
  deletionBoundary : UInt64
  head : Option Hash
  packmap : Option Hash
  revision : Revision
deriving DecidableEq

/-- A witness of published membership. -/
structure DependencyWitness where
  object : Hash
  present : Bool
  published : Bool
  held : Bool
  generation : UInt64
  revision : Revision
deriving DecidableEq

/-- A host-supplied clearance snapshot. -/
structure ClearanceFacts where
  repository : RepositoryId
  moment : ClearanceMoment
  prior : PriorPublication
  changed : ClearanceAdvance
  previousState : ClearanceState
  suffix : List ClearanceAdvance
  witnesses : List DependencyWitness
  lifecycle : ClearanceLifecycle
  deleted : Bool
deriving DecidableEq

/-- Host ceilings. -/
structure ClearanceLimits where
  maxAdvances : UInt64
  maxItems : UInt64
  maxWork : UInt64
deriving DecidableEq

/-- The outcome of a clearance. -/
inductive ClearanceDecision where
  | advancePrefix (publishedPrefix : UInt64) (head packmap : Option Hash)
      (deletionBoundary : UInt64)
  | retain (publishedPrefix : UInt64)
deriving DecidableEq

/-! ### Commitments -/

def ADVANCE_DOMAIN : Bytes :=
  ascii ['c', 'l', 'e', 'a', 'r', 'a', 'n', 'c', 'e', '-', 'a', 'd', 'v', 'a', 'n', 'c', 'e']

def PRIOR_DOMAIN : Bytes :=
  ascii ['c', 'l', 'e', 'a', 'r', 'a', 'n', 'c', 'e', '-', 'p', 'r', 'i', 'o', 'r']

def WITNESS_DOMAIN : Bytes :=
  ascii ['c', 'l', 'e', 'a', 'r', 'a', 'n', 'c', 'e', '-', 'w', 'i', 't', 'n', 'e', 's', 's']

def CHANGED_DOMAIN : Bytes :=
  ascii ['c', 'l', 'e', 'a', 'r', 'a', 'n', 'c', 'e', '-', 'c', 'h', 'a', 'n', 'g', 'e', 'd']

def LIFECYCLE_DOMAIN : Bytes :=
  ascii ['c', 'l', 'e', 'a', 'r', 'a', 'n', 'c', 'e', '-', 'l', 'i', 'f', 'e', 'c', 'y', 'c',
    'l', 'e', '-', 'p', 'r', 'o', 'f', 'i', 'l', 'e']

def stateTag : ClearanceState → UInt8
  | .pending => 0
  | .cleared => 1
  | .held => 2
  | .hit => 3
  | .resolved => 4

/-- The commitment to every field of an advance. -/
def ClearanceAdvance.commit (a : ClearanceAdvance) : Commit :=
  let c := Commit.new ADVANCE_DOMAIN
  let c := (((c.u64 a.sequence).u64 a.generation).hash a.operation).optHash a.head
  let c := (c.optHash a.packmap).u8 (stateTag a.state)
  let c := ((c.hashes a.additions).hashes a.dependencies).hashes a.externalSuppliers
  let c := c.u64 (UInt64.ofNat a.obligations.length)
  let c := a.obligations.foldl (fun c state => c.u8 (stateTag state)) c
  let c := c.u64 (UInt64.ofNat a.obligationRevisions.length)
  let c := a.obligationRevisions.foldl Commit.revision c
  ((c.bool a.takedownComplete).bool a.flagged).revision a.revision

def ClearanceAdvance.commitment (B : Blake3) (a : ClearanceAdvance) : Hash :=
  a.commit.finish B

/-- The commitment to a prior publication identity. -/
def PriorPublication.commit (p : PriorPublication) : Commit :=
  let c := Commit.new PRIOR_DOMAIN
  let c := ((c.u64 p.generation).u64 p.sequence).u64 p.publishedPrefix
  ((c.u64 p.deletionBoundary).optHash p.head).optHash p.packmap

def PriorPublication.commitment (B : Blake3) (p : PriorPublication) : Hash :=
  p.commit.finish B

/-- The commitment to the witnessed standing of one pack. -/
def DependencyWitness.commit (w : DependencyWitness) : Commit :=
  let c := Commit.new WITNESS_DOMAIN
  let c := ((c.hash w.object).bool w.present).bool w.published
  (c.bool w.held).u64 w.generation

def DependencyWitness.commitment (B : Blake3) (w : DependencyWitness) : Hash :=
  w.commit.finish B

def momentTag : ClearanceMoment → UInt8
  | .acceptance => 0
  | .recheck => 1

namespace ClearanceFacts

/-- The commitment to the advance under decision and the moment it is decided at. -/
def changedCommit (B : Blake3) (facts : ClearanceFacts) : Commit :=
  let c := Commit.new CHANGED_DOMAIN
  let c := (c.hash (facts.changed.commitment B)).u8 (momentTag facts.moment)
  (c.u8 (stateTag facts.previousState)).bool facts.deleted

/-- The commitment to the lifecycle profile; the observation itself has a typed guard. -/
def lifecycleCommit (facts : ClearanceFacts) : Commit :=
  let c := Commit.new LIFECYCLE_DOMAIN
  match facts.lifecycle with
  | .notOffered => c.u8 0
  | .managed expectedIncarnation current =>
    ((c.u8 1).revision expectedIncarnation).bool current.isSome

/-! ### Guards -/

/-- The objects whose witness the decision may consult, in order. -/
def needed (facts : ClearanceFacts) : List Hash :=
  facts.changed.dependencies.filter (fun id => !facts.changed.additions.contains id) ++
    facts.changed.externalSuppliers

/-- The revision of a row that names "no witness supplied". -/
def NO_WITNESS : Revision := ZERO

/-- One absence row for each needed object without a witness; `guarded` are the objects that
have one already. -/
def absenceRows (repository : RepositoryId) (witnessed : List Hash) :
    List Hash → List Hash → List RequiredGuard
  | _, [] => []
  | guarded, object :: rest =>
    if !witnessed.contains object && !guarded.contains object then
      .row repository (.clearanceWitness object) (.absent NO_WITNESS) ::
        absenceRows repository witnessed (object :: guarded) rest
    else absenceRows repository witnessed guarded rest

/-- The typed guard of a managed lifecycle observation. -/
def lifecycleGuards (facts : ClearanceFacts) : List RequiredGuard :=
  match facts.lifecycle with
  | .managed _ (some expected) => [.repository facts.repository expected]
  | _ => []

/-- The guards these facts yield: the prior publication row, the changed advance, every suffix
advance, every witness or missing witness, and the lifecycle. -/
def guards (B : Blake3) (facts : ClearanceFacts) : List RequiredGuard :=
  let row (row : GuardRow) (value : Hash) (revision : Revision) : RequiredGuard :=
    .row facts.repository row (.present value revision)
  [row .clearancePrior (facts.prior.commitment B) facts.prior.revision,
    row (.clearanceChanged facts.changed.sequence) ((facts.changedCommit B).finish B)
      facts.changed.revision] ++
  facts.suffix.map (fun a => row (.clearanceSuffix a.sequence) (a.commitment B) a.revision) ++
  absenceRows facts.repository (facts.witnesses.map (·.object)) [] facts.needed ++
  facts.witnesses.map
    (fun w => row (.clearanceWitness w.object) (w.commitment B) w.revision) ++
  facts.lifecycleGuards ++
  [row .clearanceLifecycleProfile (facts.lifecycleCommit.finish B) NO_WITNESS]

end ClearanceFacts

/-! ### Validation -/

def invalid : Failure := failure .invalidResponse

def unavailable : Failure := failure .unavailableInput

def resource : Failure := failure .resourceLimit

/-- Bound the item lists of one advance. -/
def boundAdvance (advance : ClearanceAdvance) (limits : ClearanceLimits) :
    Except Failure Unit := do
  refuseIf (advance.obligationRevisions.length ≠ advance.obligations.length) invalid
  refuseIf (limits.maxItems.toNat < advance.additions.length ∨
    limits.maxItems.toNat < advance.dependencies.length ∨
    limits.maxItems.toNat < advance.externalSuppliers.length ∨
    limits.maxItems.toNat < advance.obligations.length) resource

/-- One record of the suffix against its predecessor's sequence; `true` when it is the changed
advance. -/
def expectRecord (facts : ClearanceFacts) (limits : ClearanceLimits) (previous : UInt64)
    (record : ClearanceAdvance) : Except Failure Bool := do
  boundAdvance record limits
  let next ← okOr resource (Words.checkedAdd previous 1)
  refuseIf (record.sequence ≠ next) invalid
  refuseIf (record.generation ≠ facts.prior.generation) invalid
  refuseIf (record.sequence = facts.changed.sequence ∧
    record.revision ≠ facts.changed.revision) invalid
  return decide (record.sequence = facts.changed.sequence)

/-- The records of the suffix, in order; whether the changed advance is among them. -/
def expectRecords (facts : ClearanceFacts) (limits : ClearanceLimits) :
    UInt64 → Bool → List ClearanceAdvance → Except Failure Bool
  | _, saw, [] => .ok saw
  | previous, saw, record :: rest => do
    let isChanged ← expectRecord facts limits previous record
    expectRecords facts limits record.sequence (saw || isChanged) rest

/-- The suffix must be the advances `publishedPrefix + 1 ..= sequence`. -/
def expectSuffix (facts : ClearanceFacts) (limits : ClearanceLimits) : Except Failure Unit := do
  let expected ← okOr invalid
    (Words.checkedSub facts.prior.sequence facts.prior.publishedPrefix)
  let len := UInt64.ofNat facts.suffix.length
  refuseIf (len ≠ expected ∨ limits.maxAdvances < len) invalid
  let saw ← expectRecords facts limits facts.prior.publishedPrefix false facts.suffix
  refuseIf (saw = false) invalid

/-- A recheck supplies the whole suffix, an acceptance none of it. -/
def checkSuffix (facts : ClearanceFacts) (limits : ClearanceLimits) : Except Failure Unit :=
  if facts.moment = .recheck then expectSuffix facts limits
  else refuseIf (facts.suffix ≠ []) invalid

/-- The comparisons a decision is charged for. -/
def clearanceWork (facts : ClearanceFacts) : UInt64 :=
  let changed := facts.changed
  let dependencies := UInt64.ofNat changed.dependencies.length
  let suppliers := UInt64.ofNat changed.externalSuppliers.length
  let witnesses := UInt64.ofNat facts.witnesses.length
  let lookups := Words.saturatingAdd
    (Words.saturatingMul dependencies (UInt64.ofNat changed.additions.length + witnesses))
    (Words.saturatingMul suppliers witnesses)
  Words.saturatingAdd
    (Words.saturatingAdd (Words.saturatingAdd lookups (UInt64.ofNat facts.suffix.length))
      witnesses)
    (Words.saturatingMul
      (Words.saturatingAdd (Words.saturatingAdd dependencies suppliers) witnesses) 3)

/-- Refuse malformed or unbounded facts. -/
def validate (facts : ClearanceFacts) (limits : ClearanceLimits) : Except Failure Unit := do
  let prior := facts.prior
  refuseIf (prior.publishedPrefix > prior.sequence ∨ prior.deletionBoundary > prior.sequence)
    invalid
  refuseIf (prior.sequence - prior.publishedPrefix > limits.maxAdvances) resource
  boundAdvance facts.changed limits
  checkSuffix facts limits
  refuseIf (limits.maxItems.toNat < facts.witnesses.length) resource
  refuseIf (¬ (facts.witnesses.map (·.object)).Nodup) invalid
  refuseIf (Words.checkedSub limits.maxWork (clearanceWork facts) = none) resource

/-! ### Eligibility -/

def obligationsPublishable (advance : ClearanceAdvance) : Bool :=
  advance.obligations.all ClearanceState.publishable

/-- Whether the lifecycle profile permits publication. -/
def lifecycleAllows (protection : ClearanceLifecycle) (moment : ClearanceMoment) :
    Except Failure Bool :=
  match protection with
  | .notOffered => .ok true
  | .managed _ none => .error unavailable
  | .managed _ (some (.absent _)) => .ok false
  | .managed expectedIncarnation (some (.present value _)) =>
    if value.incarnation ≠ expectedIncarnation then
      -- A retained claim bound to another incarnation is contradictory.
      if moment = .recheck then .error invalid else .ok false
    else .ok (decide (value.state = .active))

def witnessPublished (witnesses : List DependencyWitness) (id : Hash) (generation : UInt64) :
    Bool :=
  witnesses.any fun w =>
    decide (w.object = id) && w.present && w.published && !w.held &&
      decide (w.generation = generation)

def dependenciesVisible (advance : ClearanceAdvance) (witnesses : List DependencyWitness) :
    Bool :=
  advance.dependencies.all fun id =>
    advance.additions.contains id || witnessPublished witnesses id advance.generation

def suppliersVisible (advance : ClearanceAdvance) (witnesses : List DependencyWitness) : Bool :=
  advance.externalSuppliers.all fun id => witnessPublished witnesses id advance.generation

/-- Whether an advance meets every condition of publication. -/
def eligible (advance : ClearanceAdvance) (facts : ClearanceFacts) : Except Failure Bool :=
  if advance.flagged || !obligationsPublishable advance then .ok false
  else if advance.state = .resolved ∧ !advance.takedownComplete then .ok false
  else do
    let allowed ← lifecycleAllows facts.lifecycle facts.moment
    return allowed && dependenciesVisible advance facts.witnesses &&
      suppliersVisible advance facts.witnesses

/-! ### Decisions -/

def retain (facts : ClearanceFacts) : ClearanceDecision :=
  .retain facts.prior.publishedPrefix

/-- `Option::and`. -/
def optionAnd {α : Type} : Option α → Option α → Option α
  | some _, b => b
  | none, _ => none

def deletion (facts : ClearanceFacts) : Except Failure ClearanceDecision := do
  let sequence ← okOr resource (Words.checkedAdd facts.prior.sequence 1)
  refuseIf (facts.changed.sequence ≠ sequence) invalid
  -- A deletion keeps a prior value only where it names that component.
  return .advancePrefix sequence (optionAnd facts.changed.head facts.prior.head)
    (optionAnd facts.changed.packmap facts.prior.packmap) sequence

/-- `advance.state.publishable() && eligible(advance)?`: eligibility is consulted only for a
publishable state. -/
def ready (facts : ClearanceFacts) : Except Failure Bool :=
  if facts.changed.state.publishable then eligible facts.changed facts else .ok false

def acceptance (facts : ClearanceFacts) : Except Failure ClearanceDecision := do
  let sequence ← okOr resource (Words.checkedAdd facts.prior.sequence 1)
  refuseIf (facts.changed.sequence ≠ sequence ∨
    facts.changed.generation ≠ facts.prior.generation) invalid
  let ready ← ready facts
  return if ready = true ∧ Words.saturatingAdd facts.prior.publishedPrefix 1 = sequence then
      .advancePrefix sequence facts.changed.head facts.changed.packmap
        facts.prior.deletionBoundary
    else retain facts

/-- One already-reduced suffix step. -/
structure PrefixStep where
  sequence : UInt64
  publishable : Bool
  head : Option Hash
  packmap : Option Hash

/-- The facts a retained advance is judged by when it is not the changed one: the host
retained it under the dependency and lifecycle checks. -/
def locallyPublishable (record : ClearanceAdvance) : Bool :=
  record.state.publishable && !record.flagged && obligationsPublishable record &&
    (decide (record.state ≠ .resolved) || record.takedownComplete)

/-- Only the changed record gets the dependency and lifecycle checks. -/
def recordPublishable (facts : ClearanceFacts) (record : ClearanceAdvance) :
    Except Failure Bool :=
  if record.sequence = facts.changed.sequence then ready facts
  else .ok (locallyPublishable record)

/-- Reduce one record of the suffix. -/
def prefixStep (facts : ClearanceFacts) (record : ClearanceAdvance) :
    Except Failure PrefixStep := do
  let publishable ← recordPublishable facts record
  return ⟨record.sequence, publishable, record.head, record.packmap⟩

/-- The largest contiguous publishable prefix: stop at the first withheld advance. -/
def contiguousPrefix :
    UInt64 → Option Hash → Option Hash → List PrefixStep → UInt64 × Option Hash × Option Hash
  | publishedPrefix, head, packmap, [] => (publishedPrefix, head, packmap)
  | publishedPrefix, head, packmap, record :: rest =>
    if !record.publishable then (publishedPrefix, head, packmap)
    else contiguousPrefix record.sequence record.head record.packmap rest

def recheck (facts : ClearanceFacts) : Except Failure ClearanceDecision := do
  refuseIf (facts.previousState = .hit ∧ facts.changed.state = .cleared) invalid
  refuseIf (facts.changed.generation ≠ facts.prior.generation) invalid
  let ready ← ready facts
  refuseIf (facts.changed.state.publishable = true ∧ ready = false) invalid
  let records ← facts.suffix.mapM (prefixStep facts)
  let reached := contiguousPrefix facts.prior.publishedPrefix facts.prior.head
    facts.prior.packmap records
  return if reached.1 = facts.prior.publishedPrefix then retain facts
    else .advancePrefix reached.1 reached.2.1 reached.2.2 facts.prior.deletionBoundary

/-- The decision alone, without its guards. -/
def clearance (facts : ClearanceFacts) (limits : ClearanceLimits) :
    Except Failure ClearanceDecision := do
  validate facts limits
  if facts.deleted then deletion facts
  else if facts.moment = .acceptance then acceptance facts
  else recheck facts

/-- Decide published clearance from facts the host already acquired. -/
def decideClearance (B : Blake3) (facts : ClearanceFacts) (limits : ClearanceLimits) :
    Except Failure (Guarded ClearanceDecision) := do
  let decision ← clearance facts limits
  return ⟨facts.repository, decision, facts.guards B⟩

/-! ### What a decision has checked -/

/-- The sequences of a list of advances. -/
def sequences (l : List ClearanceAdvance) : List ℕ :=
  l.map fun a => a.sequence.toNat

/-- What a validated suffix record is. -/
theorem expectRecord_eq_ok {facts : ClearanceFacts} {limits : ClearanceLimits}
    {previous : UInt64} {record : ClearanceAdvance} {isChanged : Bool}
    (h : expectRecord facts limits previous record = .ok isChanged) :
    boundAdvance record limits = .ok () ∧ record.sequence.toNat = previous.toNat + 1 ∧
      (isChanged = true → record.sequence = facts.changed.sequence) := by
  simp only [expectRecord, Wire.bind_eq_ok, refuseIf_eq_ok, okOr_eq_ok,
    Words.checkedAdd_eq_some, not_not] at h
  obtain ⟨⟨⟩, hbound, next, hnext, -, rfl, -, -, -, -, h⟩ := h
  obtain rfl := Except.ok.inj h
  exact ⟨hbound, hnext, of_decide_eq_true⟩

/-- Validated suffix records carry consecutive sequences, and one of them is the changed
advance when it was seen. -/
theorem expectRecords_eq_ok {facts : ClearanceFacts} {limits : ClearanceLimits}
    {previous : UInt64} {saw r : Bool} {l : List ClearanceAdvance}
    (h : expectRecords facts limits previous saw l = .ok r) :
    sequences l = List.range' (previous.toNat + 1) l.length ∧
      (∀ a ∈ l, boundAdvance a limits = .ok ()) ∧
      (r = true → saw = true ∨ ∃ a ∈ l, a.sequence = facts.changed.sequence) := by
  induction l generalizing previous saw with
  | nil =>
    obtain rfl := Except.ok.inj h
    exact ⟨rfl, by simp, Or.inl⟩
  | cons a l ih =>
    simp only [expectRecords, Wire.bind_eq_ok] at h
    obtain ⟨isChanged, ha, h⟩ := h
    obtain ⟨hbound, hseq, hchanged⟩ := expectRecord_eq_ok ha
    obtain ⟨hseqs, hbounds, hsaw⟩ := ih h
    refine ⟨?_, List.forall_mem_cons.2 ⟨hbound, hbounds⟩, fun hr => ?_⟩
    · rw [List.length_cons, List.range'_succ, sequences, List.map_cons, ← sequences, hseqs, hseq]
    · rcases hsaw hr with hs | ⟨b, hb, hbs⟩
      · rcases Bool.or_eq_true_iff.1 hs with hs | hs
        · exact .inl hs
        · exact .inr ⟨a, List.mem_cons_self, hchanged hs⟩
      · exact .inr ⟨b, List.mem_cons_of_mem a hb, hbs⟩

/-- The suffix of a recheck: one record for each advance past the published prefix, the
changed one among them. -/
structure ExpectedSuffix (facts : ClearanceFacts) (limits : ClearanceLimits) : Prop where
  sequences_eq : sequences facts.suffix = List.range' (facts.prior.publishedPrefix.toNat + 1)
    (facts.prior.sequence.toNat - facts.prior.publishedPrefix.toNat)
  bounded : ∀ a ∈ facts.suffix, boundAdvance a limits = .ok ()
  changed : ∃ a ∈ facts.suffix, a.sequence = facts.changed.sequence

/-- Consecutive words do not wrap, so there are fewer than `2 ^ 64` of them. -/
theorem length_lt_of_sequences {l : List ClearanceAdvance} {n : ℕ}
    (h : sequences l = List.range' (n + 1) l.length) : l.length < 2 ^ 64 := by
  by_contra hlong
  have hmem : n + l.length ∈ sequences l := by
    rw [h, List.mem_range'_1]
    omega
  obtain ⟨a, -, ha⟩ := List.mem_map.1 hmem
  have := a.sequence.toNat_lt
  omega

theorem expectSuffix_eq_ok {facts : ClearanceFacts} {limits : ClearanceLimits}
    (h : expectSuffix facts limits = .ok ()) : ExpectedSuffix facts limits := by
  simp only [expectSuffix, Wire.bind_eq_ok, refuseIf_eq_ok, okOr_eq_ok,
    Words.checkedSub_eq_some, not_or, not_not, Bool.not_eq_false] at h
  obtain ⟨expected, hdiff, -, ⟨hlen, -⟩, saw, hrecords, rfl⟩ := h
  obtain ⟨hseqs, hbounds, hsaw⟩ := expectRecords_eq_ok hrecords
  have hlong := length_lt_of_sequences hseqs
  have hlength : facts.suffix.length = expected.toNat := by
    rw [← hlen, UInt64.toNat_ofNat', Nat.mod_eq_of_lt hlong]
  refine ⟨?_, hbounds, (hsaw rfl).resolve_left (by rintro ⟨⟩)⟩
  rw [hseqs, hlength]
  congr 1
  omega

/-- The facts a decision was made on. -/
structure Validated (facts : ClearanceFacts) (limits : ClearanceLimits) : Prop where
  prefix_le : facts.prior.publishedPrefix ≤ facts.prior.sequence
  boundary_le : facts.prior.deletionBoundary ≤ facts.prior.sequence
  changed : boundAdvance facts.changed limits = .ok ()
  suffix : facts.moment = .recheck → ExpectedSuffix facts limits
  no_suffix : facts.moment = .acceptance → facts.suffix = []
  witnesses : (facts.witnesses.map (·.object)).Nodup

theorem validate_eq_ok {facts : ClearanceFacts} {limits : ClearanceLimits}
    (h : validate facts limits = .ok ()) : Validated facts limits := by
  simp only [validate, checkSuffix, Wire.bind_eq_ok, refuseIf_eq_ok, not_or, not_not] at h
  obtain ⟨-, ⟨hpublished, hboundary⟩, -, -, ⟨⟩, hchanged, ⟨⟩, hsuffix, -, -, -, hwitnesses, -⟩ := h
  refine ⟨UInt64.not_lt.1 hpublished, UInt64.not_lt.1 hboundary, hchanged, fun hm => ?_,
    fun hm => ?_, hwitnesses⟩
  · rw [if_pos hm] at hsuffix
    exact expectSuffix_eq_ok hsuffix
  · rw [if_neg (by rw [hm]; rintro ⟨⟩), refuseIf_eq_ok, not_not] at hsuffix
    exact hsuffix

end Mkit.Decision
