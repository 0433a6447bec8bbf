import Mkit.Decision.ForkGuards

/-!
# Runs of Fork Clearance

A `ForkWorld` is what the host keeps for one accepted fork: the job with its authority
observations, the lifecycle, the accepted result and inventory, the two membership rows of every
pack, and the revision of the denial observation of every pack. Workers decide on facts acquired
at any time and commit when every guard they got matches the guards of freshly acquired facts;
between two commits anything may change, but the rows of an installed pack are not removed and a
completed job stays completed.

`fork_activation_safe` says what every run guarantees: rows are installed together, once, over
absent rows, and only while all the conditions of the installation hold at the commit. Decisions
on facts that agree on the guards and on the enabled fences are equal.
-/

namespace Mkit.Decision.Fork

/-! ### Decisions on facts that agree -/

section Agreement

variable {B : Blake3}

theorem lengths_of_bounds {expected : ForkResult} {accepted : Option ForkResult}
    {limits : ForkActivationLimits} (h : checkResultBounds expected accepted limits = .ok ()) :
    expected.branch.length < 2 ^ 64 ∧ ∀ r ∈ accepted, r.branch.length < 2 ^ 64 := by
  simp only [checkResultBounds, refuseIf_eq_ok, not_or, not_lt] at h
  obtain ⟨hexpected, haccepted, -⟩ := h
  have hlt := limits.branchBytes.toNat_lt
  refine ⟨by omega, ?_⟩
  rintro r rfl
  exact lt_of_le_of_lt haccepted hlt

/-- How an activation that is decided came about. -/
inductive Activated (B : Blake3) (F : ForkActivationFacts) (nowMs : UInt64) :
    ForkActivationDecision → Option UInt64 → Prop
  | early {d : ForkActivationDecision} (h : earlyActivation B F nowMs = some d) :
      Activated B F nowMs d none
  | unavailable (hearly : earlyActivation B F nowMs = none)
      (hlifecycle : lifecycleAvailable F.lifecycle = .ok false) :
      Activated B F nowMs (.withhold .lifecycleUnavailable) none
  | decided {d : ForkActivationDecision} {proof : ForkClearanceProof}
      (hearly : earlyActivation B F nowMs = none)
      (hlifecycle : lifecycleAvailable F.lifecycle = .ok true)
      (hinventory : checkActivationInventory B F = .ok ()) (hproof : F.proof = some proof)
      (hchecked : checkProof F proof nowMs = .ok ()) (hunit : decideUnit F = .ok d) :
      Activated B F nowMs d (some proof.validThroughMs)

/-- The limits of an activation are kept. -/
def WithinLimits (F : ForkActivationFacts) (limits : ForkActivationLimits) : Prop :=
  checkResultBounds F.expectedResult F.acceptedResult limits = .ok () ∧
    F.inheritedPacks.length ≤ limits.packs.toNat ∧
    F.inheritedPacks.length * 33 + F.expectedResult.branch.length +
      F.acceptedResult.elim 0 (·.branch.length) + 64 ≤ limits.work.toNat

variable {F : ForkActivationFacts} {g : Guarded ForkActivationDecision}

theorem decideForkActivation_eq_ok {nowMs : UInt64} {limits : ForkActivationLimits} :
    decideForkActivation B F nowMs limits = .ok g ↔ WithinLimits F limits ∧
      ∃ d bound, Activated B F nowMs d bound ∧
        g = sealed F.advance.destination d (F.guards B) bound := by
  simp only [decideForkActivation, Wire.bind_eq_ok, refuseIf_eq_ok, not_or, not_lt, WithinLimits]
  constructor
  · rintro ⟨⟨⟩, hbounds, ⟨⟩, hwork, h⟩
    refine ⟨⟨hbounds, hwork⟩, ?_⟩
    cases hearly : earlyActivation B F nowMs with
    | some d =>
      rw [hearly] at h
      exact ⟨d, none, .early hearly, (Except.ok.inj h).symm⟩
    | none =>
      simp only [hearly, Wire.bind_eq_ok] at h
      obtain ⟨available, hlifecycle, h⟩ := h
      cases available with
      | false => exact ⟨_, none, .unavailable hearly hlifecycle, (Except.ok.inj h).symm⟩
      | true =>
        simp only [Bool.true_eq_false, if_false, Wire.bind_eq_ok, okOr_eq_ok] at h
        obtain ⟨⟨⟩, hinventory, proof, hproof, ⟨⟩, hchecked, d, hunit, h⟩ := h
        exact ⟨d, _, .decided hearly hlifecycle hinventory hproof hchecked hunit,
          (Except.ok.inj h).symm⟩
  · rintro ⟨⟨hbounds, hwork⟩, d, bound, hactivated, rfl⟩
    refine ⟨(), hbounds, (), hwork, ?_⟩
    cases hactivated with
    | early hearly =>
      rw [hearly]
      rfl
    | unavailable hearly hlifecycle =>
      rw [hearly, hlifecycle]
      rfl
    | decided hearly hlifecycle hinventory hproof hchecked hunit =>
      rw [hearly]
      simp only [hlifecycle, hinventory, hproof, hunit]
      rw [okOr]
      dsimp only [bind, Except.bind]
      rw [hchecked]
      rfl

theorem sized_of_limits {limits : ForkActivationLimits}
    (h : WithinLimits F limits) : Sized F.expectedResult F.acceptedResult F.inheritedPacks where
  expected := (lengths_of_bounds h.1).1
  accepted := (lengths_of_bounds h.1).2
  packs := lt_of_le_of_lt h.2.1 limits.packs.toNat_lt

/-- An accepted job is not bounded by the construction expiry, so the time does not matter. -/
theorem earlyActivation_eq (F : ForkActivationFacts) (nowMs nowMs' : UInt64) :
    earlyActivation B F nowMs = earlyActivation B F nowMs' := by
  rw [earlyActivation, earlyActivation]
  split_ifs with hearly
  · rfl
  · rw [not_or, not_not] at hearly
    simp only [decideForkAdvance, sealed, forkAdvance, hearly.1, reduceCtorEq, false_and, if_false]

/-- Facts that differ in the proof only, where one of them has none. -/
structure SameFacts (F F' : ForkActivationFacts) : Prop where
  advance : F.advance = F'.advance
  lifecycle : F.lifecycle = F'.lifecycle
  expected : F.expectedResult = F'.expectedResult
  accepted : F.acceptedResult = F'.acceptedResult
  packs : F.inheritedPacks = F'.inheritedPacks
  unit : F.unit = F'.unit
  proof : ∀ p ∈ F.proof, F'.proof = some p

variable {F' : ForkActivationFacts}

theorem SameFacts.eq_or (h : SameFacts F F') :
    F = F' ∨ F.proof = none ∧ F' = { F with proof := F'.proof } := by
  obtain ⟨lifecycle, advance, expected, accepted, packs, unit, proof⟩ := F
  obtain ⟨lifecycle', advance', expected', accepted', packs', unit', proof'⟩ := F'
  obtain ⟨rfl, rfl, rfl, rfl, rfl, rfl, hproof⟩ := h
  cases proof with
  | none => exact .inr ⟨rfl, rfl⟩
  | some p =>
    obtain rfl : proof' = some p := hproof p rfl
    exact .inl rfl

/-- A proof that has not run out keeps its check. -/
theorem checkProof_later {proof : ForkClearanceProof}
    {nowMs nowMs' : UInt64} (h : checkProof F proof nowMs = .ok ())
    (hnow : nowMs' ≤ proof.validThroughMs) : checkProof F proof nowMs' = .ok () := by
  simp only [checkProof, Wire.bind_eq_ok, refuseIf_eq_ok] at h ⊢
  obtain ⟨⟨⟩, hscope, -⟩ := h
  exact ⟨(), hscope, UInt64.not_lt.2 hnow⟩

/-- A decision stands on facts that agree, as long as its bound is kept. -/
theorem Activated.transfer {nowMs nowMs' : UInt64}
    {d : ForkActivationDecision} {bound : Option UInt64} (h : Activated B F nowMs d bound)
    (hsame : SameFacts F F') (hnow : ∀ t ∈ bound, nowMs' ≤ t) : Activated B F' nowMs' d bound := by
  have hearly_eq : earlyActivation B F' nowMs' = earlyActivation B F nowMs := by
    rw [earlyActivation_eq F' nowMs' nowMs, earlyActivation, earlyActivation, hsame.advance,
      hsame.accepted, hsame.expected]
  cases h with
  | early hearly => exact .early (hearly_eq.trans hearly)
  | unavailable hearly hlifecycle =>
    exact .unavailable (hearly_eq.trans hearly) (hsame.lifecycle ▸ hlifecycle)
  | decided hearly hlifecycle hinventory hproof hchecked hunit =>
    -- Facts with a proof that agree with others are equal to them.
    obtain rfl | ⟨hnone, -⟩ := hsame.eq_or
    · exact .decided (hearly_eq.trans hearly) hlifecycle hinventory hproof
        (checkProof_later hchecked (hnow _ rfl)) hunit
    · rw [hnone] at hproof
      cases hproof

/-- A decision is determined by the facts and whether its proof has run out. -/
theorem Activated.unique {nowMs : UInt64}
    {d d' : ForkActivationDecision} {bound bound' : Option UInt64}
    (h : Activated B F nowMs d bound) (h' : Activated B F nowMs d' bound') : d = d' := by
  cases h with
  | early hearly =>
    cases h' with
    | early hearly' => exact Option.some.inj (hearly.symm.trans hearly')
    | unavailable hearly' _ => cases hearly.symm.trans hearly'
    | decided hearly' _ _ _ _ _ => cases hearly.symm.trans hearly'
  | unavailable hearly hlifecycle =>
    cases h' with
    | early hearly' => cases hearly.symm.trans hearly'
    | unavailable _ _ => rfl
    | decided _ hlifecycle' _ _ _ _ => cases hlifecycle.symm.trans hlifecycle'
  | decided hearly hlifecycle _ _ _ hunit =>
    cases h' with
    | early hearly' => cases hearly.symm.trans hearly'
    | unavailable _ hlifecycle' => cases hlifecycle.symm.trans hlifecycle'
    | decided _ _ _ _ _ hunit' => exact Except.ok.inj (hunit.symm.trans hunit')

/-- The guards that a sealed decision repeats are live, and its bound is kept. -/
theorem guards_of_sealed {D : Type} {repository : RepositoryId} {d : D}
    {guards live : List RequiredGuard} {bound : Option UInt64} {nowMs : UInt64}
    (hkind : ∀ g ∈ guards, group g ≠ .other)
    (h : guardsHold (sealed repository d guards bound) live nowMs = true) :
    (∀ g ∈ guards, g ∈ live) ∧ ∀ t ∈ bound, nowMs ≤ t := by
  refine ⟨fun g hg => mem_live_of_guardsHold h (List.mem_append_left _ hg)
    (ne_validThrough (hkind g hg)), ?_⟩
  rintro t rfl
  rw [guardsHold, Bool.and_eq_true, List.all_eq_true] at h
  have hbound := h.2 (.validThrough t) (by simp [sealed])
  exact of_decide_eq_true hbound

theorem kind_activation {g : RequiredGuard} (h : g ∈ F.guards B) : group g ≠ .other := by
  intro hother
  have hgroup := groupOf_activation h
  rw [hother] at hgroup
  exact hgroup

theorem kind_completion {F : ForkCompletionFacts} {g : RequiredGuard} (h : g ∈ F.guards B) :
    group g ≠ .other := by
  intro hother
  have hgroup := groupOf_completion h
  rw [hother] at hgroup
  exact hgroup

/-- An activation whose guards hold on other facts was decided on facts that agree with these. -/
theorem same_of_guardsHold {decidedMs nowMs : UInt64} {limits : ForkActivationLimits}
    (hfree : CollisionFreeOn B {x | x ∈ F.streams ++ F'.streams})
    (hfences : SameFences F.advance F'.advance)
    (hsized : Sized F'.expectedResult F'.acceptedResult F'.inheritedPacks)
    (hdecide : decideForkActivation B F decidedMs limits = .ok g)
    (hhold : guardsHold g (F'.guards B) nowMs = true) :
    SameFacts F F' ∧ ∃ bound, Activated B F' nowMs g.decision bound ∧
      g = sealed F.advance.destination g.decision (F.guards B) bound := by
  obtain ⟨hlimits, d, bound, hactivated, rfl⟩ := decideForkActivation_eq_ok.1 hdecide
  obtain ⟨hlive, hbound⟩ := guards_of_sealed (fun g hg => kind_activation hg) hhold
  obtain ⟨hadvance, hlifecycle, hexpected, haccepted, hpacks, hunit, hproof⟩ :=
    activation_agrees hfree hfences (sized_of_limits hlimits) hsized hlive
  have hsame : SameFacts F F' :=
    ⟨hadvance, hlifecycle, hexpected, haccepted, hpacks, hunit, hproof⟩
  exact ⟨hsame, bound, hactivated.transfer hsame hbound, rfl⟩

/-- **Activation guards are sufficient.** Where the guards of an activation hold on other facts
with the same fences, deciding on these gives the same decision. -/
theorem activation_stable {decidedMs nowMs : UInt64} {limits : ForkActivationLimits}
    (hfree : CollisionFreeOn B {x | x ∈ F.streams ++ F'.streams})
    (hfences : SameFences F.advance F'.advance)
    (hsized : Sized F'.expectedResult F'.acceptedResult F'.inheritedPacks)
    (hdecide : decideForkActivation B F decidedMs limits = .ok g)
    (hhold : guardsHold g (F'.guards B) nowMs = true) :
    (∃ g', decideForkActivation B F' nowMs limits = .ok g' ∧ g'.decision = g.decision) ∧
      ∀ limits' g', decideForkActivation B F' nowMs limits' = .ok g' →
        g'.decision = g.decision := by
  obtain ⟨hsame, bound, hactivated, -⟩ :=
    same_of_guardsHold hfree hfences hsized hdecide hhold
  obtain ⟨hlimits, -⟩ := decideForkActivation_eq_ok.1 hdecide
  refine ⟨⟨_, decideForkActivation_eq_ok.2 ⟨?_, _, _, hactivated, rfl⟩, rfl⟩, ?_⟩
  · rwa [WithinLimits, ← hsame.expected, ← hsame.accepted, ← hsame.packs]
  · intro limits' g' hdecide'
    obtain ⟨-, d', bound', hactivated', rfl⟩ := decideForkActivation_eq_ok.1 hdecide'
    exact hactivated'.unique hactivated

theorem decideForkCompletion_eq_ok {F : ForkCompletionFacts} {limits : ForkActivationLimits}
    {g : Guarded ForkCompletionDecision} : decideForkCompletion B F limits = .ok g ↔
      checkResultBounds F.expectedResult F.acceptedResult limits = .ok () ∧
        ∃ d, completionDecision F = .ok d ∧
          g = sealed F.advance.destination d (F.guards B) none := by
  simp only [decideForkCompletion, Wire.bind_eq_ok]
  constructor
  · rintro ⟨⟨⟩, hbounds, d, hd, h⟩
    exact ⟨hbounds, d, hd, (Except.ok.inj h).symm⟩
  · rintro ⟨hbounds, d, hd, rfl⟩
    exact ⟨(), hbounds, d, hd, rfl⟩

/-- A completion whose guards hold on other facts was decided on these. -/
theorem eq_of_guardsHold {F F' : ForkCompletionFacts} {nowMs : UInt64}
    {limits : ForkActivationLimits} {g : Guarded ForkCompletionDecision}
    (hfree : CollisionFreeOn B {x | x ∈ F.streams ++ F'.streams})
    (hfences : SameFences F.advance F'.advance)
    (hsized : Sized F'.expectedResult F'.acceptedResult [])
    (hdecide : decideForkCompletion B F limits = .ok g)
    (hhold : guardsHold g (F'.guards B) nowMs = true) : F = F' := by
  obtain ⟨hbounds, d, -, rfl⟩ := decideForkCompletion_eq_ok.1 hdecide
  obtain ⟨hlive, -⟩ := guards_of_sealed (fun g hg => kind_completion hg) hhold
  obtain ⟨hexpected, haccepted⟩ := lengths_of_bounds hbounds
  exact completion_agrees hfree hfences ⟨hexpected, haccepted, by simp⟩ hsized hlive

/-- **Completion guards are sufficient.** -/
theorem completion_stable {F F' : ForkCompletionFacts} {nowMs : UInt64}
    {limits : ForkActivationLimits} {g : Guarded ForkCompletionDecision}
    (hfree : CollisionFreeOn B {x | x ∈ F.streams ++ F'.streams})
    (hfences : SameFences F.advance F'.advance)
    (hsized : Sized F'.expectedResult F'.acceptedResult [])
    (hdecide : decideForkCompletion B F limits = .ok g)
    (hhold : guardsHold g (F'.guards B) nowMs = true) : decideForkCompletion B F' limits = .ok g ∧
      ∀ limits' g', decideForkCompletion B F' limits' = .ok g' → g'.decision = g.decision := by
  obtain rfl := eq_of_guardsHold hfree hfences hsized hdecide hhold
  refine ⟨hdecide, fun limits' g' hdecide' => ?_⟩
  obtain ⟨-, d, hd, rfl⟩ := decideForkCompletion_eq_ok.1 hdecide
  obtain ⟨-, d', hd', rfl⟩ := decideForkCompletion_eq_ok.1 hdecide'
  exact Except.ok.inj (hd'.symm.trans hd)

end Agreement

/-! ### The system -/

/-- What the host keeps for one accepted fork. -/
structure ForkWorld where
  lifecycle : ForkLifecycleProtection
  advance : ForkAdvanceFacts
  expectedResult : ForkResult
  acceptedResult : Option ForkResult
  inheritedPacks : List Hash
  live : Hash → Option ForkWitness
  published : Hash → Option ForkWitness
  denial : Hash → Revision
  /-- The packs that workers installed, the last one first. -/
  installed : List Hash

namespace ForkWorld

/-- Activation facts that describe a world. -/
structure Shows (w : ForkWorld) (facts : ForkActivationFacts) : Prop where
  lifecycle : facts.lifecycle = w.lifecycle
  advance : facts.advance = w.advance
  expected : facts.expectedResult = w.expectedResult
  accepted : facts.acceptedResult = w.acceptedResult
  packs : facts.inheritedPacks = w.inheritedPacks
  live : facts.unit.live = w.live facts.unit.pack
  published : facts.unit.published = w.published facts.unit.pack
  denial : ∀ proof ∈ facts.proof, proof.denialRevision = w.denial proof.pack
  sized : Sized facts.expectedResult facts.acceptedResult facts.inheritedPacks

/-- Completion facts that describe a world. -/
structure ShowsCompletion (w : ForkWorld) (facts : ForkCompletionFacts) : Prop where
  lifecycle : facts.lifecycle = w.lifecycle
  advance : facts.advance = w.advance
  expected : facts.expectedResult = w.expectedResult
  accepted : facts.acceptedResult = w.acceptedResult
  sized : Sized facts.expectedResult facts.acceptedResult []

/-- Apply an activation: an installation writes both rows, and nothing else writes. -/
def activate (w : ForkWorld) (unit : ForkMembershipUnit) : ForkActivationDecision → ForkWorld
  | .install =>
    { w with
      live := Function.update w.live unit.pack (some unit.expected)
      published := Function.update w.published unit.pack (some unit.expected)
      installed := unit.pack :: w.installed }
  | _ => w

/-- Apply a completion at a new revision of the job. -/
def complete (w : ForkWorld) (facts : ForkCompletionFacts) (revision : Revision) :
    ForkCompletionDecision → ForkWorld
  | .complete =>
    { w with
      advance :=
        { w.advance with
          progress := ⟨.complete, facts.completedCursor, facts.completedPart, revision⟩ } }
  | _ => w

/-- What may happen between commits: everything may change, foreign rows included, but no row of
an installed pack is removed and a completed job stays completed. -/
structure Changes (w w' : ForkWorld) : Prop where
  installed : w'.installed = w.installed
  live : ∀ pack ∈ w.installed, w'.live pack = none → w.live pack = none
  published : ∀ pack ∈ w.installed, w'.published pack = none → w.published pack = none
  completed : w.advance.progress.phase = .complete → w'.advance.progress.phase = .complete

end ForkWorld

/-- What happens in a run. A commit carries the facts that were decided on, the facts acquired
at the commit and the time of the commit. -/
inductive ForkEvent where
  | activation (facts fresh : ForkActivationFacts) (nowMs : UInt64)
      (decision : ForkActivationDecision)
  | completion (facts fresh : ForkCompletionFacts) (nowMs : UInt64)
      (decision : ForkCompletionDecision)
  | change

/-- The input streams of the commitments that an event compares. -/
def ForkEvent.streams : ForkEvent → List Bytes
  | .activation facts fresh _ _ => facts.streams ++ fresh.streams
  | .completion facts fresh _ _ => facts.streams ++ fresh.streams
  | .change => []

/-- The pack an event installs. -/
def ForkEvent.installs : ForkEvent → List Hash
  | .activation facts _ _ .install => [facts.unit.pack]
  | _ => []

/-- An event installs one pack at most. -/
theorem ForkEvent.reverse_installs (event : ForkEvent) : event.installs.reverse = event.installs := by
  cases event with
  | activation facts fresh nowMs decision => cases decision <;> rfl
  | _ => rfl

/-- One event: the commit of a decision, made at any time and on any facts, whose guards hold on
facts that describe the world; or a change. -/
inductive Step (B : Blake3) : ForkWorld → ForkEvent → ForkWorld → Prop
  | activation {w : ForkWorld} {facts fresh : ForkActivationFacts} {decidedMs nowMs : UInt64}
      {limits : ForkActivationLimits} {g : Guarded ForkActivationDecision}
      (hdecide : decideForkActivation B facts decidedMs limits = .ok g)
      (hfences : SameFences facts.advance fresh.advance) (hshows : w.Shows fresh)
      (hhold : guardsHold g (fresh.guards B) nowMs = true) :
      Step B w (.activation facts fresh nowMs g.decision) (w.activate facts.unit g.decision)
  | completion {w : ForkWorld} {facts fresh : ForkCompletionFacts} {nowMs : UInt64}
      {limits : ForkActivationLimits} {g : Guarded ForkCompletionDecision} (revision : Revision)
      (hdecide : decideForkCompletion B facts limits = .ok g)
      (hfences : SameFences facts.advance fresh.advance) (hshows : w.ShowsCompletion fresh)
      (hhold : guardsHold g (fresh.guards B) nowMs = true) :
      Step B w (.completion facts fresh nowMs g.decision) (w.complete facts revision g.decision)
  | change {w w' : ForkWorld} (hchanges : w.Changes w') : Step B w .change w'

/-! ### One installation -/

/-- The rows of a world, which only installations and foreign changes write. -/
def ForkWorld.SameRows (w w' : ForkWorld) : Prop :=
  w'.live = w.live ∧ w'.published = w.published

/-- An installation that is safe: over absent rows, both together and nothing else, of a pack in
the inventory of the accepted result, while the authority and the epoch are the recorded ones,
the lifecycle is available, and the proof is for this pack of this job, has not run out, and was
acquired under the current denial revision. -/
structure Installs (B : Blake3) (w : ForkWorld) (unit : ForkMembershipUnit)
    (proof : Option ForkClearanceProof) (nowMs : UInt64) (w' : ForkWorld) : Prop where
  absent : w.live unit.pack = none ∧ w.published unit.pack = none
  together : w'.live unit.pack = some unit.expected ∧ w'.published unit.pack = some unit.expected
  others : ∀ pack, pack ≠ unit.pack →
    w'.live pack = w.live pack ∧ w'.published pack = w.published pack
  accepted : w.advance.progress.phase = .accepted ∧ w.acceptedResult = some w.expectedResult
  inventory : unit.pack ∈ w.inheritedPacks ∧
    w.inheritedPacks.length = w.expectedResult.packs.toNat ∧
    inventoryDigest B w.inheritedPacks = w.expectedResult.packDigest
  authority : w.advance.recordedAuthority = w.advance.authority ∧
    ∀ epoch ∈ w.advance.grantEpoch, epoch.recorded = epoch.current
  lifecycle : lifecycleAvailable w.lifecycle = .ok true
  proof : ∃ p ∈ proof, p.destination = w.advance.destination ∧ p.binding = w.advance.binding ∧
    p.progressRevision = w.advance.progress.revision ∧ p.pack = unit.pack ∧
    nowMs ≤ p.validThroughMs ∧ p.denialRevision = w.denial unit.pack

/-- What an event does to the rows. -/
def Safe (B : Blake3) (w : ForkWorld) : ForkEvent → ForkWorld → Prop
  | .activation facts fresh nowMs .install, w' => Installs B w facts.unit fresh.proof nowMs w'
  | .change, _ => True
  | _, w' => w.SameRows w'

section Installation

variable {B : Blake3}

theorem decideForkAuthority_eq_none {recorded current : ForkObservation}
    {epoch : Option ForkEpochFence} (h : decideForkAuthority recorded current epoch = none) :
    recorded = current ∧ ∀ e ∈ epoch, e.recorded = e.current := by
  rw [decideForkAuthority] at h
  split_ifs at h with hmoved hepoch
  refine ⟨not_not.1 hmoved, ?_⟩
  rintro e rfl
  simpa using hepoch

variable {F : ForkActivationFacts}

/-- Past the early answers a job is accepted with its result, and no fence has moved. -/
theorem earlyActivation_eq_none {nowMs : UInt64} (h : earlyActivation B F nowMs = none) :
    (F.advance.progress.phase = .accepted ∧ F.acceptedResult = some F.expectedResult) ∧
      F.advance.recordedAuthority = F.advance.authority ∧
      ∀ e ∈ F.advance.grantEpoch, e.recorded = e.current := by
  rw [earlyActivation] at h
  split_ifs at h with hearly
  rw [not_or, not_not, not_not] at hearly
  refine ⟨hearly, decideForkAuthority_eq_none ?_⟩
  simp only [decideForkAdvance, sealed, forkAdvance, hearly.1, reduceCtorEq, false_and, or_self,
    if_false] at h
  cases hauthority : decideForkAuthority F.advance.recordedAuthority F.advance.authority
      F.advance.grantEpoch with
  | none => rfl
  | some reason =>
    rw [hauthority] at h
    cases h

/-- An installation is decided over two absent rows. -/
theorem decideUnit_eq_install (h : decideUnit F = .ok .install) :
    F.unit.live = none ∧ F.unit.published = none := by
  simp only [decideUnit, Wire.bind_eq_ok] at h
  obtain ⟨⟨⟩, -, h⟩ := h
  split_ifs at h with hreplay habsent <;> first | exact habsent | cases h

theorem checkActivationInventory_eq_ok
    (h : checkActivationInventory B F = .ok ()) : F.unit.pack ∈ F.inheritedPacks ∧
      F.inheritedPacks.length = F.expectedResult.packs.toNat ∧
      inventoryDigest B F.inheritedPacks = F.expectedResult.packDigest := by
  simp only [checkActivationInventory, Wire.bind_eq_ok, refuseIf_eq_ok, not_or, not_not] at h
  obtain ⟨⟨⟩, -, -, hlength, hdigest, hpack⟩ := h
  exact ⟨hpack, hlength, hdigest⟩

theorem checkProof_eq_ok {p : ForkClearanceProof} {nowMs : UInt64}
    (h : checkProof F p nowMs = .ok ()) : p.destination = F.advance.destination ∧
      p.binding = F.advance.binding ∧ p.progressRevision = F.advance.progress.revision ∧
      p.pack = F.unit.pack ∧ nowMs ≤ p.validThroughMs := by
  simp only [checkProof, Wire.bind_eq_ok, refuseIf_eq_ok, not_or, not_not] at h
  obtain ⟨⟨⟩, ⟨hdestination, hbinding, hrevision, hpack⟩, hnow⟩ := h
  exact ⟨hdestination, hbinding, hrevision, hpack, UInt64.not_lt.1 hnow⟩

/-- Facts that describe the world and on which an installation would be decided at the commit
make it safe. -/
theorem installs_of_activated {w : ForkWorld} {fresh : ForkActivationFacts} {nowMs : UInt64}
    {bound : Option UInt64} (hshows : w.Shows fresh) (h : Activated B fresh nowMs .install bound) :
    Installs B w fresh.unit fresh.proof nowMs (w.activate fresh.unit .install) := by
  cases h with
  | early hearly =>
    rw [earlyActivation] at hearly
    split_ifs at hearly
    · cases hearly
    · split at hearly <;> cases hearly
  | decided hearly hlifecycle hinventory hproof hchecked hunit =>
    obtain ⟨hlive, hpublished⟩ := decideUnit_eq_install hunit
    obtain ⟨⟨hphase, haccepted⟩, hauthority, hepoch⟩ := earlyActivation_eq_none hearly
    obtain ⟨hdestination, hbinding, hrevision, hpack, hnow⟩ := checkProof_eq_ok hchecked
    have hinventory := checkActivationInventory_eq_ok hinventory
    refine ⟨⟨?_, ?_⟩, ⟨?_, ?_⟩, fun pack hne => ⟨?_, ?_⟩, ⟨?_, ?_⟩, ?_, ⟨?_, ?_⟩, ?_,
      ⟨_, hproof, ?_, ?_, ?_, hpack, hnow, ?_⟩⟩
    · rw [← hshows.live, hlive]
    · rw [← hshows.published, hpublished]
    · exact Function.update_self ..
    · exact Function.update_self ..
    · exact Function.update_of_ne hne ..
    · exact Function.update_of_ne hne ..
    · rw [← hshows.advance, hphase]
    · rw [← hshows.accepted, ← hshows.expected, haccepted]
    · rwa [← hshows.packs, ← hshows.expected]
    · rw [← hshows.advance, hauthority]
    · rwa [← hshows.advance]
    · rw [← hshows.lifecycle, hlifecycle]
    · rw [← hshows.advance, hdestination]
    · rw [← hshows.advance, hbinding]
    · rw [← hshows.advance, hrevision]
    · rw [hshows.denial _ hproof, hpack]

/-- **Every step is safe.** -/
theorem Step.safe {w w' : ForkWorld} {event : ForkEvent} (h : Step B w event w')
    (hfree : CollisionFreeOn B {x | x ∈ event.streams}) : Safe B w event w' := by
  cases h with
  | @activation facts fresh decidedMs nowMs limits g hdecide hfences hshows hhold =>
    obtain ⟨hsame, bound, hactivated, -⟩ :=
      same_of_guardsHold hfree hfences hshows.sized hdecide hhold
    cases hdecision : g.decision with
    | install =>
      rw [hdecision] at hactivated
      rw [Safe, hsame.unit]
      exact installs_of_activated hshows hactivated
    | _ => exact ⟨rfl, rfl⟩
  | @completion facts fresh nowMs limits g revision hdecide hfences hshows hhold =>
    cases g.decision <;> exact ⟨rfl, rfl⟩
  | change hchanges => trivial

end Installation

/-! ### Whole runs -/

/-- The rows of the installed packs are present, and each was installed once. -/
structure ForkWorld.Wf (w : ForkWorld) : Prop where
  live : ∀ pack ∈ w.installed, w.live pack ≠ none
  published : ∀ pack ∈ w.installed, w.published pack ≠ none
  nodup : w.installed.Nodup

section Runs

variable {B : Blake3}

variable {w w' : ForkWorld} {event : ForkEvent}

/-- A step records what it installs. -/
theorem Step.installed (h : Step B w event w') : w'.installed = event.installs ++ w.installed := by
  cases h with
  | @activation facts fresh decidedMs nowMs limits g hdecide hfences hshows hhold =>
    cases g.decision <;> rfl
  | @completion facts fresh nowMs limits g revision hdecide hfences hshows hhold =>
    cases g.decision <;> rfl
  | change hchanges => exact hchanges.installed

theorem ForkWorld.Wf.installs {unit : ForkMembershipUnit}
    {proof : Option ForkClearanceProof} {nowMs : UInt64} (hwf : w.Wf)
    (h : Installs B w unit proof nowMs w') (hinstalled : w'.installed = unit.pack :: w.installed) :
    w'.Wf := by
  have hnew : unit.pack ∉ w.installed := fun hold => hwf.live _ hold h.absent.1
  refine ⟨?_, ?_, hinstalled ▸ List.nodup_cons.2 ⟨hnew, hwf.nodup⟩⟩
  · rw [hinstalled, List.forall_mem_cons, h.together.1]
    refine ⟨by simp, fun pack hpack => ?_⟩
    rw [(h.others pack fun heq => hnew (heq ▸ hpack)).1]
    exact hwf.live pack hpack
  · rw [hinstalled, List.forall_mem_cons, h.together.2]
    refine ⟨by simp, fun pack hpack => ?_⟩
    rw [(h.others pack fun heq => hnew (heq ▸ hpack)).2]
    exact hwf.published pack hpack

theorem ForkWorld.Wf.sameRows (hwf : w.Wf) (h : w.SameRows w')
    (hinstalled : w'.installed = w.installed) : w'.Wf := by
  refine ⟨?_, ?_, hinstalled ▸ hwf.nodup⟩
  · rw [hinstalled, h.1]
    exact hwf.live
  · rw [hinstalled, h.2]
    exact hwf.published

theorem ForkWorld.Wf.step (hwf : w.Wf)
    (h : Step B w event w') (hfree : CollisionFreeOn B {x | x ∈ event.streams}) : w'.Wf := by
  have hsafe := h.safe hfree
  have hinstalled := h.installed
  cases event with
  | activation facts fresh nowMs decision =>
    cases decision with
    | install => exact hwf.installs hsafe hinstalled
    | _ => exact hwf.sameRows hsafe hinstalled
  | completion facts fresh nowMs decision => exact hwf.sameRows hsafe hinstalled
  | change =>
    cases h with
    | change hchanges =>
      refine ⟨?_, ?_, hchanges.installed ▸ hwf.nodup⟩
      · rw [hchanges.installed]
        exact fun pack hpack hnone => hwf.live pack hpack (hchanges.live pack hpack hnone)
      · rw [hchanges.installed]
        exact fun pack hpack hnone =>
          hwf.published pack hpack (hchanges.published pack hpack hnone)

/-- No step leaves a completed job, and none installs in it. -/
theorem Step.completed (h : Step B w event w') (hfree : CollisionFreeOn B {x | x ∈ event.streams})
    (hphase : w.advance.progress.phase = .complete) :
    w'.advance.progress.phase = .complete ∧ event.installs = [] := by
  have hsafe := h.safe hfree
  cases h with
  | @activation facts fresh decidedMs nowMs limits g hdecide hfences hshows hhold =>
    cases hdecision : g.decision with
    | install =>
      rw [hdecision] at hsafe
      have haccepted := hsafe.accepted.1
      rw [hphase] at haccepted
      cases haccepted
    | _ => exact ⟨hphase, rfl⟩
  | @completion facts fresh nowMs limits g revision hdecide hfences hshows hhold =>
    cases g.decision with
    | complete => exact ⟨rfl, rfl⟩
    | _ => exact ⟨hphase, rfl⟩
  | change hchanges => exact ⟨hchanges.completed hphase, rfl⟩

/-- Streams of a run without collisions have none in its parts. -/
theorem collisionFree_parts {past later : List ForkEvent}
    (h : CollisionFreeOn B {x | x ∈ (past ++ event :: later).flatMap ForkEvent.streams}) :
    CollisionFreeOn B {x | x ∈ past.flatMap ForkEvent.streams} ∧
      CollisionFreeOn B {x | x ∈ event.streams} ∧
      CollisionFreeOn B {x | x ∈ later.flatMap ForkEvent.streams} := by
  simp only [List.flatMap_append, List.flatMap_cons, List.mem_append] at h
  exact ⟨Set.InjOn.mono (fun x hx => .inl hx) h, Set.InjOn.mono (fun x hx => .inr (.inl hx)) h,
    Set.InjOn.mono (fun x hx => .inr (.inr hx)) h⟩

variable {tr : List ForkEvent}

/-- The invariant of a run along its trace. -/
theorem wf_of_run {w₀ : ForkWorld} (h : Lts.Run (Step B) w₀ tr w)
    (hwf : w₀.Wf) (hfree : CollisionFreeOn B {x | x ∈ tr.flatMap ForkEvent.streams}) :
    w.Wf ∧ w.installed = (tr.flatMap ForkEvent.installs).reverse ++ w₀.installed := by
  induction h with
  | nil => exact ⟨hwf, rfl⟩
  | @snoc w' w'' tr event hrun hstep ih =>
    obtain ⟨hpast, hevent, -⟩ := collisionFree_parts hfree
    obtain ⟨hwf', hinstalled⟩ := ih hpast
    refine ⟨hwf'.step hstep hevent, ?_⟩
    rw [hstep.installed, hinstalled, List.flatMap_append, List.flatMap_singleton,
      List.reverse_append, event.reverse_installs, List.append_assoc]

/-- After a completion nothing is installed. -/
theorem installs_of_completed
    (h : Lts.Run (Step B) w tr w') (hphase : w.advance.progress.phase = .complete)
    (hfree : CollisionFreeOn B {x | x ∈ tr.flatMap ForkEvent.streams}) :
    w'.advance.progress.phase = .complete ∧ tr.flatMap ForkEvent.installs = [] := by
  induction h with
  | nil => exact ⟨hphase, rfl⟩
  | @snoc v v' tr event hrun hstep ih =>
    obtain ⟨hpast, hevent, -⟩ := collisionFree_parts hfree
    obtain ⟨hphase', hnone⟩ := ih hpast
    obtain ⟨hphase'', hinstalls⟩ := hstep.completed hevent hphase'
    refine ⟨hphase'', ?_⟩
    rw [List.flatMap_append, hnone, List.flatMap_singleton, hinstalls, List.append_nil]

/-- A completion completes the job. -/
theorem Step.completes {facts fresh : ForkCompletionFacts} {nowMs : UInt64}
    (h : Step B w (.completion facts fresh nowMs .complete) w') :
    w'.advance.progress.phase = .complete := by
  generalize hdecision : ForkCompletionDecision.complete = d at h
  cases h with
  | completion revision hdecide hfences hshows hhold =>
    rw [← hdecision]
    rfl

/-- **Fork activation is safe under stale decisions.** In every run, from a world in which
nothing has been installed: every step is safe — a pack's rows are installed together, over
absent rows, only when all the conditions hold at the commit, and apart from foreign changes
nothing else writes a row; no pack is installed twice; and after a completion nothing is
installed. Whenever the guards of a decision hold on other facts with the same fences, deciding
on these gives the same decision. -/
theorem fork_activation_safe {w₀ w : ForkWorld} {tr : List ForkEvent}
    (hrun : Lts.Run (Step B) w₀ tr w) (hinstalled : w₀.installed = [])
    (hfree : CollisionFreeOn B {x | x ∈ tr.flatMap ForkEvent.streams}) :
    (∀ past event later, tr = past ++ event :: later → ∃ v v', Lts.Run (Step B) w₀ past v ∧
      Step B v event v' ∧ Lts.Run (Step B) v' later w ∧ Safe B v event v') ∧
    (tr.flatMap ForkEvent.installs).Nodup ∧
    (∀ past facts fresh nowMs later, tr = past ++ .completion facts fresh nowMs .complete :: later →
      later.flatMap ForkEvent.installs = []) ∧
    (∀ (F F' : ForkActivationFacts) decidedMs nowMs limits g,
      CollisionFreeOn B {x | x ∈ F.streams ++ F'.streams} → SameFences F.advance F'.advance →
      Sized F'.expectedResult F'.acceptedResult F'.inheritedPacks →
      decideForkActivation B F decidedMs limits = .ok g →
      guardsHold g (F'.guards B) nowMs = true →
      (∃ g', decideForkActivation B F' nowMs limits = .ok g' ∧ g'.decision = g.decision) ∧
        ∀ limits' g', decideForkActivation B F' nowMs limits' = .ok g' →
          g'.decision = g.decision) ∧
    ∀ (F F' : ForkCompletionFacts) nowMs limits g,
      CollisionFreeOn B {x | x ∈ F.streams ++ F'.streams} → SameFences F.advance F'.advance →
      Sized F'.expectedResult F'.acceptedResult [] →
      decideForkCompletion B F limits = .ok g → guardsHold g (F'.guards B) nowMs = true →
      decideForkCompletion B F' limits = .ok g ∧
        ∀ limits' g', decideForkCompletion B F' limits' = .ok g' → g'.decision = g.decision := by
  have hcut : ∀ past event later, tr = past ++ event :: later → ∃ v v',
      Lts.Run (Step B) w₀ past v ∧ Step B v event v' ∧ Lts.Run (Step B) v' later w := by
    rintro past event later rfl
    obtain ⟨v, hpast, hrest⟩ := hrun.split
    rw [← List.singleton_append] at hrest
    obtain ⟨v', hstep, hlater⟩ := hrest.split
    have hstep : Lts.Run (Step B) v ([] ++ [event]) v' := hstep
    obtain ⟨u, hnil, hstep⟩ := hstep.snoc_inv
    rw [hnil.eq_of_nil] at hstep
    exact ⟨v, v', hpast, hstep, hlater⟩
  refine ⟨?_, ?_, ?_, ?_, ?_⟩
  · rintro past event later rfl
    obtain ⟨v, v', hpast, hstep, hlater⟩ := hcut past event later rfl
    obtain ⟨-, hevent, -⟩ := collisionFree_parts hfree
    exact ⟨v, v', hpast, hstep, hlater, hstep.safe hevent⟩
  · have hwf : w₀.Wf := by constructor <;> simp [hinstalled]
    obtain ⟨hwf', htrace⟩ := wf_of_run hrun hwf hfree
    rw [hinstalled, List.append_nil] at htrace
    exact List.nodup_reverse.1 (htrace ▸ hwf'.nodup)
  · rintro past facts fresh nowMs later rfl
    obtain ⟨v, v', -, hstep, hlater⟩ := hcut past _ later rfl
    obtain ⟨-, -, hstreams⟩ := collisionFree_parts hfree
    exact (installs_of_completed hlater hstep.completes hstreams).2
  · exact fun F F' decidedMs nowMs limits g => activation_stable
  · exact fun F F' nowMs limits g => completion_stable

end Runs

/-! ### A run -/

/-- The one pack of the sample fork, which is also its packmap. -/
def samplePack : Hash :=
  ByteArr.fill HASH_LEN 1

def sampleResult : ForkResult where
  branch := ascii "main".toList
  source := ZERO
  sourceSequence := 1
  tip := ZERO
  packmap := samplePack
  packs := 1
  bytes := 10
  indexEntries := 0
  packDigest := inventoryDigest toyBlake3 [samplePack]
  destinationGeneration := ZERO

def sampleAdvance : ForkAdvanceFacts where
  binding := ZERO
  destination := ZERO
  progress := ⟨.accepted, 0, 0, ZERO⟩
  recordedAuthority := .present ZERO
  authority := .present ZERO
  grantEpoch := some ⟨.absent, .absent⟩
  reservation := none
  constructionExpiresMs := 0

def sampleUnit : ForkMembershipUnit where
  pack := samplePack
  inheritedRevision := ZERO
  expected := ⟨ZERO, 0, true, false, true⟩
  live := none
  published := none
  context := .initial

def sampleActivation : ForkActivationFacts where
  lifecycle := .notOffered
  advance := sampleAdvance
  expectedResult := sampleResult
  acceptedResult := some sampleResult
  inheritedPacks := [samplePack]
  unit := sampleUnit
  proof := some ⟨ZERO, ZERO, ZERO, samplePack, ZERO, 10, ZERO⟩

def sampleCompletion : ForkCompletionFacts where
  lifecycle := .notOffered
  advance := sampleAdvance
  expectedResult := sampleResult
  acceptedResult := some sampleResult
  completedCursor := 1
  completedPart := 0
  completedPacks := 1
  completedDigest := sampleResult.packDigest
  expectedBarrierOwner := ZERO

/-- The accepted fork, with nothing installed. -/
def sampleWorld : ForkWorld where
  lifecycle := .notOffered
  advance := sampleAdvance
  expectedResult := sampleResult
  acceptedResult := some sampleResult
  inheritedPacks := [samplePack]
  live := fun _ => none
  published := fun _ => none
  denial := fun _ => ZERO
  installed := []

def sampleTrace : List ForkEvent :=
  [.activation sampleActivation sampleActivation 7 .install,
    .completion sampleCompletion sampleCompletion 8 .complete]

theorem sized_sample (packs : List Hash) (h : packs.length < 2 ^ 64) :
    Sized sampleResult (some sampleResult) packs where
  expected := by decide
  accepted := by
    rintro r ⟨⟩
    decide
  packs := h

/-- A worker that decided at 5 installs the pack at 7, and another one completes the job. -/
theorem run_sample : ∃ w, Lts.Run (Step toyBlake3) sampleWorld sampleTrace w ∧
    w.live samplePack = some sampleUnit.expected := by
  have hactivation : decideForkActivation toyBlake3 sampleActivation 5 ⟨64, 64, 1024⟩ =
      .ok (sealed ZERO .install (sampleActivation.guards toyBlake3) (some 10)) := by
    decide +kernel
  have hcompletion : decideForkCompletion toyBlake3 sampleCompletion ⟨64, 64, 1024⟩ =
      .ok (sealed ZERO .complete (sampleCompletion.guards toyBlake3) none) := by
    decide +kernel
  have hfirst : Step toyBlake3 sampleWorld
      (.activation sampleActivation sampleActivation 7 .install)
      (sampleWorld.activate sampleUnit .install) := by
    refine .activation hactivation ⟨rfl, rfl⟩ ⟨rfl, rfl, rfl, rfl, rfl, rfl, rfl, ?_, ?_⟩ ?_
    · rintro proof ⟨⟩
      rfl
    · exact sized_sample [samplePack] (by decide)
    · decide +kernel
  have hsecond : Step toyBlake3 (sampleWorld.activate sampleUnit .install)
      (.completion sampleCompletion sampleCompletion 8 .complete)
      ((sampleWorld.activate sampleUnit .install).complete sampleCompletion ZERO .complete) := by
    refine .completion ZERO hcompletion ⟨rfl, rfl⟩ ⟨rfl, rfl, rfl, rfl, ?_⟩ ?_
    · exact sized_sample [] (by decide)
    · decide +kernel
  have hlive : (sampleWorld.activate sampleUnit .install).live samplePack =
      some sampleUnit.expected := by
    simp [ForkWorld.activate, sampleUnit]
  exact ⟨_, ((Lts.Run.nil _).snoc hfirst).snoc hsecond, hlive⟩

/-- The sample run installs its pack once, and safely. -/
theorem fork_activation_safe_sample : ∃ w, Lts.Run (Step toyBlake3) sampleWorld sampleTrace w ∧
    w.live samplePack = some sampleUnit.expected ∧
    (sampleTrace.flatMap ForkEvent.installs).Nodup ∧
    ∃ v v', Step toyBlake3 v (.activation sampleActivation sampleActivation 7 .install) v' ∧
      Installs toyBlake3 v sampleUnit sampleActivation.proof 7 v' := by
  obtain ⟨w, hrun, hlive⟩ := run_sample
  have hfree : CollisionFreeOn toyBlake3 {x | x ∈ sampleTrace.flatMap ForkEvent.streams} := by
    decide +kernel
  obtain ⟨hsafe, hnodup, -⟩ := fork_activation_safe hrun rfl hfree
  obtain ⟨v, v', -, hstep, -, hinstalls⟩ := hsafe [] _ _ rfl
  exact ⟨w, hrun, hlive, hnodup, v, v', hstep, hinstalls⟩

end Mkit.Decision.Fork
