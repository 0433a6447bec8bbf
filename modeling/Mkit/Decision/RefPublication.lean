import Mkit.Decision.ClearanceGuards
import Mkit.Decision.RefDecide

/-!
# Publication of Accepted Refs

`decideRefPublication` (`ref_write/publication.rs`) decides the publication metadata that goes
with an accepted ref change: the next sequence, and the prefix, boundary and components it
publishes. Clearance makes the same transition over facts of its own (`decideClearance`), with
its own overflow and contiguity tests.

## Main results

* `publication_deciders_agree` — on the same prior publication and the same proposed change,
  whenever both deciders produce a next state, it is the same one.
-/

namespace Mkit.Decision

/-- An already verified publication intent; head and packmap are the live values that result. -/
structure RefPublication where
  repository : RepositoryId
  head : Option Hash
  packmap : Option Hash
  deleted : Bool
  publishable : Bool
  maxUnpublished : UInt64
deriving DecidableEq

/-- The publication before any acceptance. -/
def PublicationFact.initial : PublicationFact :=
  ⟨ZERO, 0, 0, 0, none, none⟩

/-- The publication row; an absent one is the initial state. -/
def publicationRow : Observed PublicationFact → PublicationFact
  | .absent _ => .initial
  | .present value _ => value

/-- The publication after a change took the next sequence. -/
def publishNext (request : RefPublication) (next : PublicationFact) : PublicationFact :=
  if request.deleted then
    -- A deletion clears components at once, and reveals none of an uncleared live advance.
    { next with
      deletionBoundary := next.sequence
      publishedPrefix := next.sequence
      head := optionAnd request.head next.head
      packmap := optionAnd request.packmap next.packmap }
  else if request.publishable ∧ Words.checkedAdd next.publishedPrefix 1 = some next.sequence then
    { next with
      publishedPrefix := next.sequence
      head := request.head
      packmap := request.packmap }
  else next

/-- The decision without its guard. A full backlog is a retry; a deletion bypasses it. -/
def publicationDecision (request : RefPublication) (next : PublicationFact) :
    Except Failure WriteDecision :=
  if !request.deleted ∧ request.maxUnpublished ≤ next.sequence - next.publishedPrefix then
    .ok (.retry .unavailable)
  else do
    let sequence ← okOr (failure .invalidResponse) (Words.checkedAdd next.sequence 1)
    return .apply { AcceptanceEffects.none with
      publication := [⟨request.repository, publishNext request { next with sequence }⟩] }

/-- Decide publication sequence, prefix, pair and deletion boundary. -/
def decideRefPublication (request : RefPublication) (observed : Observed PublicationFact) :
    Except Failure FencedDecision := do
  let next := publicationRow observed
  refuseIf (next.publishedPrefix < next.deletionBoundary ∨ next.sequence < next.publishedPrefix)
    (failure .invalidResponse)
  let decision ← publicationDecision request next
  return ⟨⟨request.repository, decision, [.publication request.repository observed]⟩, []⟩

/-! ### Agreement with clearance -/

/-- What a publication shows: the published prefix, the deletion boundary and the components. -/
structure Shown where
  publishedPrefix : UInt64
  deletionBoundary : UInt64
  head : Option Hash
  packmap : Option Hash
deriving DecidableEq

/-- What a publication row shows. -/
def PublicationFact.shown (row : PublicationFact) : Shown :=
  ⟨row.publishedPrefix, row.deletionBoundary, row.head, row.packmap⟩

/-- What the prior publication shows. -/
def PriorPublication.shown (prior : PriorPublication) : Shown :=
  ⟨prior.publishedPrefix, prior.deletionBoundary, prior.head, prior.packmap⟩

/-- What the publication shows after a clearance. -/
def ClearanceDecision.shown (prior : PriorPublication) : ClearanceDecision → Shown
  | .advancePrefix publishedPrefix head packmap deletionBoundary =>
    ⟨publishedPrefix, deletionBoundary, head, packmap⟩
  | .retain publishedPrefix => { prior.shown with publishedPrefix }

/-- The changed advance is in a publishable state and eligible. -/
def ClearanceFacts.publishable (facts : ClearanceFacts) : Bool :=
  match eligible facts.changed facts with
  | .ok isEligible => facts.changed.state.publishable && isEligible
  | .error _ => false

/-- A publication request and clearance facts about one prior publication and one change. -/
structure SameChange (request : RefPublication) (observed : Observed PublicationFact)
    (facts : ClearanceFacts) : Prop where
  sequence : facts.prior.sequence = (publicationRow observed).sequence
  shown : facts.prior.shown = (publicationRow observed).shown
  head : request.head = facts.changed.head
  packmap : request.packmap = facts.changed.packmap
  deleted : request.deleted = facts.deleted
  publishable : request.publishable = facts.publishable

/-- The next publication of an applied decision. -/
theorem publication_of_decide {request : RefPublication} {observed : Observed PublicationFact}
    {decided : FencedDecision} {effects : AcceptanceEffects}
    (h : decideRefPublication request observed = .ok decided)
    (happly : decided.guarded.decision = .apply effects) :
    (publicationRow observed).publishedPrefix ≤ (publicationRow observed).sequence ∧
      ∃ sequence : UInt64, sequence.toNat = (publicationRow observed).sequence.toNat + 1 ∧
        effects.publication = [⟨request.repository,
          publishNext request { publicationRow observed with sequence }⟩] := by
  unfold decideRefPublication at h
  obtain ⟨hrow, h⟩ := refuseIf_bind_eq_ok.1 h
  obtain ⟨decision, hdecision, h⟩ := Wire.bind_eq_ok.1 h
  obtain rfl := Except.ok.inj h
  obtain rfl : decision = .apply effects := happly
  refine ⟨UInt64.not_lt.1 fun hlt => hrow (.inr hlt), ?_⟩
  rw [publicationDecision] at hdecision
  split_ifs at hdecision with hfull
  · cases hdecision
  obtain ⟨sequence, hsequence, hdecision⟩ := Wire.bind_eq_ok.1 hdecision
  rw [okOr_eq_ok, Words.checkedAdd_eq_some] at hsequence
  cases hdecision
  exact ⟨sequence, hsequence, rfl⟩

/-- A ready advance is a publishable one. -/
theorem publishable_of_ready {facts : ClearanceFacts} {isReady : Bool}
    (h : ready facts = .ok isReady) : facts.publishable = isReady := by
  rw [ready] at h
  rw [ClearanceFacts.publishable]
  split_ifs at h with hstate
  · simp only [h, hstate, Bool.true_and]
  · obtain rfl := Except.ok.inj h
    rw [Bool.not_eq_true] at hstate
    cases eligible facts.changed facts with
    | error e => rfl
    | ok b => simp only [hstate, Bool.false_and]

/-- Saturating and checked counting meet at the next sequence. -/
theorem saturatingAdd_eq_iff {p s : UInt64} {n : ℕ} (hs : s.toNat = n + 1) (hp : p.toNat ≤ n) :
    Words.saturatingAdd p 1 = s ↔ Words.checkedAdd p 1 = some s := by
  have hlt := s.toNat_lt
  have hone : (1 : UInt64).toNat = 1 := rfl
  rw [Words.checkedAdd_eq_some, ← UInt64.toNat_inj, Words.toNat_saturatingAdd]
  omega

/-- A deletion publishes its own sequence with the components that survive. -/
theorem shown_of_deletion {facts : ClearanceFacts} {d : ClearanceDecision}
    (h : deletion facts = .ok d) : ∃ sequence : UInt64,
      sequence.toNat = facts.prior.sequence.toNat + 1 ∧ d.shown facts.prior = ⟨sequence, sequence,
        optionAnd facts.changed.head facts.prior.head,
        optionAnd facts.changed.packmap facts.prior.packmap⟩ := by
  simp only [deletion, Wire.bind_eq_ok, refuseIf_eq_ok, okOr_eq_ok, Words.checkedAdd_eq_some] at h
  obtain ⟨sequence, hsequence, -, -, h⟩ := h
  obtain rfl := Except.ok.inj h
  exact ⟨sequence, hsequence, rfl⟩

/-- An acceptance publishes its advance when that is publishable and the prefix was complete. -/
theorem shown_of_acceptance {facts : ClearanceFacts} {d : ClearanceDecision}
    (hle : facts.prior.publishedPrefix ≤ facts.prior.sequence) (h : acceptance facts = .ok d) :
    ∃ sequence : UInt64, sequence.toNat = facts.prior.sequence.toNat + 1 ∧
      d.shown facts.prior = if facts.publishable = true ∧
          Words.checkedAdd facts.prior.publishedPrefix 1 = some sequence then
        ⟨sequence, facts.prior.deletionBoundary, facts.changed.head, facts.changed.packmap⟩
        else facts.prior.shown := by
  simp only [acceptance, Wire.bind_eq_ok, refuseIf_eq_ok, okOr_eq_ok, Words.checkedAdd_eq_some]
    at h
  obtain ⟨sequence, hsequence, -, -, isReady, hready, h⟩ := h
  have hcount := saturatingAdd_eq_iff hsequence (UInt64.le_iff_toNat_le.1 hle)
  refine ⟨sequence, hsequence, ?_⟩
  simp only [publishable_of_ready hready, ← hcount]
  obtain rfl := Except.ok.inj h
  by_cases hpublish : isReady = true ∧
      Words.saturatingAdd facts.prior.publishedPrefix 1 = sequence
  · rw [if_pos hpublish, if_pos hpublish]
    rfl
  · rw [if_neg hpublish, if_neg hpublish]
    rfl

/-- **The two publication deciders agree.** From one prior publication and for one proposed
change, at acceptance or for a deletion, the publication that an applied publication decision
writes shows what the publication shows after the clearance: the same prefix, deletion boundary,
head and packmap. -/
theorem publication_deciders_agree {B : Blake3} {request : RefPublication}
    {observed : Observed PublicationFact} {facts : ClearanceFacts} {limits : ClearanceLimits}
    {decided : FencedDecision} {effects : AcceptanceEffects} {cleared : Guarded ClearanceDecision}
    (hsame : SameChange request observed facts)
    (hmoment : facts.moment = .acceptance ∨ facts.deleted = true)
    (hpublication : decideRefPublication request observed = .ok decided)
    (happly : decided.guarded.decision = .apply effects)
    (hclearance : decideClearance B facts limits = .ok cleared) :
    ∃ next, effects.publication = [⟨request.repository, next⟩] ∧
      next.shown = cleared.decision.shown facts.prior := by
  obtain ⟨hle, sequence, hsequence, hnext⟩ := publication_of_decide hpublication happly
  refine ⟨_, hnext, ?_⟩
  simp only [decideClearance, clearance, Wire.bind_eq_ok] at hclearance
  obtain ⟨d, ⟨⟨⟩, -, hd⟩, hcleared⟩ := hclearance
  obtain rfl := Except.ok.inj hcleared
  have hunique : ∀ s : UInt64, s.toNat = facts.prior.sequence.toNat + 1 → s = sequence := by
    intro s hs
    rw [hsame.sequence] at hs
    exact UInt64.toNat_inj.1 (hs.trans hsequence.symm)
  obtain ⟨hpublished, hboundary, hhead, hpackmap⟩ : facts.prior.publishedPrefix = _ ∧
      facts.prior.deletionBoundary = _ ∧ facts.prior.head = _ ∧ facts.prior.packmap = _ := by
    simpa only [PriorPublication.shown, PublicationFact.shown, Shown.mk.injEq] using hsame.shown
  cases hdeleted : facts.deleted with
  | true =>
    rw [if_pos hdeleted] at hd
    obtain ⟨s, hs, hshown⟩ := shown_of_deletion hd
    obtain rfl := hunique s hs
    rw [hshown, publishNext, if_pos (hsame.deleted.trans hdeleted), hsame.head, hsame.packmap,
      hhead, hpackmap]
    rfl
  | false =>
    have hacceptance : facts.moment = .acceptance := hmoment.resolve_right (by simp [hdeleted])
    rw [if_neg (by simp [hdeleted]), if_pos hacceptance] at hd
    obtain ⟨s, hs, hshown⟩ := shown_of_acceptance (by rw [hpublished, hsame.sequence]; exact hle) hd
    obtain rfl := hunique s hs
    rw [hshown, publishNext, if_neg (by simp [hsame.deleted, hdeleted]), hsame.publishable]
    dsimp only
    rw [hpublished]
    split_ifs with hpublish
    · rw [hboundary, ← hsame.head, ← hsame.packmap]
      rfl
    · rw [hsame.shown]
      rfl

/-- The first acceptance of a ref, for which no publication row exists: its only advance is
cleared, and its dependency published. -/
theorem publication_deciders_agree_first : ∃ next, next.shown = ⟨1, 0, some ZERO, none⟩ ∧
      decideRefPublication ⟨ZERO, some ZERO, none, false, true, 8⟩ (.absent ZERO) = .ok
        ⟨⟨ZERO, .apply { AcceptanceEffects.none with publication := [⟨ZERO, next⟩] },
          [.publication ZERO (.absent ZERO)]⟩, []⟩ := by
  have hclearance : decideClearance toyBlake3 (dependentFacts [publishedWitness 1]) ⟨64, 16, 64⟩ =
      .ok ⟨ZERO, .advancePrefix 1 (some ZERO) none 0,
        (dependentFacts [publishedWitness 1]).guards toyBlake3⟩ := by
    decide +kernel
  have hpublication : decideRefPublication ⟨ZERO, some ZERO, none, false, true, 8⟩ (.absent ZERO) =
      .ok ⟨⟨ZERO, .apply { AcceptanceEffects.none with
          publication := [⟨ZERO, ⟨ZERO, 1, 1, 0, some ZERO, none⟩⟩] },
        [.publication ZERO (.absent ZERO)]⟩, []⟩ := by
    decide +kernel
  have hsame : SameChange ⟨ZERO, some ZERO, none, false, true, 8⟩ (.absent ZERO)
      (dependentFacts [publishedWitness 1]) :=
    ⟨rfl, rfl, rfl, rfl, rfl, by decide +kernel⟩
  obtain ⟨next, hnext, hshown⟩ :=
    publication_deciders_agree hsame (.inl rfl) hpublication rfl hclearance
  cases hnext
  exact ⟨_, hshown, hpublication⟩

end Mkit.Decision
