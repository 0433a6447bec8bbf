import Mkit.Decision.RefAnswers
import Mkit.Decision.TicketGuards

/-!
# The Effects of a Ticketed Advance

The checks of an advance answer with decisions that touch no ticket and no reservation. The rest
of an advance is taken apart here: which decisions remain (`drive_cases`), and for an accepted
advance which rows its effects overwrite and which guards stand for them.
-/

namespace Mkit.Decision

open Guarding

/-! ### Silent answers -/

/-- A decision that touches no ticket and no reservation. -/
def WriteDecision.isSilent : WriteDecision → Bool
  | .conflict _ _ none | .reject _ _ none | .returnRecorded _ | .retry _ => true
  | _ => false

/-- A check whose answers are silent. -/
def Quiet (m : Attempt (Option WriteDecision)) : Prop :=
  ∀ s gs d out, m s gs = .ok (some d, out) → d.isSilent = true

section Quiet

variable {m : Attempt (Option WriteDecision)}

variable {req : RefWriteRequest} {d : WriteDecision}

theorem PlainAnswer.isSilent (h : PlainAnswer req d) : d.isSilent = true := by
  cases h <;> rfl

theorem Answers.quiet {limits : RefDecisionLimits} (h : Answers req limits m) : Quiet m :=
  fun s gs d out hrun => (h.plain s gs d out hrun).isSilent

variable (req : RefWriteRequest) (limits : RefDecisionLimits)

/-- The refs answer silently, or apply exactly the changes of the request. -/
theorem refs_cases {s : Snapshot} {gs out : List RequiredGuard}
    (h : refs req limits s gs = .ok (d, out)) :
    d.isSilent = true ∨ d = .apply (refEffects req) := by
  cases refAnswer_of_refs req limits h with
  | plain d hd => exact .inl hd.isSilent
  | conflict before change after o => exact .inl rfl
  | apply => exact .inr rfl

end Quiet

/-! ### Effects -/

namespace AcceptanceEffects

variable (effects : AcceptanceEffects) (repository : RepositoryId) (pack : PackSource)

@[simp] theorem join_reservations :
    (effects.join repository pack).reservations = effects.reservations := by
  rw [join]
  split_ifs
  · rfl
  · rfl

@[simp] theorem join_outcomes : (effects.join repository pack).outcomes = effects.outcomes := by
  rw [join]
  split_ifs
  · rfl
  · rfl

@[simp] theorem join_tickets : (effects.join repository pack).tickets = effects.tickets := by
  rw [join]
  split_ifs
  · rfl
  · rfl

@[simp] theorem join_reservationTransitions :
    (effects.join repository pack).reservationTransitions = effects.reservationTransitions := by
  rw [join]
  split_ifs
  · rfl
  · rfl

@[simp] theorem join_storage : (effects.join repository pack).storage = effects.storage := by
  rw [join]
  split_ifs
  · rfl
  · rfl

/-- Every settlement is delivered as a durable outcome. -/
def Delivered (operation : OperationId) : Prop :=
  effects.outcomes = effects.reservations.map fun outcome =>
    ⟨operation, outcome.id, outcome.terminal⟩

variable {effects} {operation : OperationId}

theorem Delivered.settle (h : effects.Delivered operation) (id : ReservationId)
    (terminal : ReservationTerminal) : (effects.settle operation id terminal).Delivered operation := by
  have houtcomes : effects.outcomes = _ := h
  rw [Delivered, AcceptanceEffects.settle, houtcomes, List.map_append, List.map_singleton]

end AcceptanceEffects

/-! ### The rows of an advance -/

section Advance

variable (request : TicketedAdvanceRequest) (limits : RefDecisionLimits)
variable {s : Snapshot} {gs out : List RequiredGuard}

/-- The pending row of a request is guarded. -/
def PendingGuarded (guards : List RequiredGuard) : Prop :=
  ∀ pending ∈ request.pending, ∃ o, isPending o = true ∧
    .reservation pending.reservation o ∈ guards

theorem PendingGuarded.mono (h : PendingGuarded request gs) (hsub : gs ⊆ out) :
    PendingGuarded request out := by
  intro pending hpending
  obtain ⟨o, ho, hmem⟩ := h pending hpending
  exact ⟨o, ho, hsub hmem⟩

/-- When the pending check does not answer, the pending row is a guarded pending row. -/
theorem pendingGuarded_of_run (h : pendingCheck request limits s gs = .ok (none, out)) :
    PendingGuarded request out := by
  intro pending hpending
  rw [pendingCheck, hpending] at h
  obtain ⟨o, mid, hfetch, h⟩ := bind_run.1 h
  obtain ⟨u, later, hadd, h⟩ := bind_run.1 h
  obtain ⟨u', last, hrefuse, h⟩ := bind_run.1 h
  obtain ⟨hexpected, rfl⟩ := lift_run.1 hrefuse
  rw [refuseIf_eq_ok, not_not] at hexpected
  split_ifs at h with heq
  · exact absurd ((pure_run _ _).1 h).1 (by simp)
  · obtain ⟨-, rfl⟩ := (pure_run _ _).1 h
    rw [not_not] at heq
    exact ⟨o, heq ▸ hexpected, leaves_add limits _ s mid u later hadd⟩

/-- A valid claim has a present row that names it. -/
theorem validateTicket_valid {claim : TicketClaim} {o : Observed TicketFact}
    {write : RefWriteRequest} {fact : TicketFact}
    (h : validateTicket claim o write = .ok (.valid fact)) :
    ∃ revision, o = .present fact revision ∧ fact.ticket = claim.ticket := by
  cases o with
  | absent revision => simp [validateTicket] at h
  | present value revision =>
    simp only [validateTicket] at h
    split_ifs at h with hticket hplace hsigner
    · simp at h
    · simp at h
    · rw [Except.ok.injEq, Verdict.valid.injEq] at h
      obtain rfl := h
      rw [ne_eq, not_not] at hticket
      exact ⟨revision, rfl, hticket⟩

theorem provenVerdict_valid {claim : TicketClaim} {verdict : Verdict} {fact : TicketFact}
    (h : provenVerdict claim verdict = .valid fact) : verdict = .valid fact := by
  cases verdict with
  | refuse code message => simp [provenVerdict] at h
  | valid fact' =>
    rw [provenVerdict] at h
    split_ifs at h
    exact h

/-- The ticket check answers with a refusal, or returns every claim with its row. -/
theorem checkTickets_cases {claims : List TicketClaim} {r : WriteDecision ⊕ List ValidTicket}
    (h : checkTickets request limits claims s gs = .ok (r, out)) :
    (∃ d, r = .inl d ∧ PlainAnswer request.write d) ∨
      ∃ valid, r = .inr valid ∧ valid.map (·.claim) = claims ∧
        ∀ ticket ∈ valid,
          (s.tickets.find? (·.1 = ticket.claim.ticket)).map Prod.snd = some ticket.observed ∧
          ∃ revision, ticket.observed = .present ticket.fact revision := by
  induction claims generalizing gs out r with
  | nil =>
    obtain ⟨rfl, -⟩ := (pure_run _ _).1 h
    exact .inr ⟨[], rfl, rfl, by simp⟩
  | cons claim rest ih =>
    rw [checkTickets] at h
    obtain ⟨o, mid, hfetch, h⟩ := bind_run.1 h
    have hfind := okOr_eq_ok.1 (fetch_run.1 hfetch).1
    obtain ⟨verdict, mid', hverdict, h⟩ := bind_run.1 h
    obtain ⟨hvalidate, -⟩ := lift_run.1 hverdict
    obtain ⟨u, mid'', -, h⟩ := bind_run.1 h
    cases hproven : provenVerdict claim verdict with
    | refuse code message =>
      rw [hproven] at h
      obtain ⟨d, last, hreject, h⟩ := bind_run.1 h
      obtain ⟨rfl, -⟩ := (pure_run _ _).1 h
      exact .inl ⟨d, rfl, (reject_eq hreject).1 ▸ .refused _⟩
    | valid fact =>
      rw [hproven] at h
      obtain ⟨answer, last, hrest, h⟩ := bind_run.1 h
      rw [provenVerdict_valid hproven] at hvalidate
      obtain ⟨revision, ho, -⟩ := validateTicket_valid hvalidate
      obtain ⟨d, rfl, hd⟩ | ⟨valid, rfl, hclaims, hrows⟩ := ih hrest
      · obtain ⟨rfl, -⟩ := (pure_run _ _).1 h
        exact .inl ⟨d, rfl, hd⟩
      · obtain ⟨rfl, -⟩ := (pure_run _ _).1 h
        refine .inr ⟨_, rfl, by rw [List.map_cons, hclaims], ?_⟩
        rintro ticket (- | ⟨-, hmem⟩)
        · exact ⟨hfind, revision, ho⟩
        · exact hrows ticket hmem

/-- The effects of consuming tickets: every ticket closes, its reservation settles, and both rows
are guarded. -/
theorem consume_eq_ok {operation : OperationId} {refs : List RefValue} {valid : List ValidTicket}
    {effects e : AcceptanceEffects}
    (h : consume request limits operation refs valid effects s gs = .ok (e, out)) :
    e.reservations = effects.reservations ++ valid.map (fun ticket =>
        ⟨ticket.fact.reservation, consumedTerminal request refs ticket⟩) ∧
      (effects.Delivered operation → e.Delivered operation) ∧
      e.tickets = effects.tickets ++ valid.map (fun ticket => ⟨ticket.claim.ticket, none⟩) ∧
      e.reservationTransitions = effects.reservationTransitions ∧ e.storage = effects.storage ∧
      ∀ ticket ∈ valid, .ticket ticket.claim.ticket ticket.observed ∈ out ∧
        ∃ row, isTicketed row ticket.claim.ticket = true ∧
          .reservation ticket.fact.reservation row ∈ out := by
  induction valid generalizing gs effects with
  | nil =>
    obtain ⟨rfl, -⟩ := (pure_run _ _).1 h
    simp
  | cons ticket rest ih =>
    rw [consume] at h
    obtain ⟨row, mid, -, h⟩ := bind_run.1 h
    obtain ⟨u, mid', hrefuse, h⟩ := bind_run.1 h
    obtain ⟨hrow, -⟩ := lift_run.1 hrefuse
    rw [refuseIf_eq_ok, not_not] at hrow
    obtain ⟨u', mid'', hticket, h⟩ := bind_run.1 h
    obtain ⟨u'', last, hreservation, h⟩ := bind_run.1 h
    have hkeeps : last ⊆ out := (stable_consume request limits (fun _ _ _ _ h => h) _ _ _ _ :
      Stable (HoldsAt 0) (fun _ _ => True) _).keeps s last e out h
    have hmid : mid'' ⊆ last :=
      (stable_add _ : Stable (HoldsAt 0) (fun _ _ => True) _).keeps s mid'' _ last hreservation
    obtain ⟨hreservations, hdelivered, htickets, htransitions, hstorage, hguards⟩ := ih h
    refine ⟨?_, fun heffects => hdelivered (.settle ?_ _ _), ?_, ?_, ?_, ?_⟩
    · simpa [AcceptanceEffects.settle, AcceptanceEffects.close] using hreservations
    · simpa [AcceptanceEffects.Delivered, AcceptanceEffects.close] using heffects
    · simpa [AcceptanceEffects.settle, AcceptanceEffects.close] using htickets
    · simpa [AcceptanceEffects.settle, AcceptanceEffects.close] using htransitions
    · simpa [AcceptanceEffects.settle, AcceptanceEffects.close] using hstorage
    · rintro other (- | ⟨-, hmem⟩)
      · exact ⟨hkeeps (hmid (leaves_add limits _ s mid' u' mid'' hticket)), row, hrow,
          hkeeps (leaves_add limits _ s mid'' u'' last hreservation)⟩
      · exact hguards other hmem

/-- A counter move settles an outcome whose row is guarded as absent. -/
theorem moveCounter_eq_ok {operation : OperationId} {observed : Observed StorageFact}
    {outcome : ReservationId} {occurredMs added : UInt64} {effects e : AcceptanceEffects}
    (h : moveCounter request limits operation observed outcome occurredMs added effects s gs =
      .ok (e, out)) : ∃ counter next row, requirePresent observed = .ok counter ∧
      nextCounter counter added = .ok next ∧ row.isPresent = false ∧
      .reservation outcome row ∈ out ∧
      e = (effects.count request.write.repository next).settle operation outcome
        ⟨request.write.repository, occurredMs, .storageChanged next.storedBytes next.version⟩ := by
  obtain ⟨counter, mid, hcounter, h⟩ := bind_run.1 h
  obtain ⟨next, mid', hnext, h⟩ := bind_run.1 h
  obtain ⟨row, mid'', -, h⟩ := bind_run.1 h
  obtain ⟨u, last, hrefuse, h⟩ := bind_run.1 h
  obtain ⟨u', later, hadd, h⟩ := bind_run.1 h
  obtain ⟨rfl, rfl⟩ := (pure_run _ _).1 h
  have habsent := (lift_run.1 hrefuse).1
  rw [refuseIf_eq_ok, Bool.not_eq_true] at habsent
  exact ⟨counter, next, row, (lift_run.1 hcounter).1, (lift_run.1 hnext).1, habsent,
    leaves_add limits _ s last u' later hadd, rfl⟩

/-- Storage accounting changes nothing or moves the counter. -/
theorem countStorage_cases {operation : OperationId} {valid : List ValidTicket}
    {effects e : AcceptanceEffects}
    (h : countStorage request limits operation valid effects s gs = .ok (e, out)) :
    e = effects ∨ ∃ next outcome occurredMs row, row.isPresent = false ∧
      .reservation outcome row ∈ out ∧
      e = (effects.count request.write.repository next).settle operation outcome
        ⟨request.write.repository, occurredMs, .storageChanged next.storedBytes next.version⟩ := by
  rw [countStorage] at h
  cases hstorage : request.storage with
  | disabled =>
    rw [hstorage] at h
    exact .inl ((pure_run _ _).1 h).1.symm
  | relay =>
    rw [hstorage] at h
    exact .inl ((pure_run _ _).1 h).1.symm
  | «inline» observed outcome occurredMs =>
    rw [hstorage] at h
    obtain ⟨added, mid, -, h⟩ := bind_run.1 h
    obtain ⟨u, mid', -, h⟩ := bind_run.1 h
    split_ifs at h
    · obtain ⟨counter, next, row, -, -, hrow⟩ := moveCounter_eq_ok request limits h
      exact .inr ⟨next, outcome, occurredMs, row, hrow⟩
    · exact .inl ((pure_run _ _).1 h).1.symm

theorem answers_pendingCheck : Answers request.write limits (pendingCheck request limits) := by
  rw [pendingCheck]
  split
  · exact answers_none
  · refine answers_acquired fun observed => answers_add fun _ => answers_refuseWhen fun _ => ?_
    split_ifs
    · exact answers_retry _
    · exact answers_none

theorem answers_ticketedReplay : Answers request.write limits (ticketedReplay request limits) := by
  have hreplay := answers_replay request.write limits
  refine ⟨hreplay.pushes.bind fun answer => ?_, fun s gs d out h => ?_⟩
  · split
    · exact Grows.pure _
    · split_ifs
      · exact Grows.pure _
      · exact Grows.pure _
    · exact Grows.pure _
  · obtain ⟨answer, mid, hrun, h⟩ := bind_run.1 h
    split at h
    · exact absurd ((pure_run _ _).1 h).1 (by simp)
    · split_ifs at h
      · rw [← Option.some.inj ((pure_run _ _).1 h).1]
        exact .retry _
      · rw [← Option.some.inj ((pure_run _ _).1 h).1]
        exact hreplay.plain s gs _ mid hrun
    · rw [← Option.some.inj ((pure_run _ _).1 h).1]
      exact hreplay.plain s gs _ mid hrun

theorem answers_generationCheck (valid : List ValidTicket) :
    Answers request.write limits (generationCheck request limits valid) := by
  rw [generationCheck]
  split
  · exact answers_none
  · split_ifs
    · exact answers_reject _ _
    · exact answers_none

variable {d : WriteDecision}

/-- A refused proof settles the pending reservation, if there is one. -/
theorem verification_cases {valid : List ValidTicket}
    (h : verification request limits valid s gs = .ok (some d, out)) :
    d.isSilent = true ∨ ∃ pending ∈ request.pending, ∃ refusal,
      d = .reject refusal none (some (failedProofOutcome request pending refusal)) := by
  rw [verification] at h
  cases hverdict : request.verification with
  | pending =>
    rw [hverdict] at h
    rw [← Option.some.inj ((pure_run _ _).1 h).1]
    exact .inl rfl
  | refused refusal =>
    rw [hverdict] at h
    obtain ⟨u, mid, -, h⟩ := bind_run.1 h
    rw [← Option.some.inj ((pure_run _ _).1 h).1]
    cases hpending : request.pending with
    | none => exact .inl rfl
    | some pending => exact .inr ⟨pending, rfl, refusal, rfl⟩
  | verified bases =>
    rw [hverdict] at h
    obtain ⟨u, mid, -, h⟩ := bind_run.1 h
    obtain ⟨u', mid', -, h⟩ := bind_run.1 h
    exact absurd ((pure_run _ _).1 h).1 (by simp)

/-- The refs of an advance: silent, a conflict that settles the pending reservation, or the
changes with the effects of the tickets. -/
theorem ticketedRefs_cases {valid : List ValidTicket}
    (h : ticketedRefs request limits valid s gs = .ok (d, out)) : d.isSilent = true ∨
    (∃ pending ∈ request.pending, ∃ current replay,
      d = .conflict current replay (some (pendingOutcome request pending true))) ∨
    ∃ effects mid, gs ⊆ mid ∧ d = .apply effects ∧
      augmentApply request limits valid (refEffects request.write) s mid = .ok (effects, out) := by
  obtain ⟨decision, mid, hrefs, h⟩ := bind_run.1 h
  have hcases := refs_cases request.write limits hrefs
  have hkeeps : gs ⊆ mid := (stable_refs request.write limits (fun _ _ _ _ h => h) :
    Stable (HoldsAt 0) (fun _ _ => True) _).keeps s gs decision mid hrefs
  split at h
  · obtain ⟨effects, last, haugment, h⟩ := bind_run.1 h
    obtain ⟨rfl, rfl⟩ := (pure_run _ _).1 h
    obtain hsilent | happly := hcases
    · exact absurd hsilent (by simp [WriteDecision.isSilent])
    · rw [WriteDecision.apply.injEq] at happly
      obtain rfl := happly
      exact .inr (.inr ⟨effects, mid, hkeeps, rfl, haugment⟩)
  · obtain ⟨rfl, -⟩ := (pure_run _ _).1 h
    cases hpending : request.pending with
    | none => exact .inl rfl
    | some pending => exact .inr (.inl ⟨pending, rfl, _, _, rfl⟩)
  · rename_i hother _
    obtain ⟨rfl, -⟩ := (pure_run _ _).1 h
    obtain hsilent | rfl := hcases
    · exact .inl hsilent
    · exact absurd rfl (hother _)

/-- The settlement of the pending reservation alone, under its guard. -/
def PendingSettled (d : WriteDecision) (guards : List RequiredGuard) : Prop :=
  ∃ pending ∈ request.pending, PendingGuarded request guards ∧
    ((∃ refusal, d = .reject refusal none (some (failedProofOutcome request pending refusal))) ∨
    ∃ current replay, d = .conflict current replay (some (pendingOutcome request pending true)))

theorem driveValid_cases {valid : List ValidTicket} (hpending : PendingGuarded request gs)
    (h : driveValid request limits valid s gs = .ok (d, out)) :
    d.isSilent = true ∨ PendingSettled request d out ∨
    ∃ effects mid, d = .apply effects ∧ PendingGuarded request mid ∧
      augmentApply request limits valid (refEffects request.write) s mid = .ok (effects, out) := by
  have htrue : Persistent fun (_ : Snapshot) (_ : List RequiredGuard) => True :=
    fun _ _ _ _ h => h
  obtain ⟨answer, mid, hchecks, h⟩ := bind_run.1 h
  obtain ⟨verified, mid', hverification, hrest⟩ := bind_run.1 hchecks
  have hguarded : PendingGuarded request mid' := hpending.mono request
    ((stable_verification request limits htrue valid : Stable (HoldsAt 0) _ _).keeps
      s gs verified mid' hverification)
  cases verified with
  | some decision =>
    obtain ⟨rfl, rfl⟩ := (pure_run _ _).1 hrest
    obtain ⟨rfl, rfl⟩ := (pure_run _ _).1 h
    obtain hsilent | ⟨pending, hmem, hrefused⟩ := verification_cases request limits hverification
    · exact .inl hsilent
    · exact .inr (.inl ⟨pending, hmem, hguarded, .inl hrefused⟩)
  | none =>
    have hreplay : Stable (HoldsAt 0) (ReplayKnown request.write)
        (orElse (context request.write limits) (generationCheck request limits valid)) :=
      stable_orElse (persistent_replayKnown request.write) (stable_context request.write limits)
        (stable_generationCheck request limits valid)
    have hguarded := hguarded.mono request (hreplay.keeps s mid' answer mid hrest)
    cases answer with
    | some decision =>
      obtain ⟨rfl, -⟩ := (pure_run _ _).1 h
      exact .inl ((answers_orElse (answers_context request.write limits)
        (answers_generationCheck request limits valid)).quiet s mid' _ mid hrest)
    | none =>
      have hkeeps := (stable_ticketedRefs request limits htrue valid :
        Stable (HoldsAt 0) _ _).keeps s mid d out h
      obtain hsilent | ⟨pending, hmem, hconflict⟩ | ⟨effects, last, hsub, rfl, haugment⟩ :=
        ticketedRefs_cases request limits h
      · exact .inl hsilent
      · exact .inr (.inl ⟨pending, hmem, hguarded.mono request hkeeps, .inr hconflict⟩)
      · exact .inr (.inr ⟨effects, last, rfl, hguarded.mono request hsub, haugment⟩)

/-- What an advance decides: a silent answer, a settlement of the pending reservation alone, or
the effects of an accepted advance. -/
theorem drive_cases (h : drive request limits s gs = .ok (d, out)) :
    d.isSilent = true ∨ PendingSettled request d out ∨
    ∃ valid effects mid, d = .apply effects ∧ PendingGuarded request mid ∧
      valid.map (·.claim) = request.tickets ∧
      (∀ ticket ∈ valid,
        (s.tickets.find? (·.1 = ticket.claim.ticket)).map Prod.snd = some ticket.observed ∧
        ∃ revision, ticket.observed = .present ticket.fact revision) ∧
      augmentApply request limits valid (refEffects request.write) s mid = .ok (effects, out) := by
  have htrue : Persistent fun (_ : Snapshot) (_ : List RequiredGuard) => True :=
    fun _ _ _ _ h => h
  obtain ⟨answer, mid, hfirst, h⟩ := bind_run.1 h
  cases answer with
  | some decision =>
    obtain ⟨rfl, -⟩ := (pure_run _ _).1 h
    exact .inl ((answers_orElse (answers_pendingCheck request limits)
      (answers_ticketedReplay request limits)).quiet s gs _ mid hfirst)
  | none =>
    obtain ⟨pendingAnswer, mid', hpending, hreplay⟩ := bind_run.1 hfirst
    cases pendingAnswer with
    | some decision => exact absurd ((pure_run _ _).1 hreplay).1 (by simp)
    | none =>
      have hguarded := (pendingGuarded_of_run request limits hpending).mono request
        ((stable_ticketedReplay request limits htrue : Stable (HoldsAt 0) _ _).keeps
          s mid' none mid hreplay)
      obtain ⟨tickets, last, htickets, h⟩ := bind_run.1 h
      have hguarded := hguarded.mono request
        ((stable_checkTickets request limits htrue _ : Stable (HoldsAt 0) _ _).keeps
          s mid tickets last htickets)
      obtain ⟨d', rfl, hplain⟩ | ⟨valid, rfl, hclaims, hrows⟩ :=
        checkTickets_cases request limits htickets
      · obtain ⟨rfl, -⟩ := (pure_run _ _).1 h
        exact .inl hplain.isSilent
      · obtain hsilent | hsettled | ⟨effects, start, rfl, hstart, haugment⟩ :=
          driveValid_cases request limits hguarded h
        · exact .inl hsilent
        · exact .inr (.inl hsettled)
        · exact .inr (.inr ⟨valid, effects, start, rfl, hstart, hclaims, hrows, haugment⟩)

/-- An accepted advance: the tickets and their reservations, at most one counter outcome, then the
pending reservation. -/
theorem augmentApply_eq_ok {valid : List ValidTicket} {effects : AcceptanceEffects}
    (h : augmentApply request limits valid (refEffects request.write) s gs = .ok (effects, out)) :
    ∃ operation refs counted, effects.Delivered operation ∧
      effects.reservations = valid.map (fun ticket =>
          ⟨ticket.fact.reservation, consumedTerminal request refs ticket⟩) ++ counted ++
        request.pending.toList.map (fun pending => pendingOutcome request pending false) ∧
      counted.length ≤ 1 ∧
      (∀ outcome ∈ counted, ∃ row, row.isPresent = false ∧ .reservation outcome.id row ∈ out) ∧
      effects.tickets = valid.map (fun ticket => ⟨ticket.claim.ticket, none⟩) ∧
      effects.reservationTransitions = [] ∧ gs ⊆ out ∧
      ∀ ticket ∈ valid, .ticket ticket.claim.ticket ticket.observed ∈ out ∧
        ∃ row, isTicketed row ticket.claim.ticket = true ∧
          .reservation ticket.fact.reservation row ∈ out := by
  have htrue : Persistent fun (_ : Snapshot) (_ : List RequiredGuard) => True :=
    fun _ _ _ _ h => h
  have hsub : gs ⊆ out := (stable_augmentApply request limits htrue valid _ :
    Stable (HoldsAt 0) _ _).keeps s gs effects out h
  obtain ⟨operation, mid, hoperation, h⟩ := bind_run.1 h
  obtain ⟨consumed, mid', hconsume, h⟩ := bind_run.1 h
  obtain ⟨e, mid'', hcount, h⟩ := bind_run.1 h
  obtain ⟨hreservations, hdelivered, htickets, htransitions, -, hguards⟩ :=
    consume_eq_ok request limits hconsume
  replace hdelivered := hdelivered rfl
  have hempty : (refEffects request.write).reservations = [] := rfl
  rw [hempty, List.nil_append] at hreservations
  have hkeeps : mid' ⊆ mid'' := (stable_countStorage request limits htrue operation valid _ :
    Stable (HoldsAt 0) _ _).keeps s mid' e mid'' hcount
  -- the counter outcome, if any
  obtain ⟨counted, hcounted, hlength, habsent, hdelivered', htickets', htransitions'⟩ :
      ∃ counted, e.reservations = consumed.reservations ++ counted ∧ counted.length ≤ 1 ∧
        (∀ outcome ∈ counted, ∃ row, row.isPresent = false ∧
          .reservation outcome.id row ∈ mid'') ∧
        e.Delivered operation ∧ e.tickets = consumed.tickets ∧
        e.reservationTransitions = consumed.reservationTransitions := by
    obtain rfl | ⟨next, outcome, occurredMs, row, hrow, hmem, rfl⟩ :=
      countStorage_cases request limits hcount
    · exact ⟨[], by simp, by simp, by simp, hdelivered, rfl, rfl⟩
    · refine ⟨[_], rfl, le_rfl, ?_, AcceptanceEffects.Delivered.settle hdelivered _ _, rfl, rfl⟩
      intro o ho
      rw [List.mem_singleton.1 ho]
      exact ⟨row, hrow, hmem⟩
  rw [hreservations] at hcounted
  rw [htickets] at htickets'
  rw [htransitions] at htransitions'
  refine ⟨operation, (refEffects request.write).refs.map fun effect => ⟨effect.name, effect.target⟩,
    counted, ?_⟩
  cases hpending : request.pending with
  | none =>
    rw [hpending] at h
    obtain ⟨rfl, rfl⟩ := (pure_run _ _).1 h
    refine ⟨hdelivered', ?_, hlength, habsent, htickets', htransitions', hsub, ?_⟩
    · simpa using hcounted
    · intro ticket hticket
      obtain ⟨hguard, row, hrow, hmem⟩ := hguards ticket hticket
      exact ⟨hkeeps hguard, row, hrow, hkeeps hmem⟩
  | some pending =>
    rw [hpending] at h
    obtain ⟨rfl, rfl⟩ := (pure_run _ _).1 h
    refine ⟨hdelivered'.settle _ _, ?_, hlength, habsent, htickets', htransitions', hsub, ?_⟩
    · simp [AcceptanceEffects.settle, hcounted, pendingOutcome]
    · intro ticket hticket
      obtain ⟨hguard, row, hrow, hmem⟩ := hguards ticket hticket
      exact ⟨hkeeps hguard, row, hrow, hkeeps hmem⟩

/-- The counter row is guarded when tickets are consumed. -/
theorem guardCounter_eq_ok {valid : List ValidTicket} {observed : Observed StorageFact} {u : Unit}
    (h : guardCounter request limits valid observed s gs = .ok (u, out)) :
    gs ⊆ out ∧ (valid ≠ [] → s.storage = some observed ∧
      .storage request.write.repository observed ∈ out) := by
  refine ⟨(stable_guardCounter request limits (fun _ _ _ _ h => h) valid observed :
    Stable (HoldsAt 0) (fun _ _ => True) _).keeps s gs u out h, fun hvalid => ?_⟩
  rw [guardCounter, if_neg hvalid] at h
  obtain ⟨row, mid, hfetch, hrest⟩ := bind_run.1 h
  obtain ⟨u', mid', hrefuse, hadd⟩ := bind_run.1 hrest
  have hrow := (lift_run.1 hrefuse).1
  rw [refuseIf_eq_ok, ne_eq, not_not] at hrow
  obtain rfl := hrow
  exact ⟨okOr_eq_ok.1 (fetch_run.1 hfetch).1, leaves_add limits _ s mid' u out hadd⟩

/-- Inline accounting: the bytes added, the guard over the counter row, and its replacement. -/
theorem augmentApply_storage {observed : Observed StorageFact} {outcome : ReservationId}
    {occurredMs : UInt64} (hstorage : request.storage = .inline observed outcome occurredMs)
    {valid : List ValidTicket} {effects : AcceptanceEffects}
    (h : augmentApply request limits valid (refEffects request.write) s gs = .ok (effects, out)) :
    ∃ added, addedBytes [] 0 valid = .ok added ∧
      (valid ≠ [] → s.storage = some observed ∧
        .storage request.write.repository observed ∈ out) ∧
      ((added = 0 ∧ effects.storage = []) ∨
        ∃ counter next, 0 < added ∧ requirePresent observed = .ok counter ∧
          nextCounter counter added = .ok next ∧
          effects.storage = [⟨request.write.repository, next⟩]) := by
  obtain ⟨operation, mid, -, h⟩ := bind_run.1 h
  obtain ⟨consumed, mid', hconsume, h⟩ := bind_run.1 h
  obtain ⟨e, mid'', hcount, h⟩ := bind_run.1 h
  obtain ⟨-, -, -, -, hnone, -⟩ := consume_eq_ok request limits hconsume
  replace hnone : consumed.storage = [] := hnone
  -- the pending settlement leaves the storage effects and the guards as they are
  obtain ⟨heffects, rfl⟩ : effects.storage = e.storage ∧ mid'' = out := by
    cases hpending : request.pending with
    | none =>
      rw [hpending] at h
      obtain ⟨rfl, rfl⟩ := (pure_run _ _).1 h
      exact ⟨rfl, rfl⟩
    | some pending =>
      rw [hpending] at h
      obtain ⟨rfl, rfl⟩ := (pure_run _ _).1 h
      exact ⟨rfl, rfl⟩
  rw [heffects]
  rw [countStorage, hstorage] at hcount
  obtain ⟨added, start, hadded, hcount⟩ := bind_run.1 hcount
  obtain ⟨u, guarded, hguard, hcount⟩ := bind_run.1 hcount
  obtain ⟨-, hrow⟩ := guardCounter_eq_ok request limits hguard
  refine ⟨added, (lift_run.1 hadded).1, ?_⟩
  split_ifs at hcount with hpositive
  · have hkeeps := (stable_moveCounter request limits (fun _ _ _ _ h => h) operation observed outcome
      occurredMs added consumed : Stable (HoldsAt 0) (fun _ _ => True) _).keeps
        s guarded e mid'' hcount
    obtain ⟨counter, next, row, hcounter, hnext, -, -, rfl⟩ := moveCounter_eq_ok request limits hcount
    refine ⟨fun hvalid => ⟨(hrow hvalid).1, hkeeps (hrow hvalid).2⟩,
      .inr ⟨counter, next, hpositive, hcounter, hnext, ?_⟩⟩
    simp [AcceptanceEffects.settle, AcceptanceEffects.count, hnone]
  · obtain ⟨rfl, rfl⟩ := (pure_run _ _).1 hcount
    refine ⟨hrow, .inl ⟨?_, hnone⟩⟩
    simpa [UInt64.lt_iff_toNat_lt, ← UInt64.toNat_inj] using hpositive

end Advance

/-! ### The rows of a cleanup -/

section Cleanup

variable (request : TicketedAdvanceRequest) (limits : RefDecisionLimits)
variable {s : Snapshot} {gs out : List RequiredGuard}

/-- The tickets of a cleanup whose pack is missing. -/
def lostTickets (valid : List ValidTicket) : List ValidTicket :=
  valid.filter fun ticket => ticket.claim.proof = .packMissing

/-- The terminal payload of a lost ticket's reservation. -/
def lostTerminal (detail : Bytes) (occurredMs : UInt64) : ReservationTerminal :=
  ⟨request.write.repository, occurredMs, .aborted .packMissing detail⟩

theorem abortLost_eq_ok {operation : OperationId} {detail : Bytes} {occurredMs : UInt64}
    {valid : List ValidTicket} {effects e : AcceptanceEffects}
    (h : abortLost request limits operation detail occurredMs valid effects s gs =
      .ok (e, out)) :
    e.reservations = effects.reservations ++ (lostTickets valid).map (fun ticket =>
        ⟨ticket.fact.reservation, lostTerminal request detail occurredMs⟩) ∧
      (effects.Delivered operation → e.Delivered operation) ∧
      e.tickets = effects.tickets ++
        (lostTickets valid).map (fun ticket => ⟨ticket.claim.ticket, none⟩) ∧
      e.reservationTransitions = effects.reservationTransitions ∧
      ∀ ticket ∈ lostTickets valid, ∃ row, isTicketed row ticket.claim.ticket = true ∧
        .reservation ticket.fact.reservation row ∈ out := by
  induction valid generalizing gs effects with
  | nil =>
    obtain ⟨rfl, -⟩ := (pure_run _ _).1 h
    simp [lostTickets]
  | cons ticket rest ih =>
    rw [abortLost] at h
    split_ifs at h with hproof
    · have hlost : lostTickets (ticket :: rest) = lostTickets rest := by
        simp [lostTickets, hproof]
      rw [hlost]
      exact ih h
    · have hlost : lostTickets (ticket :: rest) = ticket :: lostTickets rest := by
        rw [ne_eq, not_not] at hproof
        simp [lostTickets, hproof]
      obtain ⟨row, mid, -, h⟩ := bind_run.1 h
      obtain ⟨u, mid', hrefuse, h⟩ := bind_run.1 h
      have hrow := (lift_run.1 hrefuse).1
      rw [refuseIf_eq_ok, not_not] at hrow
      obtain ⟨u', last, hadd, h⟩ := bind_run.1 h
      have hkeeps : last ⊆ out := (stable_abortLost request limits (fun _ _ _ _ h => h) _ _ _ _ _ :
        Stable (HoldsAt 0) (fun _ _ => True) _).keeps s last e out h
      obtain ⟨hreservations, hdelivered, htickets, htransitions, hguards⟩ := ih h
      rw [hlost]
      refine ⟨?_, fun heffects => hdelivered (.settle heffects _ _), ?_, ?_, ?_⟩
      · simpa [AcceptanceEffects.settle, AcceptanceEffects.close, lostTerminal]
          using hreservations
      · simpa [AcceptanceEffects.settle, AcceptanceEffects.close] using htickets
      · simpa [AcceptanceEffects.settle, AcceptanceEffects.close] using htransitions
      · rintro other (- | ⟨-, hmem⟩)
        · exact ⟨row, hrow, hkeeps (leaves_add limits _ s mid' u' last hadd)⟩
        · exact hguards other hmem

/-- The rows of a cleanup follow the claims; a valid row is present. -/
theorem cleanupRows_eq_ok {claims : List TicketClaim}
    {rows : List (TicketClaim × Observed TicketFact × Option ValidTicket)}
    (h : cleanupRows request s claims = .ok rows) :
    rows.map Prod.fst = claims ∧ ∀ row ∈ rows, ∀ ticket ∈ row.2.2, ticket.claim = row.1 ∧
      ticket.observed = row.2.1 ∧
      ∃ revision, ticket.observed = .present ticket.fact revision := by
  induction claims generalizing rows with
  | nil =>
    obtain rfl := Except.ok.inj h
    simp
  | cons claim rest ih =>
    simp only [cleanupRows, Wire.bind_eq_ok, okOr_eq_ok] at h
    obtain ⟨o, -, row, hrow, tail, htail, hrows⟩ := h
    obtain rfl := Except.ok.inj hrows
    obtain ⟨hclaims, hvalid⟩ := ih htail
    refine ⟨by rw [List.map_cons, hclaims], ?_⟩
    rintro other (- | ⟨-, hmem⟩)
    · intro ticket hticket
      obtain ⟨verdict, hverdict, hrow⟩ := Wire.bind_eq_ok.1 hrow
      cases verdict with
      | refuse code message =>
        rw [← Except.ok.inj hrow] at hticket
        exact absurd hticket (by simp)
      | valid fact =>
        rw [← Except.ok.inj hrow, Option.mem_some_iff] at hticket
        obtain rfl := hticket
        obtain ⟨revision, ho, -⟩ := validateTicket_valid hverdict
        exact ⟨rfl, rfl, revision, ho⟩
    · exact hvalid other hmem

end Cleanup

end Mkit.Decision
