import Mkit.Decision.Completeness
import Mkit.Decision.RefExact
import Mkit.Decision.RefPublication
import Mkit.Decision.TicketEffects

/-!
# Sealed Decisions Guard Themselves

Every write decision comes with guards of its own: none twice, none contradicting another, and a
guard of every kind that its effects, its recorded answer or its settlement needs. The effects are
produced in one place, the guards in another, and the audit has a table of its own; `Covers` is
what the three have in common.

## Main results

* `decision_self_guarded_iff` — every decision of the ref write, the ticketed advance, the ticket
  cleanup, the reservation settlement and the ref publication, with or without attached bases,
  passes its own audit within its guard limit; only the settlement of a ticketed reservation
  under a limit of one guard returns two.
-/

namespace Mkit.Decision

open Guarding

/-! ### Kinds that the checks leave behind -/

section Ref

variable (req : RefWriteRequest) (limits : RefDecisionLimits)
variable {s : Snapshot} {gs out : List RequiredGuard} {d : WriteDecision}

variable {D : Type} {m : Attempt D} {a : D}

theorem Pushes.subset {limits : RefDecisionLimits}
    (hm : Pushes limits m) (h : m s gs = .ok (a, out)) : gs ⊆ out :=
  hm.preserves (I := fun guards => gs ⊆ guards)
    (fun mid g last hsub hpush => List.Subset.trans hsub (subset_of_pushGuard mid g last hpush)) h
    (List.Subset.refl gs)

theorem Pushes.sealed {limits : RefDecisionLimits}
    (hm : Pushes limits m) (h : m s [] = .ok (a, out)) : Sealed limits.guards.toNat out :=
  hm.preserves (fun _ _ _ hgs hpush => hgs.push hpush) h
    ⟨List.nodup_nil, .nil, Nat.zero_le _⟩

theorem hasKind_of_leaves {guard : RequiredGuard}
    (hm : Leaves m guard) (h : m s gs = .ok (a, out)) : HasKind out (guardKind guard) :=
  ⟨guard, hm s gs a out h, rfl⟩

/-- A replay binding leaves a guard on its record. -/
theorem hasKind_replay (hsome : req.replay.isSome = true) {a : Option WriteDecision}
    (h : replay req limits s gs = .ok (a, out)) : HasKind out .replay := by
  obtain ⟨bound, hbound⟩ := Option.isSome_iff_exists.1 hsome
  rw [replay, hbound] at h
  obtain ⟨observed, mid, -, h⟩ := bind_run.1 h
  obtain ⟨u, mid', -, h⟩ := bind_run.1 h
  refine hasKind_of_leaves (?_ : Leaves _ (.replay bound.scope observed)) h
  refine (leaves_add limits _).bind_left fun _ => ?_
  split
  · exact (Stable.pure _ : Stable (HoldsAt 0) (fun _ _ => True) _).keeps
  · exact (Stable.pure _ : Stable (HoldsAt 0) (fun _ _ => True) _).keeps
  · exact (Stable.pure _ : Stable (HoldsAt 0) (fun _ _ => True) _).keeps
  · exact (Stable.pure _ : Stable (HoldsAt 0) (fun _ _ => True) _).keeps
  · exact (stable_answerReject _ _ : Stable (HoldsAt 0) (fun _ _ => True) _).keeps

/-- The record of a replay binding is guarded. -/
def ReplayGuarded (guards : List RequiredGuard) : Prop :=
  req.replay.isSome = true → HasKind guards .replay

variable {req}

theorem ReplayGuarded.mono (h : ReplayGuarded req gs) (hsub : gs ⊆ out) : ReplayGuarded req out :=
  fun hsome => (h hsome).mono hsub

theorem PlainAnswer.covers (h : PlainAnswer req d) (hreplay : ReplayGuarded req gs) :
    Covers gs d := by
  cases h with
  | refused refusal => exact covers_of_idle rfl (by simp [decisionClass]) rfl rfl
  | retry reason => exact covers_of_idle rfl (by simp [decisionClass]) rfl rfl
  | recorded refusal hsome =>
    constructor <;> simp [decisionClass, WriteDecision.mutations, AcceptanceEffects.none,
      WriteDecision.records, WriteDecision.settles, hreplay hsome]
  | returned result hsome =>
    constructor <;> simp [decisionClass, WriteDecision.mutations, AcceptanceEffects.none,
      WriteDecision.records, WriteDecision.settles, hreplay hsome]

theorem RefAnswer.covers (h : RefAnswer req s gs d) (hreplay : ReplayGuarded req gs) :
    Covers gs d := by
  cases h with
  | plain d hd => exact hd.covers hreplay
  | conflict before change after o hchanges hbefore ho hc hg =>
    constructor <;> simp [conflictAnswer, decisionClass, WriteDecision.mutations,
      AcceptanceEffects.none, WriteDecision.records, WriteDecision.settles]
    · exact ⟨_, hg, rfl⟩
    · exact hreplay
  | apply hall =>
    constructor <;> simp [refEffects, decisionClass, WriteDecision.mutations,
      AcceptanceEffects.none, WriteDecision.records, WriteDecision.settles]
    exact hreplay

variable (req)

/-- The decision behind the bounds is covered by its guards. -/
theorem covers_of_refAttempt (h : refAttempt req limits s gs = .ok (d, out)) : Covers out d := by
  refine (refAnswer_of_refAttempt req limits h).covers fun hsome => ?_
  obtain ⟨answer, mid, hreplay, hrest⟩ := bind_run.1 h
  exact (hasKind_replay req limits hsome hreplay).mono
    ((pushes_afterReplay req limits answer).subset hrest)

end Ref

/-! ### Ticketed decisions -/

section Ticketed

variable (request : TicketedAdvanceRequest) (limits : RefDecisionLimits)

theorem pushes_checkTickets (claims : List TicketClaim) :
    Pushes limits (checkTickets request limits claims) := by
  induction claims with
  | nil => exact Grows.pure _
  | cons claim rest ih =>
    rw [checkTickets]
    refine (pushes_acquired _).bind fun observed => (Grows.fetch _).bind fun verdict =>
      (pushes_add _).bind fun _ => ?_
    split
    · exact (pushes_reject _ _).bind fun _ => Grows.pure _
    · refine ih.bind fun answer => ?_
      cases answer with
      | inl decision => exact Grows.pure _
      | inr valid => exact Grows.pure _

theorem pushes_addAll (guards : List RequiredGuard) : Pushes limits (addAll limits guards) := by
  induction guards with
  | nil => exact Grows.pure _
  | cons guard rest ih => exact (pushes_add guard).bind fun _ => ih

theorem pushes_verification (valid : List ValidTicket) :
    Pushes limits (verification request limits valid) := by
  rw [verification]
  split
  · exact Grows.pure _
  · exact (pushes_refuseWhen _ _).bind fun _ => Grows.pure _
  · exact (pushes_refuseWhen _ _).bind fun _ => (pushes_addAll limits _).bind fun _ =>
      Grows.pure _

theorem pushes_consume (operation : OperationId) (refs : List RefValue)
    (valid : List ValidTicket) (effects : AcceptanceEffects) :
    Pushes limits (consume request limits operation refs valid effects) := by
  induction valid generalizing effects with
  | nil => exact Grows.pure _
  | cons ticket rest ih =>
    exact (pushes_acquired _).bind fun row => (pushes_refuseWhen _ _).bind fun _ =>
      (pushes_add _).bind fun _ => (pushes_add _).bind fun _ => ih _

theorem pushes_guardCounter (valid : List ValidTicket) (observed : Observed StorageFact) :
    Pushes limits (guardCounter request limits valid observed) := by
  rw [guardCounter]
  split_ifs
  · exact Grows.pure _
  · exact (pushes_acquired _).bind fun row => (pushes_refuseWhen _ _).bind fun _ => pushes_add _

theorem pushes_moveCounter (operation : OperationId) (observed : Observed StorageFact)
    (outcome : ReservationId) (occurredMs added : UInt64) (effects : AcceptanceEffects) :
    Pushes limits
      (moveCounter request limits operation observed outcome occurredMs added effects) :=
  (Grows.fetch _).bind fun _ => (Grows.fetch _).bind fun _ =>
    (pushes_acquired _).bind fun _ => (pushes_refuseWhen _ _).bind fun _ =>
    (pushes_add _).bind fun _ => Grows.pure _

theorem pushes_countStorage (operation : OperationId) (valid : List ValidTicket)
    (effects : AcceptanceEffects) :
    Pushes limits (countStorage request limits operation valid effects) := by
  rw [countStorage]
  split
  · exact Grows.pure _
  · exact Grows.pure _
  · refine (Grows.fetch _).bind fun added => (pushes_guardCounter request limits _ _).bind
      fun _ => ?_
    split_ifs
    · exact pushes_moveCounter request limits _ _ _ _ _ _
    · exact Grows.pure _

theorem pushes_augmentApply (valid : List ValidTicket) (effects : AcceptanceEffects) :
    Pushes limits (augmentApply request limits valid effects) := by
  refine (Grows.fetch _).bind fun operation => (pushes_consume request limits _ _ _ _).bind
    fun consumed => (pushes_countStorage request limits _ _ _).bind fun counted => ?_
  cases request.pending with
  | none => exact Grows.pure _
  | some pending => exact Grows.pure _

theorem pushes_ticketedRefs (valid : List ValidTicket) :
    Pushes limits (ticketedRefs request limits valid) := by
  refine (pushes_refs request.write limits).bind fun decision => ?_
  split
  · exact (pushes_augmentApply request limits _ _).bind fun _ => Grows.pure _
  · exact Grows.pure _
  · exact Grows.pure _

theorem pushes_driveValid (valid : List ValidTicket) :
    Pushes limits (driveValid request limits valid) := by
  refine (pushes_orElse (pushes_verification request limits valid) (pushes_orElse
    (answers_context request.write limits).pushes
    (answers_generationCheck request limits valid).pushes)).bind fun answer => ?_
  cases answer with
  | some decision => exact Grows.pure _
  | none => exact pushes_ticketedRefs request limits valid

/-- What follows the pending row and the replay record. -/
theorem pushes_afterRecords (answer : Option WriteDecision) : Pushes limits (match answer with
      | some decision => (pure decision : Attempt WriteDecision)
      | none => do
          match ← checkTickets request limits request.tickets with
          | .inl decision => return decision
          | .inr valid => driveValid request limits valid) := by
  cases answer with
  | some decision => exact Grows.pure _
  | none =>
    refine (pushes_checkTickets request limits _).bind fun answer => ?_
    cases answer with
    | inl decision => exact Grows.pure _
    | inr valid => exact pushes_driveValid request limits valid

theorem pushes_drive : Pushes limits (drive request limits) :=
  (pushes_orElse (answers_pendingCheck request limits).pushes
    (answers_ticketedReplay request limits).pushes).bind (pushes_afterRecords request limits)

theorem pushes_abortLost (operation : OperationId) (detail : Bytes) (occurredMs : UInt64)
    (valid : List ValidTicket) (effects : AcceptanceEffects) :
    Pushes limits (abortLost request limits operation detail occurredMs valid effects) := by
  induction valid generalizing effects with
  | nil => exact Grows.pure _
  | cons ticket rest ih =>
    rw [abortLost]
    split_ifs
    · exact ih _
    · exact (pushes_acquired _).bind fun row => (pushes_refuseWhen _ _).bind fun _ =>
        (pushes_add _).bind fun _ => ih _

/-! ### Effects under their guards -/

variable {s : Snapshot} {gs out : List RequiredGuard} {d : WriteDecision}
variable {effects e : AcceptanceEffects}

theorem Covers.close (h : Covers gs (.apply effects)) (hticket : HasKind gs .ticket)
    (id : TicketId) : Covers gs (.apply (effects.close id)) :=
  { h with tickets := fun _ => hticket }

theorem Covers.join (h : Covers gs (.apply effects)) (repository : RepositoryId)
    (pack : PackSource) : Covers gs (.apply (effects.join repository pack)) := by
  rw [AcceptanceEffects.join]
  split_ifs
  · exact h
  · exact { h with }

theorem Covers.settle (h : Covers gs (.apply effects)) (hreservation : HasKind gs .reservation)
    (operation : OperationId) (id : ReservationId) (terminal : ReservationTerminal) :
    Covers gs (.apply (effects.settle operation id terminal)) :=
  { h with reservations := fun _ => hreservation }

theorem Covers.count (h : Covers gs (.apply effects)) (hstorage : HasKind gs .storage)
    (repository : RepositoryId) (next : StorageFact) :
    Covers gs (.apply (effects.count repository next)) :=
  { h with storage := fun _ => hstorage }

theorem covers_consume {operation : OperationId} {refs : List RefValue} {valid : List ValidTicket}
    (hcovers : Covers gs (.apply effects))
    (h : consume request limits operation refs valid effects s gs = .ok (e, out)) :
    Covers out (.apply e) := by
  induction valid generalizing gs effects with
  | nil =>
    obtain ⟨rfl, rfl⟩ := (pure_run _ _).1 h
    exact hcovers
  | cons ticket rest ih =>
    rw [consume] at h
    obtain ⟨row, mid₁, hrow, h⟩ := bind_run.1 h
    obtain ⟨u, mid₂, hrefuse, h⟩ := bind_run.1 h
    obtain ⟨u', mid₃, hticket, h⟩ := bind_run.1 h
    obtain ⟨u'', mid₄, hreservation, h⟩ := bind_run.1 h
    have hread : Pushes limits (observedReservation ticket.fact.reservation) := pushes_acquired _
    have hcheck : Pushes limits (refuseWhen (¬ isTicketed row ticket.claim.ticket)
      .invalidResponse) := pushes_refuseWhen _ _
    have hsub : gs ⊆ mid₄ := List.Subset.trans (hread.subset hrow)
      (List.Subset.trans (hcheck.subset hrefuse) (List.Subset.trans
        ((pushes_add _).subset hticket) ((pushes_add _).subset hreservation)))
    have htickets : HasKind mid₄ .ticket :=
      (hasKind_of_leaves (leaves_add limits _) hticket).mono ((pushes_add _).subset hreservation)
    have hreservations : HasKind mid₄ .reservation :=
      hasKind_of_leaves (leaves_add limits _) hreservation
    exact ih ((((hcovers.mono hsub).close htickets _).join _ _).settle hreservations _ _ _) h

theorem covers_moveCounter {operation : OperationId} {observed : Observed StorageFact}
    {outcome : ReservationId} {occurredMs added : UInt64} (hcovers : Covers gs (.apply effects))
    (hstorage : HasKind gs .storage)
    (h : moveCounter request limits operation observed outcome occurredMs added effects s gs =
      .ok (e, out)) : Covers out (.apply e) := by
  have hsub := (pushes_moveCounter request limits _ _ _ _ _ _).subset h
  obtain ⟨counter, next, row, -, -, -, hrow, rfl⟩ := moveCounter_eq_ok request limits h
  exact ((hcovers.mono hsub).count (hstorage.mono hsub) _ _).settle ⟨_, hrow, rfl⟩ _ _ _

theorem covers_countStorage {operation : OperationId} {valid : List ValidTicket}
    (hcovers : Covers gs (.apply effects))
    (h : countStorage request limits operation valid effects s gs = .ok (e, out)) :
    Covers out (.apply e) := by
  rw [countStorage] at h
  cases hstorage : request.storage with
  | disabled =>
    rw [hstorage] at h
    obtain ⟨rfl, rfl⟩ := (pure_run _ _).1 h
    exact hcovers
  | relay =>
    rw [hstorage] at h
    obtain ⟨rfl, rfl⟩ := (pure_run _ _).1 h
    exact hcovers
  | «inline» observed outcome occurredMs =>
    rw [hstorage] at h
    obtain ⟨added, mid, hadded, h⟩ := bind_run.1 h
    obtain ⟨hbytes, rfl⟩ := lift_run.1 hadded
    obtain ⟨u, mid, hcounter, h⟩ := bind_run.1 h
    have hsub := (pushes_guardCounter request limits _ _).subset hcounter
    split_ifs at h with hpositive
    · refine covers_moveCounter request limits (hcovers.mono hsub) ?_ h
      -- Bytes are added for a ticket only, and then the counter row is guarded.
      have hvalid : valid ≠ [] := by
        rintro rfl
        obtain rfl := Except.ok.inj hbytes
        exact absurd hpositive (by decide)
      rw [guardCounter, if_neg hvalid] at hcounter
      obtain ⟨row, later, -, hcounter⟩ := bind_run.1 hcounter
      obtain ⟨u', last, -, hcounter⟩ := bind_run.1 hcounter
      exact hasKind_of_leaves (leaves_add limits _) hcounter
    · obtain ⟨rfl, rfl⟩ := (pure_run _ _).1 h
      exact hcovers.mono hsub

/-- The record and the pending row of a request are guarded. -/
def RecordsGuarded (guards : List RequiredGuard) : Prop :=
  ReplayGuarded request.write guards ∧
    (request.pending.isSome = true → HasKind guards .reservation)

variable {request}

theorem RecordsGuarded.mono (h : RecordsGuarded request gs) (hsub : gs ⊆ out) :
    RecordsGuarded request out :=
  ⟨h.1.mono hsub, fun hsome => (h.2 hsome).mono hsub⟩

variable (request)

theorem covers_augmentApply {valid : List ValidTicket} (hrecords : RecordsGuarded request gs)
    (hcovers : Covers gs (.apply effects))
    (h : augmentApply request limits valid effects s gs = .ok (e, out)) :
    Covers out (.apply e) := by
  obtain ⟨operation, mid, hoperation, h⟩ := bind_run.1 h
  obtain ⟨-, rfl⟩ := lift_run.1 hoperation
  obtain ⟨consumed, mid, hconsume, h⟩ := bind_run.1 h
  obtain ⟨counted, last, hcount, h⟩ := bind_run.1 h
  have hcounted := covers_countStorage request limits
    (covers_consume request limits hcovers hconsume) hcount
  have hlast := (hrecords.mono ((pushes_consume request limits _ _ _ _).subset hconsume)).mono
    ((pushes_countStorage request limits _ _ _).subset hcount)
  cases hpending : request.pending with
  | none =>
    rw [hpending] at h
    obtain ⟨rfl, rfl⟩ := (pure_run _ _).1 h
    exact hcounted
  | some pending =>
    rw [hpending] at h
    obtain ⟨rfl, rfl⟩ := (pure_run _ _).1 h
    exact hcounted.settle (hlast.2 (by rw [hpending, Option.isSome_some])) _ _ _

/-- A silent decision that settles the pending reservation. -/
theorem Covers.settlePending {current : List RefValue} {replay : Option TerminalResult}
    (h : Covers gs (.conflict current replay none)) (reservation : Option ReservationOutcome)
    (hreservation : reservation.isSome = true → HasKind gs .reservation) :
    Covers gs (.conflict current replay reservation) :=
  { h with
    reservations := by
      simpa [WriteDecision.mutations, AcceptanceEffects.none, WriteDecision.settles] using
        hreservation }

theorem covers_ticketedRefs {valid : List ValidTicket} (hrecords : RecordsGuarded request gs)
    (h : ticketedRefs request limits valid s gs = .ok (d, out)) : Covers out d := by
  obtain ⟨decision, mid, hrefs, h⟩ := bind_run.1 h
  have hmid := hrecords.mono ((pushes_refs request.write limits).subset hrefs)
  have hcovers := (refAnswer_of_refs request.write limits hrefs).covers hmid.1
  split at h
  · obtain ⟨augmented, last, haugment, h⟩ := bind_run.1 h
    obtain ⟨rfl, rfl⟩ := (pure_run _ _).1 h
    exact covers_augmentApply request limits hmid hcovers haugment
  · obtain ⟨rfl, rfl⟩ := (pure_run _ _).1 h
    exact hcovers.settlePending _ fun hsome => hmid.2 (by simpa using hsome)
  · obtain ⟨rfl, rfl⟩ := (pure_run _ _).1 h
    exact hcovers

theorem covers_verification {valid : List ValidTicket} (hrecords : RecordsGuarded request gs)
    (h : verification request limits valid s gs = .ok (some d, out)) : Covers out d := by
  have hout := hrecords.mono ((pushes_verification request limits valid).subset h)
  rw [verification] at h
  cases hverdict : request.verification with
  | pending =>
    rw [hverdict] at h
    rw [← Option.some.inj ((pure_run _ _).1 h).1]
    exact covers_of_idle rfl (by simp [decisionClass]) rfl rfl
  | refused refusal =>
    rw [hverdict] at h
    obtain ⟨u, mid, -, h⟩ := bind_run.1 h
    rw [← Option.some.inj ((pure_run _ _).1 h).1]
    constructor <;> simp [decisionClass, WriteDecision.mutations, AcceptanceEffects.none,
      WriteDecision.records, WriteDecision.settles]
    simpa using hout.2
  | verified bases =>
    rw [hverdict] at h
    obtain ⟨u, mid, -, h⟩ := bind_run.1 h
    obtain ⟨u', mid', -, h⟩ := bind_run.1 h
    exact absurd ((pure_run _ _).1 h).1 (by simp)

theorem covers_driveValid {valid : List ValidTicket} (hrecords : RecordsGuarded request gs)
    (h : driveValid request limits valid s gs = .ok (d, out)) : Covers out d := by
  obtain ⟨answer, mid, hchecks, h⟩ := bind_run.1 h
  have hrest := answers_orElse (answers_context request.write limits)
    (answers_generationCheck request limits valid)
  have hmid := hrecords.mono
    ((pushes_orElse (pushes_verification request limits valid) hrest.pushes).subset hchecks)
  cases answer with
  | some decision =>
    obtain ⟨rfl, rfl⟩ := (pure_run _ _).1 h
    obtain ⟨verified, mid', hverification, hchecks⟩ := bind_run.1 hchecks
    cases verified with
    | some decision' =>
      obtain ⟨heq, rfl⟩ := (pure_run _ _).1 hchecks
      obtain rfl := Option.some.inj heq
      exact covers_verification request limits hrecords hverification
    | none => exact (hrest.plain s mid' decision mid hchecks).covers hmid.1
  | none => exact covers_ticketedRefs request limits hmid h

/-- The pending check answers with a retry only. -/
theorem pendingCheck_some (h : pendingCheck request limits s gs = .ok (some d, out)) :
    d = .retry .unavailable := by
  rw [pendingCheck] at h
  cases hpending : request.pending with
  | none =>
    rw [hpending] at h
    exact absurd ((pure_run _ _).1 h).1 (by simp)
  | some pending =>
    rw [hpending] at h
    obtain ⟨o, mid₁, -, h⟩ := bind_run.1 h
    obtain ⟨u, mid₂, -, h⟩ := bind_run.1 h
    obtain ⟨u', mid₃, -, h⟩ := bind_run.1 h
    split_ifs at h
    · exact (Option.some.inj ((pure_run _ _).1 h).1).symm
    · exact absurd ((pure_run _ _).1 h).1 (by simp)

/-- A replay that ran left a guard on the record. -/
theorem replayGuarded_of_ticketedReplay {answer : Option WriteDecision}
    (h : ticketedReplay request limits s gs = .ok (answer, out)) :
    ReplayGuarded request.write out := by
  intro hsome
  obtain ⟨recorded, mid, hreplay, h⟩ := bind_run.1 h
  refine (hasKind_replay request.write limits hsome hreplay).mono ?_
  split at h
  · rw [((pure_run _ _).1 h).2]
    exact List.Subset.refl out
  · split_ifs at h
    · rw [((pure_run _ _).1 h).2]
      exact List.Subset.refl out
    · rw [((pure_run _ _).1 h).2]
      exact List.Subset.refl out
  · rw [((pure_run _ _).1 h).2]
    exact List.Subset.refl out

theorem covers_drive (h : drive request limits s gs = .ok (d, out)) : Covers out d := by
  obtain ⟨answer, mid, hfirst, h⟩ := bind_run.1 h
  obtain ⟨early, start, hpending, hreplay⟩ := bind_run.1 hfirst
  cases early with
  | some decision =>
    obtain ⟨rfl, -⟩ := (pure_run _ _).1 hreplay
    obtain ⟨rfl, -⟩ := (pure_run _ _).1 h
    rw [pendingCheck_some request limits hpending]
    exact covers_of_idle rfl (by simp [decisionClass]) rfl rfl
  | none =>
    have hreplayed := replayGuarded_of_ticketedReplay request limits hreplay
    cases answer with
    | some decision =>
      obtain ⟨rfl, rfl⟩ := (pure_run _ _).1 h
      exact ((answers_ticketedReplay request limits).plain s start _ _ hreplay).covers hreplayed
    | none =>
      have hrow : request.pending.isSome = true → HasKind start .reservation := by
        intro hsome
        obtain ⟨pending, hsome⟩ := Option.isSome_iff_exists.1 hsome
        obtain ⟨o, -, hmem⟩ := pendingGuarded_of_run request limits hpending pending hsome
        exact ⟨_, hmem, rfl⟩
      have hrecords : RecordsGuarded request mid :=
        ⟨hreplayed, fun hsome => (hrow hsome).mono
          ((answers_ticketedReplay request limits).pushes.subset hreplay)⟩
      obtain ⟨tickets, last, htickets, h⟩ := bind_run.1 h
      have hrecords := hrecords.mono ((pushes_checkTickets request limits _).subset htickets)
      obtain ⟨d', rfl, hplain⟩ | ⟨valid, rfl, -, -⟩ :=
        checkTickets_cases request limits htickets
      · obtain ⟨rfl, rfl⟩ := (pure_run _ _).1 h
        exact hplain.covers hrecords.1
      · exact covers_driveValid request limits hrecords h

/-! ### Cleanups -/

theorem covers_abortLost {operation : OperationId} {detail : Bytes} {occurredMs : UInt64}
    {valid : List ValidTicket} (htickets : valid ≠ [] → HasKind gs .ticket)
    (hcovers : Covers gs (.apply effects))
    (h : abortLost request limits operation detail occurredMs valid effects s gs = .ok (e, out)) :
    Covers out (.apply e) := by
  induction valid generalizing gs effects with
  | nil =>
    obtain ⟨rfl, rfl⟩ := (pure_run _ _).1 h
    exact hcovers
  | cons ticket rest ih =>
    have hticket := htickets (List.cons_ne_nil _ _)
    rw [abortLost] at h
    split_ifs at h
    · exact ih (fun _ => hticket) hcovers h
    · obtain ⟨row, mid₁, hrow, h⟩ := bind_run.1 h
      obtain ⟨u, mid₂, hrefuse, h⟩ := bind_run.1 h
      obtain ⟨u', mid₃, hadd, h⟩ := bind_run.1 h
      have hread : Pushes limits (observedReservation ticket.fact.reservation) :=
        pushes_acquired _
      have hcheck : Pushes limits (refuseWhen (¬ isTicketed row ticket.claim.ticket)
        .invalidResponse) := pushes_refuseWhen _ _
      have hsub : gs ⊆ mid₃ := List.Subset.trans (hread.subset hrow)
        (List.Subset.trans (hcheck.subset hrefuse) ((pushes_add _).subset hadd))
      have hclosed := (hcovers.mono hsub).close (hticket.mono hsub) ticket.claim.ticket
      exact ih (fun _ => hticket.mono hsub)
        (hclosed.settle (hasKind_of_leaves (leaves_add limits _) hadd) _ _ _) h

theorem pushes_cleanupAttempt (operation : OperationId) (detail : Bytes) (occurredMs : UInt64)
    (rows : List (TicketClaim × Observed TicketFact × Option ValidTicket)) :
    Pushes limits (cleanupAttempt request limits operation detail occurredMs rows) :=
  (pushes_addAll limits _).bind fun _ => (pushes_abortLost request limits _ _ _ _ _).bind fun _ =>
    Grows.pure _

theorem covers_cleanupAttempt {operation : OperationId} {detail : Bytes} {occurredMs : UInt64}
    {rows : List (TicketClaim × Observed TicketFact × Option ValidTicket)}
    (h : cleanupAttempt request limits operation detail occurredMs rows s gs = .ok (d, out)) :
    Covers out d := by
  obtain ⟨u, mid, hadd, h⟩ := bind_run.1 h
  obtain ⟨effects, last, habort, h⟩ := bind_run.1 h
  obtain ⟨rfl, rfl⟩ := (pure_run _ _).1 h
  refine covers_abortLost request limits (fun hne => ?_)
    (covers_of_idle rfl (by simp [decisionClass]) rfl rfl) habort
  obtain ⟨ticket, hticket⟩ := List.exists_mem_of_ne_nil _ hne
  obtain ⟨row, hrow, -⟩ := List.mem_filterMap.1 hticket
  exact ⟨_, mem_of_addAll limits hadd (List.mem_map_of_mem hrow), rfl⟩

end Ticketed

/-! ### Settlements -/

/-- A settlement that meets a ticketed reservation in the state it expects. -/
def endsTicketed (snapshot : Snapshot) (reservation : ReservationId)
    (expected : Observed ReservationFact) : Bool :=
  match expected with
  | .present (.ticketed _) _ =>
    (snapshot.reservations.find? (·.1 = reservation)).map Prod.snd = some expected
  | _ => false

/-- A guard set without repetition or contradiction that covers its decision. -/
structure WellGuarded (guarded : Guarded WriteDecision) : Prop where
  distinct : guarded.required.Nodup
  compatible : guarded.required.Pairwise fun a b => compatible a b = true
  covers : Covers guarded.required guarded.decision

theorem WellGuarded.of_sealed {limit : ℕ} {guarded : Guarded WriteDecision}
    (h : Sealed limit guarded.required) (hcovers : Covers guarded.required guarded.decision) :
    WellGuarded guarded :=
  ⟨h.distinct, h.compatible, hcovers⟩

theorem covers_of_settlement {gs : List RequiredGuard} {reservation : ReservationId}
    {observed : Observed ReservationFact} (operation : OperationId)
    (terminal : ReservationTerminal) (h : .reservation reservation observed ∈ gs) :
    Covers gs (.apply (AcceptanceEffects.none.settle operation reservation terminal)) :=
  Covers.settle (covers_of_idle rfl (by simp [decisionClass]) rfl rfl) ⟨_, h, rfl⟩ _ _ _

/-- A settlement guards its reservation, and the ticket of a ticketed one. -/
theorem wellGuarded_of_settlement {repository : RepositoryId} {operation : OperationId}
    {reservation : ReservationId} {expected : Observed ReservationFact}
    {terminal : ReservationTerminal} {s : Snapshot} {limits : RefDecisionLimits}
    {decided : FencedDecision}
    (h : decideReservationSettlement repository operation reservation expected terminal s limits =
      .ok decided) : WellGuarded decided.guarded ∧ decided.guarded.required.length =
      if endsTicketed s reservation expected then 2 else 1 := by
  obtain ⟨observed, out, hobserved, -, hout, rfl⟩ := decideReservationSettlement_eq_ok h
  have hone : ∀ decision, Covers [.reservation reservation observed] decision →
      WellGuarded ⟨repository, decision, [.reservation reservation observed]⟩ :=
    fun decision hcovers => ⟨List.nodup_singleton _, List.pairwise_singleton _ _, hcovers⟩
  have hcovers : ∀ gs, .reservation reservation observed ∈ gs →
      Covers gs (.apply (AcceptanceEffects.none.settle operation reservation terminal)) :=
    fun gs hmem => covers_of_settlement operation terminal hmem
  by_cases heq : observed = expected
  · subst heq
    rw [if_pos rfl, closeSettledTicket.eq_def] at hout
    split at hout
    · rename_i ticket revision
      simp only [Wire.bind_eq_ok] at hout
      obtain ⟨row, -, -, -, hout⟩ := hout
      obtain rfl := Except.ok.inj hout
      have hends : endsTicketed s reservation (.present (.ticketed ticket) revision) = true := by
        rw [endsTicketed, hobserved, decide_eq_true rfl]
      refine ⟨⟨by simp, by simp [compatible, sameIdentity], ?_⟩, by rw [hends]; rfl⟩
      dsimp only
      split_ifs
      · exact (hcovers _ (by simp)).close ⟨.ticket ticket row, by simp, rfl⟩ _
      · exact hcovers _ (by simp)
    · rename_i hother
      obtain rfl := Except.ok.inj hout
      have hends : endsTicketed s reservation observed = false := by
        unfold endsTicketed
        split
        · exact absurd rfl (hother _ _)
        · rfl
      exact ⟨hone _ (hcovers _ (by simp)), by rw [hends]; rfl⟩
  · rw [if_neg heq] at hout
    obtain rfl := Except.ok.inj hout
    have hends : endsTicketed s reservation expected = false := by
      unfold endsTicketed
      split
      · rw [hobserved]
        exact decide_eq_false fun h => heq (Option.some.inj h)
      · rfl
    exact ⟨hone _ (covers_of_idle rfl (by simp [decisionClass]) rfl rfl), by rw [hends]; rfl⟩

/-! ### Publications -/

theorem wellGuarded_of_publication {request : RefPublication}
    {observed : Observed PublicationFact} {decided : FencedDecision}
    (h : decideRefPublication request observed = .ok decided) :
    WellGuarded decided.guarded ∧ decided.guarded.required.length = 1 := by
  unfold decideRefPublication at h
  obtain ⟨-, h⟩ := refuseIf_bind_eq_ok.1 h
  obtain ⟨decision, hdecision, h⟩ := Wire.bind_eq_ok.1 h
  obtain rfl := Except.ok.inj h
  refine ⟨⟨List.nodup_singleton _, List.pairwise_singleton _ _, ?_⟩, rfl⟩
  rw [publicationDecision] at hdecision
  split_ifs at hdecision
  · obtain rfl := Except.ok.inj hdecision
    exact covers_of_idle rfl (by simp [decisionClass]) rfl rfl
  · obtain ⟨sequence, -, hdecision⟩ := Wire.bind_eq_ok.1 hdecision
    obtain rfl := Except.ok.inj hdecision
    constructor <;> simp [decisionClass, WriteDecision.mutations, AcceptanceEffects.none,
      WriteDecision.records, WriteDecision.settles]
    exact ⟨_, List.mem_singleton_self _, rfl⟩

/-! ### Every decision -/

/-- The input of a decision with what it is decided on. -/
inductive WriteInput where
  | refWrite (request : RefWriteRequest) (snapshot : Snapshot) (limits : RefDecisionLimits)
  | ticketedAdvance (request : TicketedAdvanceRequest) (snapshot : Snapshot)
      (limits : RefDecisionLimits)
  | ticketCleanup (request : TicketedAdvanceRequest) (detail : Bytes) (occurredMs : UInt64)
      (snapshot : Snapshot) (limits : RefDecisionLimits)
  | settlement (repository : RepositoryId) (operation : OperationId) (reservation : ReservationId)
      (expected : Observed ReservationFact) (terminal : ReservationTerminal) (snapshot : Snapshot)
      (limits : RefDecisionLimits)
  | publication (request : RefPublication) (observed : Observed PublicationFact)

/-- The decision on an input. -/
def WriteInput.decide : WriteInput → Except Failure FencedDecision
  | .refWrite request snapshot limits => decideRefWrite request snapshot limits
  | .ticketedAdvance request snapshot limits => decideTicketedAdvance request snapshot limits
  | .ticketCleanup request detail occurredMs snapshot limits =>
    decideTicketCleanup request limits detail occurredMs snapshot
  | .settlement repository operation reservation expected terminal snapshot limits =>
    decideReservationSettlement repository operation reservation expected terminal snapshot
      limits
  | .publication request observed => decideRefPublication request observed

/-- The most guards a decision may return; a publication takes no limits and has one guard. -/
def WriteInput.guardLimit : WriteInput → ℕ
  | .refWrite _ _ limits | .ticketedAdvance _ _ limits | .ticketCleanup _ _ _ _ limits
  | .settlement _ _ _ _ _ _ limits => limits.guards.toNat
  | .publication _ _ => 1

/-- The limit has room for the guards of a settlement. The other decisions count theirs. -/
def WriteInput.Fits : WriteInput → Prop
  | .settlement _ _ reservation expected _ snapshot limits =>
    endsTicketed snapshot reservation expected = true → 2 ≤ limits.guards.toNat
  | _ => True

theorem sealed_of_attempt {req : RefWriteRequest} {attempt : Attempt WriteDecision}
    {limits : RefDecisionLimits} {snapshot : Snapshot} {decided : FencedDecision}
    (hpushes : Pushes limits attempt)
    (hcovers : ∀ d out, attempt snapshot [] = .ok (d, out) → Covers out d)
    (h : sealAttempt req attempt snapshot = .ok decided) :
    WellGuarded decided.guarded ∧ decided.guarded.required.length ≤ limits.guards.toNat := by
  obtain ⟨⟨d, out⟩, hrun, h⟩ := Wire.bind_eq_ok.1 h
  obtain rfl := Except.ok.inj h
  have hsealed := hpushes.sealed hrun
  exact ⟨.of_sealed hsealed (hcovers d out hrun), hsealed.bounded⟩

/-- Every decision is well guarded, and within its limit exactly when that fits. -/
theorem wellGuarded_of_decide {input : WriteInput} {decided : FencedDecision}
    (h : input.decide = .ok decided) : WellGuarded decided.guarded ∧
      (decided.guarded.required.length ≤ input.guardLimit ↔ input.Fits) := by
  cases input with
  | refWrite request snapshot limits =>
    simp only [WriteInput.decide, decideRefWrite, Wire.bind_eq_ok] at h
    obtain ⟨-, -, -, -, h⟩ := h
    obtain ⟨hguarded, hbounded⟩ := sealed_of_attempt (pushes_refAttempt request limits)
      (fun _ _ => covers_of_refAttempt request limits) h
    exact ⟨hguarded, iff_of_true hbounded trivial⟩
  | ticketedAdvance request snapshot limits =>
    simp only [WriteInput.decide, decideTicketedAdvance, Wire.bind_eq_ok] at h
    obtain ⟨-, -, -, -, h⟩ := h
    obtain ⟨hguarded, hbounded⟩ := sealed_of_attempt (pushes_drive request limits)
      (fun _ _ => covers_drive request limits) h
    exact ⟨hguarded, iff_of_true hbounded trivial⟩
  | ticketCleanup request detail occurredMs snapshot limits =>
    simp only [WriteInput.decide, decideTicketCleanup, Wire.bind_eq_ok, Prod.exists] at h
    obtain ⟨-, -, -, -, -, -, -, -, rows, -, ex, -, operation, -, d, out, hrun, h⟩ := h
    obtain rfl := Except.ok.inj h
    have hsealed := (pushes_cleanupAttempt request limits _ _ _ _).sealed hrun
    exact ⟨.of_sealed hsealed (covers_cleanupAttempt request limits hrun),
      iff_of_true hsealed.bounded trivial⟩
  | settlement repository operation reservation expected terminal snapshot limits =>
    obtain ⟨hguarded, hlength⟩ := wellGuarded_of_settlement h
    refine ⟨hguarded, ?_⟩
    have hpositive : 0 < limits.guards.toNat := by
      simp only [WriteInput.decide, decideReservationSettlement, settlementBounds,
        Wire.bind_eq_ok, refuseIf_eq_ok] at h
      obtain ⟨-, -, -, ⟨-, hzero, -⟩, -⟩ := h
      exact Nat.pos_of_ne_zero fun hz => hzero (UInt32.toNat_inj.1 hz)
    rw [hlength, WriteInput.guardLimit, WriteInput.Fits]
    split_ifs with hends
    · simp [hends]
    · simp [hends]
      omega
  | publication request observed =>
    obtain ⟨hguarded, hlength⟩ := wellGuarded_of_publication h
    exact ⟨hguarded, iff_of_true hlength.le trivial⟩

/-- **Every sealed decision guards itself.** The guards of a decision, with or without attached
acceptance bases, contain no guard twice and none contradicting another, and the decision passes
the audit of its own guards. Their number stays within the limit, except that the settlement of a
ticketed reservation returns two guards under a limit of one. -/
theorem decision_self_guarded_iff (input : WriteInput) (decided : FencedDecision)
    (sizes : MemorySizes) (bases : List AcceptanceBasis) (packs : List PackSource)
    (limits : RefDecisionLimits) (out : Guarded WriteDecision) (h : input.decide = .ok decided)
    (hattach : withAcceptanceBasis sizes decided.guarded bases packs limits = .ok out) :
    SelfGuarded (attachedLimit input.guardLimit bases packs limits) out ↔
      input.Fits ∨ bases ≠ [] ∨ packs ≠ [] := by
  obtain ⟨hguarded, hfits⟩ := wellGuarded_of_decide h
  have hattached : ∀ limit, decided.guarded.required.length ≤ limit →
      SelfGuarded (attachedLimit limit bases packs limits) out := fun limit hlimit =>
    SelfGuarded.attach ⟨hguarded.distinct, hguarded.compatible, hlimit⟩ hguarded.covers hattach
  by_cases hempty : bases = [] ∧ packs = []
  · have hnone : ¬ (bases ≠ [] ∨ packs ≠ []) := by simp [hempty]
    rw [or_iff_left hnone, ← hfits]
    refine ⟨fun hself => ?_, hattached _⟩
    rw [withAcceptanceBasis, if_pos hempty] at hattach
    rw [attachedLimit, if_pos hempty, ← Except.ok.inj hattach] at hself
    exact hself.bounded
  · have hsome : bases ≠ [] ∨ packs ≠ [] := by
      rwa [ne_eq, ne_eq, ← not_and_or]
    refine iff_of_true ?_ (.inr hsome)
    have hself := hattached _ le_rfl
    rw [attachedLimit, if_neg hempty] at hself ⊢
    exact hself

/-- A ticketed reservation whose ticket is gone. -/
def ticketedSnapshot : Snapshot :=
  { absentRefs [] with
    tickets := [(ZERO, .absent ZERO)]
    reservations := [(ZERO, .present (.ticketed ZERO) ZERO)] }

/-- The expiry of that reservation, with room for so many guards. -/
def expireTicketed (guards : UInt32) : WriteInput :=
  .settlement ZERO ZERO ZERO (.present (.ticketed ZERO) ZERO) ⟨ZERO, 7, .expired⟩ ticketedSnapshot
    ⟨64, guards, 8192, 65536, 512⟩

/-- What the expiry decides. -/
def expiredTicketed : FencedDecision :=
  ⟨⟨ZERO, .apply (AcceptanceEffects.none.settle ZERO ZERO ⟨ZERO, 7, .expired⟩),
    [.reservation ZERO (.present (.ticketed ZERO) ZERO), .ticket ZERO (.absent ZERO)]⟩, []⟩

/-- With room for two guards the expiry guards itself. -/
theorem decision_self_guarded_expired : SelfGuarded 2 expiredTicketed.guarded := by
  have hdecide : (expireTicketed 2).decide = .ok expiredTicketed := by decide +kernel
  have hattach : withAcceptanceBasis ⟨64, 64⟩ expiredTicketed.guarded [] []
      ⟨64, 8, 8192, 65536, 512⟩ = .ok expiredTicketed.guarded := rfl
  exact (decision_self_guarded_iff _ _ _ _ _ _ _ hdecide hattach).2 (.inl fun _ => le_rfl)

/-- With room for one guard it returns two. -/
theorem decision_exceeds_guard_limit :
    ∃ decided, (expireTicketed 1).decide = .ok decided ∧ (expireTicketed 1).guardLimit = 1 ∧
      decided.guarded.required.length = 2 ∧ ¬ SelfGuarded 1 decided.guarded := by
  refine ⟨expiredTicketed, by decide +kernel, rfl, rfl, fun h => ?_⟩
  have hbounded := h.bounded
  simp [expiredTicketed] at hbounded

end Mkit.Decision
