import Mkit.Decision.TicketEffects
import Mkit.Lib.Run

/-!
# Races over Tickets and Reservations

Any number of clients decide advances, cleanups and settlements on snapshots of their own and
commit them later, each atomically and only where all its guards match the rows of that moment.
What one commit can do to the rows is said once (`Settles`); that a reservation is settled at
most once, and a ticket closed at most once, follows for every interleaving.
-/

namespace Mkit.Decision

open Guarding

/-! ### Rows and commits -/

/-- The ticket and reservation rows of a host. -/
structure Rows where
  tickets : TicketId → Observed TicketFact
  reservations : ReservationId → Observed ReservationFact

namespace WriteDecision

/-- The reservations a decision settles. -/
def settled : WriteDecision → List ReservationOutcome
  | .apply effects => effects.reservations
  | .conflict _ _ reservation | .reject _ _ reservation => reservation.toList
  | _ => []

/-- The ticket rows a decision replaces. -/
def closed : WriteDecision → List TicketTransition
  | .apply effects => effects.tickets
  | _ => []

/-- The nonterminal reservation rows a decision writes. -/
def moved : WriteDecision → List ReservationTransition
  | .apply effects => effects.reservationTransitions
  | _ => []

/-- The durable outcomes a decision emits. -/
def outcomes : WriteDecision → List DurableOutcome
  | .apply effects => effects.outcomes
  | _ => []

end WriteDecision

/-- The row a ticket transition leaves. -/
def TicketTransition.row (transition : TicketTransition) (revision : Revision) :
    Observed TicketFact :=
  match transition.next with
  | none => .absent revision
  | some fact => .present fact revision

/-- Write the rows of a decision at a new revision; the last write of a row stays. -/
def Rows.commit (rows : Rows) (d : WriteDecision) (revision : Revision) : Rows where
  tickets id :=
    match d.closed.reverse.find? (·.id = id) with
    | some transition => transition.row revision
    | none => rows.tickets id
  reservations id :=
    match d.settled.reverse.find? (·.id = id) with
    | some outcome => .present (.terminal outcome.terminal) revision
    | none =>
      match d.moved.reverse.find? (·.id = id) with
      | some transition => .present transition.next revision
      | none => rows.reservations id

/-- A client: one of the three decisions over the rows, with its own input. -/
inductive Client where
  | advance (request : TicketedAdvanceRequest) (limits : RefDecisionLimits)
  | cleanup (request : TicketedAdvanceRequest) (limits : RefDecisionLimits) (detail : Bytes)
      (occurredMs : UInt64)
  | settlement (repository : RepositoryId) (operation : OperationId) (reservation : ReservationId)
      (expected : Observed ReservationFact) (terminal : ReservationTerminal)
      (limits : RefDecisionLimits)

def Client.decide : Client → Snapshot → Except Failure FencedDecision
  | .advance request limits, snapshot => decideTicketedAdvance request snapshot limits
  | .cleanup request limits detail occurredMs, snapshot =>
    decideTicketCleanup request limits detail occurredMs snapshot
  | .settlement repository operation reservation expected terminal limits, snapshot =>
    decideReservationSettlement repository operation reservation expected terminal snapshot limits

/-- A view of the moment shows the rows as they are. -/
def Rows.Shows (rows : Rows) (view : Snapshot) : Prop :=
  (∀ row ∈ view.tickets, rows.tickets row.1 = row.2) ∧
    ∀ row ∈ view.reservations, rows.reservations row.1 = row.2

/-- One commit. The snapshot the client decided on is unconstrained, so it may be any earlier one;
the guards are compared with a view of the rows at the commit. -/
def CommitStep (rows : Rows) (d : WriteDecision) (rows' : Rows) : Prop :=
  ∃ client snapshot g view nowMs revision, Client.decide client snapshot = .ok g ∧
    rows.Shows view ∧ guardsMatch g.guarded view nowMs = true ∧ g.guarded.decision = d ∧
    rows' = rows.commit d revision

/-- Every live ticket names a reservation that is bound to it. -/
def Rows.Bound (rows : Rows) : Prop :=
  ∀ ticket fact revision, rows.tickets ticket = .present fact revision →
    ∃ revision', rows.reservations fact.reservation = .present (.ticketed ticket) revision'

/-! ### What one commit does -/

/-- The guards of a decision agree with the rows. -/
def Rows.Agrees (rows : Rows) (guards : List RequiredGuard) : Prop :=
  (∀ id o, .ticket id o ∈ guards → rows.tickets id = o) ∧
    ∀ id o, .reservation id o ∈ guards → rows.reservations id = o

theorem Rows.Shows.agrees {rows : Rows} {view : Snapshot} (h : rows.Shows view) {nowMs : UInt64}
    {D : Type} {guarded : Guarded D} (hmatch : guardsMatch guarded view nowMs = true) :
    rows.Agrees guarded.required := by
  have hholds := holdsAt_of_guardsMatch hmatch
  refine ⟨fun id o hmem => ?_, fun id o hmem => ?_⟩
  · have hrow : (id, o) ∈ view.tickets := of_decide_eq_true (hholds _ hmem).2
    exact h.1 _ hrow
  · have hrow : (id, o) ∈ view.reservations := of_decide_eq_true (hholds _ hmem).2
    exact h.2 _ hrow

/-- A row that holds a terminal state. -/
def isTerminal (row : Observed ReservationFact) : Bool :=
  (terminalRow row).isSome

/-- What a decision may do to the rows it is committed over: it settles reservations that are not
settled, each once, closes live tickets, each once, and closes the ticket of every bound
reservation it settles. -/
structure Settles (rows : Rows) (d : WriteDecision) : Prop where
  settledOnce : (d.settled.map (·.id)).Nodup
  unsettled : ∀ outcome ∈ d.settled, isTerminal (rows.reservations outcome.id) = false
  closedOnce : (d.closed.map (·.id)).Nodup
  live : ∀ transition ∈ d.closed, transition.next = none ∧
    (rows.tickets transition.id).isPresent = true
  bound : ∀ outcome ∈ d.settled, ∀ ticket, isTicketed (rows.reservations outcome.id) ticket = true →
    (rows.tickets ticket).isPresent = true → ∃ transition ∈ d.closed, transition.id = ticket
  delivered : ∀ outcome ∈ d.outcomes, ⟨outcome.reservation, outcome.terminal⟩ ∈ d.settled
  moved : d.moved = []

/-- A silent decision touches nothing. -/
theorem settles_of_silent {rows : Rows} {d : WriteDecision} (h : d.isSilent = true) :
    Settles rows d := by
  have hnone : d.settled = [] ∧ d.closed = [] ∧ d.outcomes = [] ∧ d.moved = [] := by
    unfold WriteDecision.isSilent at h
    split at h
    · exact ⟨rfl, rfl, rfl, rfl⟩
    · exact ⟨rfl, rfl, rfl, rfl⟩
    · exact ⟨rfl, rfl, rfl, rfl⟩
    · exact ⟨rfl, rfl, rfl, rfl⟩
    · exact absurd h (by simp)
  obtain ⟨hsettled, hclosed, houtcomes, hmoved⟩ := hnone
  exact ⟨by simp [hsettled], by simp [hsettled], by simp [hclosed], by simp [hclosed],
    by simp [hsettled], by simp [houtcomes], hmoved⟩

section Kinds

variable {row : Observed ReservationFact} {ticket : TicketId}

theorem isTicketed_iff :
    isTicketed row ticket = true ↔ ∃ revision, row = .present (.ticketed ticket) revision := by
  constructor
  · intro h
    unfold isTicketed at h
    split at h
    · obtain rfl := of_decide_eq_true h
      exact ⟨_, rfl⟩
    · exact absurd h (by simp)
  · rintro ⟨revision, rfl⟩
    simp [isTicketed]

theorem isTicketed_inj {ticket' : TicketId} (h : isTicketed row ticket = true)
    (h' : isTicketed row ticket' = true) : ticket = ticket' := by
  obtain ⟨revision, rfl⟩ := isTicketed_iff.1 h
  simpa [isTicketed] using h'

theorem not_isTerminal_of_isTicketed (h : isTicketed row ticket = true) :
    isTerminal row = false := by
  obtain ⟨revision, rfl⟩ := isTicketed_iff.1 h
  rfl

theorem not_of_isPending (h : isPending row = true) :
    isTerminal row = false ∧ row.isPresent = true ∧ ∀ ticket, isTicketed row ticket = false := by
  unfold isPending at h
  split at h
  · exact ⟨rfl, rfl, fun _ => rfl⟩
  · exact absurd h (by simp)

theorem not_of_absent (h : row.isPresent = false) :
    isTerminal row = false ∧ ∀ ticket, isTicketed row ticket = false := by
  cases row with
  | absent revision => exact ⟨rfl, fun _ => rfl⟩
  | present value revision => exact absurd h (by simp [Observed.isPresent])

end Kinds

section Settles

variable {rows : Rows} {guards : List RequiredGuard}

/-- Tickets whose two rows are guarded: live, and bound to the reservations they name. -/
def Claimed (guards : List RequiredGuard) (tickets : List ValidTicket) : Prop :=
  (tickets.map (·.claim.ticket)).Nodup ∧ ∀ ticket ∈ tickets,
    (∃ revision, .ticket ticket.claim.ticket (.present ticket.fact revision) ∈ guards) ∧
      ∃ row, isTicketed row ticket.claim.ticket = true ∧
        .reservation ticket.fact.reservation row ∈ guards

theorem Claimed.isTicketed {tickets : List ValidTicket} (h : Claimed guards tickets)
    (hagrees : rows.Agrees guards) {ticket : ValidTicket} (hticket : ticket ∈ tickets) :
    isTicketed (rows.reservations ticket.fact.reservation) ticket.claim.ticket = true := by
  obtain ⟨-, row, hrow, hmem⟩ := h.2 ticket hticket
  rw [hagrees.2 _ _ hmem]
  exact hrow

theorem Claimed.isPresent {tickets : List ValidTicket} (h : Claimed guards tickets)
    (hagrees : rows.Agrees guards) {ticket : ValidTicket} (hticket : ticket ∈ tickets) :
    (rows.tickets ticket.claim.ticket).isPresent = true := by
  obtain ⟨⟨revision, hmem⟩, -⟩ := h.2 ticket hticket
  rw [hagrees.1 _ _ hmem]
  rfl

/-- Different tickets are bound to different reservations. -/
theorem Claimed.nodup_reservations {tickets : List ValidTicket} (h : Claimed guards tickets)
    (hagrees : rows.Agrees guards) : (tickets.map (·.fact.reservation)).Nodup := by
  have hinj : ∀ a ∈ tickets, ∀ b ∈ tickets, a.fact.reservation = b.fact.reservation →
      a.claim.ticket = b.claim.ticket := by
    intro a ha b hb heq
    have hb' := h.isTicketed hagrees hb
    rw [← heq] at hb'
    exact isTicketed_inj (h.isTicketed hagrees ha) hb'
  have hnodup := h.1
  rw [List.Nodup, List.pairwise_map] at hnodup ⊢
  refine hnodup.imp_of_mem fun {a b} ha hb hne heq => hne (hinj a ha b hb heq)

/-- Settling bound reservations together with their tickets, and besides reservations that are
neither bound nor settled. -/
theorem settles_of_claimed {tickets : List ValidTicket} {extra : List ReservationOutcome}
    {terminal : ValidTicket → ReservationTerminal} {effects : AcceptanceEffects}
    {operation : OperationId} (hclaimed : Claimed guards tickets) (hagrees : rows.Agrees guards)
    (hreservations : effects.reservations = tickets.map (fun ticket =>
      ⟨ticket.fact.reservation, terminal ticket⟩) ++ extra) (hextra : (extra.map (·.id)).Nodup)
    (hfree : ∀ outcome ∈ extra, isTerminal (rows.reservations outcome.id) = false ∧
      ∀ ticket, isTicketed (rows.reservations outcome.id) ticket = false)
    (htickets : effects.tickets = tickets.map fun ticket => ⟨ticket.claim.ticket, none⟩)
    (hdelivered : effects.Delivered operation) (hmoved : effects.reservationTransitions = []) :
    Settles rows (.apply effects) := by
  have hsettled : (WriteDecision.apply effects).settled = _ := hreservations
  have hclosed : (WriteDecision.apply effects).closed = _ := htickets
  refine ⟨?_, ?_, ?_, ?_, ?_, ?_, hmoved⟩
  · rw [hsettled, List.map_append, List.map_map]
    refine List.nodup_append.2 ⟨hclaimed.nodup_reservations hagrees, hextra, ?_⟩
    rintro id hid id' hid' rfl
    obtain ⟨ticket, hticket, rfl⟩ := List.mem_map.1 hid
    obtain ⟨outcome, houtcome, heq⟩ := List.mem_map.1 hid'
    have hbound := hclaimed.isTicketed hagrees hticket
    have hnot := (hfree outcome houtcome).2 ticket.claim.ticket
    rw [heq] at hnot
    exact absurd hbound (by simpa using hnot)
  · intro outcome houtcome
    rw [hsettled, List.mem_append] at houtcome
    obtain hmem | hmem := houtcome
    · obtain ⟨ticket, hticket, rfl⟩ := List.mem_map.1 hmem
      exact not_isTerminal_of_isTicketed (hclaimed.isTicketed hagrees hticket)
    · exact (hfree outcome hmem).1
  · rw [hclosed, List.map_map]
    exact hclaimed.1
  · intro transition htransition
    rw [hclosed] at htransition
    obtain ⟨ticket, hticket, rfl⟩ := List.mem_map.1 htransition
    exact ⟨rfl, hclaimed.isPresent hagrees hticket⟩
  · intro outcome houtcome id hid hpresent
    rw [hsettled, List.mem_append] at houtcome
    obtain hmem | hmem := houtcome
    · obtain ⟨ticket, hticket, rfl⟩ := List.mem_map.1 hmem
      obtain rfl := isTicketed_inj (hclaimed.isTicketed hagrees hticket) hid
      rw [hclosed]
      exact ⟨_, List.mem_map_of_mem hticket, rfl⟩
    · rw [(hfree outcome hmem).2 id] at hid
      exact absurd hid (by simp)
  · intro outcome houtcome
    have houtcomes : (WriteDecision.apply effects).outcomes = _ := hdelivered
    rw [houtcomes] at houtcome
    obtain ⟨settled, hsettled, rfl⟩ := List.mem_map.1 houtcome
    exact hsettled

variable {d : WriteDecision}

/-- A decision that settles one reservation, with the ticket bound to it. -/
theorem settles_of_one (outcome : ReservationOutcome) (hsettled : d.settled = [outcome])
    (hterminal : isTerminal (rows.reservations outcome.id) = false)
    (hclosed : (d.closed.map (·.id)).Nodup)
    (hlive : ∀ transition ∈ d.closed, transition.next = none ∧
      (rows.tickets transition.id).isPresent = true)
    (hbound : ∀ ticket, isTicketed (rows.reservations outcome.id) ticket = true →
      (rows.tickets ticket).isPresent = true → ∃ transition ∈ d.closed, transition.id = ticket)
    (hdelivered : ∀ o ∈ d.outcomes, ⟨o.reservation, o.terminal⟩ = outcome)
    (hmoved : d.moved = []) : Settles rows d := by
  refine ⟨by simp [hsettled], ?_, hclosed, hlive, ?_, ?_, hmoved⟩
  · intro o ho
    rw [hsettled, List.mem_singleton] at ho
    rw [ho]
    exact hterminal
  · intro o ho
    rw [hsettled, List.mem_singleton] at ho
    rw [ho]
    exact hbound
  · intro o ho
    rw [hdelivered o ho, hsettled]
    exact List.mem_singleton.2 rfl

/-- A decision that settles one pending reservation and nothing else. -/
theorem settles_of_pending (outcome : ReservationOutcome)
    (hsettled : d.settled = [outcome]) (hclosed : d.closed = []) (houtcomes : d.outcomes = [])
    (hmoved : d.moved = []) (hpending : isPending (rows.reservations outcome.id) = true) :
    Settles rows d := by
  obtain ⟨hterminal, -, hticketed⟩ := not_of_isPending hpending
  refine settles_of_one outcome hsettled hterminal (by simp [hclosed]) (by simp [hclosed]) ?_
    (by simp [houtcomes]) hmoved
  intro ticket hticket
  rw [hticketed ticket] at hticket
  exact absurd hticket (by simp)

variable {request : TicketedAdvanceRequest}

theorem PendingGuarded.isPending
    (h : PendingGuarded request guards) (hagrees : rows.Agrees guards) {pending : PendingBinding}
    (hpending : pending ∈ request.pending) :
    isPending (rows.reservations pending.reservation) = true := by
  obtain ⟨o, ho, hmem⟩ := h pending hpending
  rw [hagrees.2 _ _ hmem]
  exact ho

/-- The settlements of an accepted advance besides those of its tickets. -/
theorem extra_free {counted : List ReservationOutcome}
    (hagrees : rows.Agrees guards) (hlength : counted.length ≤ 1)
    (habsent : ∀ outcome ∈ counted, ∃ row, row.isPresent = false ∧
      .reservation outcome.id row ∈ guards) (hpending : PendingGuarded request guards) :
    let extra := counted ++ request.pending.toList.map fun pending =>
      pendingOutcome request pending false
    (extra.map (·.id)).Nodup ∧ ∀ outcome ∈ extra,
      isTerminal (rows.reservations outcome.id) = false ∧
        ∀ ticket, isTicketed (rows.reservations outcome.id) ticket = false := by
  intro extra
  have hcounted : ∀ outcome ∈ counted, (rows.reservations outcome.id).isPresent = false := by
    intro outcome houtcome
    obtain ⟨row, hrow, hmem⟩ := habsent outcome houtcome
    rw [hagrees.2 _ _ hmem]
    exact hrow
  have hlast : ∀ outcome ∈ request.pending.toList.map fun pending =>
      pendingOutcome request pending false,
      isPending (rows.reservations outcome.id) = true := by
    intro outcome houtcome
    obtain ⟨pending, hmem, rfl⟩ := List.mem_map.1 houtcome
    exact hpending.isPending hagrees (Option.mem_toList.1 hmem)
  refine ⟨?_, ?_⟩
  · rw [List.map_append]
    refine List.nodup_append.2 ⟨?_, ?_, ?_⟩
    · match counted, hlength with
      | [], _ => simp
      | [outcome], _ => simp
    · cases request.pending with
      | none => simp
      | some pending => simp
    · rintro id hid id' hid' rfl
      obtain ⟨outcome, houtcome, rfl⟩ := List.mem_map.1 hid
      obtain ⟨outcome', houtcome', heq⟩ := List.mem_map.1 hid'
      have hpresent := (not_of_isPending (hlast outcome' houtcome')).2.1
      rw [heq, hcounted outcome houtcome] at hpresent
      exact absurd hpresent (by simp)
  · intro outcome houtcome
    obtain hmem | hmem := List.mem_append.1 houtcome
    · exact not_of_absent (hcounted outcome hmem)
    · obtain ⟨hterminal, -, hticketed⟩ := not_of_isPending (hlast outcome hmem)
      exact ⟨hterminal, hticketed⟩

variable {s : Snapshot} {g : FencedDecision}

theorem settles_of_advance {limits : RefDecisionLimits}
    (h : decideTicketedAdvance request s limits = .ok g)
    (hagrees : rows.Agrees g.guarded.required) : Settles rows g.guarded.decision := by
  simp only [decideTicketedAdvance, Wire.bind_eq_ok, ticketedShape, validateClaims,
    refuseIf_eq_ok, not_or, sealAttempt, Prod.exists] at h
  obtain ⟨-, ⟨-, -, -, ⟨-, hclaims⟩, -⟩, -, -, d, out, hrun, hg⟩ := h
  obtain rfl := Except.ok.inj hg
  have hnodup : (request.tickets.map (·.ticket)).Nodup := by
    simpa [repeats] using hclaims
  obtain hsilent | ⟨pending, hmem, hpending, hsettled⟩ |
    ⟨valid, effects, mid, rfl, hpending, hvalid, hpresent, haugment⟩ :=
      drive_cases request limits hrun
  · exact settles_of_silent hsilent
  · have hrow := hpending.isPending hagrees hmem
    obtain ⟨refusal, rfl⟩ | ⟨current, replay, rfl⟩ := hsettled
    · exact settles_of_pending (failedProofOutcome request pending refusal) rfl rfl rfl rfl hrow
    · exact settles_of_pending (pendingOutcome request pending true) rfl rfl rfl rfl hrow
  · obtain ⟨operation, refs, counted, hdelivered, hreservations, hlength, habsent, htickets, hmoved,
      hsub, hguards⟩ := augmentApply_eq_ok request limits haugment
    obtain ⟨hextra, hfree⟩ := extra_free hagrees hlength habsent (hpending.mono request hsub)
    have hclaimed : Claimed out valid := by
      refine ⟨?_, fun ticket hticket => ?_⟩
      · rwa [← hvalid, List.map_map] at hnodup
      · obtain ⟨hguard, hrow⟩ := hguards ticket hticket
        obtain ⟨-, revision, hobserved⟩ := hpresent ticket hticket
        exact ⟨⟨revision, hobserved ▸ hguard⟩, hrow⟩
    rw [List.append_assoc] at hreservations
    exact settles_of_claimed hclaimed hagrees hreservations hextra hfree htickets hdelivered hmoved

/-- The valid rows of a cleanup keep the order of the claims. -/
theorem sublist_valid {examined : List (TicketClaim × Observed TicketFact × Option ValidTicket)}
    (h : ∀ row ∈ examined, ∀ ticket ∈ row.2.2, ticket.claim = row.1) :
    ((examined.filterMap fun row => row.2.2).map (·.claim)).Sublist (examined.map Prod.fst) := by
  induction examined with
  | nil => exact List.Sublist.refl _
  | cons row rest ih =>
    have hrest := ih fun other hother => h other (List.mem_cons_of_mem _ hother)
    cases hrow : row.2.2 with
    | none =>
      simp only [List.filterMap_cons, hrow, List.map_cons]
      exact hrest.cons _
    | some ticket =>
      simp only [List.filterMap_cons, hrow, List.map_cons,
        h row List.mem_cons_self ticket hrow]
      exact hrest.cons₂ _

theorem settles_of_cleanup {limits : RefDecisionLimits} {detail : Bytes} {occurredMs : UInt64}
    (h : decideTicketCleanup request limits detail occurredMs s = .ok g)
    (hagrees : rows.Agrees g.guarded.required) : Settles rows g.guarded.decision := by
  simp only [decideTicketCleanup, Wire.bind_eq_ok, validateClaims, refuseIf_eq_ok, not_or,
    okOr_eq_ok, Prod.exists] at h
  obtain ⟨-, -, -, ⟨-, hclaims⟩, -, -, -, -, all, hall, ex, hex, operation, -, d, out, hrun, hg⟩ := h
  obtain rfl := Except.ok.inj hg
  have hguards := mem_of_cleanupAttempt request limits hrun
  obtain ⟨u, mid, -, hrun⟩ := bind_run.1 hrun
  obtain ⟨effects, last, habort, hrun⟩ := bind_run.1 hrun
  obtain ⟨rfl, rfl⟩ := (pure_run _ _).1 hrun
  obtain ⟨hreservations, hdelivered, htickets, hmoved, hrows⟩ := abortLost_eq_ok request limits habort
  obtain ⟨hfirst, hvalid⟩ := cleanupRows_eq_ok request hall
  obtain ⟨boundary, -, rfl⟩ := Option.map_eq_some_iff.1 hex
  have hall : ∀ row ∈ all.take (boundary + 1), row ∈ all := fun row => List.mem_of_mem_take
  have hclaimed : Claimed last (lostTickets
      ((all.take (boundary + 1)).filterMap fun row => row.2.2)) := by
    refine ⟨?_, fun ticket hticket => ⟨?_, hrows ticket hticket⟩⟩
    · have hnodup : (request.tickets.map (·.ticket)).Nodup := by
        simpa [repeats] using hclaims
      have hkept := sublist_valid fun row hrow ticket hticket =>
        (hvalid row (hall row hrow) ticket hticket).1
      have hsub := (hkept.trans ((List.take_sublist _ all).map Prod.fst)).map TicketClaim.ticket
      rw [hfirst, List.map_map] at hsub
      exact ((List.filter_sublist.map _).trans hsub).nodup hnodup
    · obtain ⟨row, hrow, hmem⟩ := List.mem_filterMap.1 (List.mem_filter.1 hticket).1
      obtain ⟨hclaim, hobserved, revision, hpresent⟩ := hvalid row (hall row hrow) ticket hmem
      refine ⟨revision, ?_⟩
      rw [hclaim, ← hpresent, hobserved]
      exact hguards row hrow
  have hnone : AcceptanceEffects.none.reservations = [] := rfl
  rw [hnone, List.nil_append, ← List.append_nil (List.map _ _)] at hreservations
  exact settles_of_claimed hclaimed hagrees hreservations (by simp) (by simp) htickets
    (hdelivered rfl) hmoved

/-- A settlement never starts from a terminal row. -/
theorem not_isTerminal_of_legal {row : Observed ReservationFact} {kind : ReservationTerminalKind}
    (h : settlementLegal row kind = true) : isTerminal row = false := by
  unfold settlementLegal at h
  split at h
  · rfl
  · rfl
  · rfl
  · rfl
  · rfl
  · rfl
  · exact absurd h (by simp)

theorem settles_of_settlement {repository : RepositoryId} {operation : OperationId}
    {reservation : ReservationId} {expected : Observed ReservationFact}
    {terminal : ReservationTerminal} {limits : RefDecisionLimits}
    (h : decideReservationSettlement repository operation reservation expected terminal s limits =
      .ok g) (hagrees : rows.Agrees g.guarded.required) : Settles rows g.guarded.decision := by
  obtain ⟨o, out, ho, hlegal, hout, rfl⟩ := decideReservationSettlement_eq_ok h
  split_ifs at hout with heq
  · obtain rfl := heq
    have hrow : rows.reservations reservation = o :=
      hagrees.2 _ _ (subset_of_closeSettledTicket hout (List.mem_singleton.2 rfl))
    have hterminal := not_isTerminal_of_legal hlegal
    rw [closeSettledTicket.eq_def] at hout
    split at hout
    · rename_i ticket revision
      simp only [Wire.bind_eq_ok, okOr_eq_ok] at hout
      obtain ⟨row, -, -, -, hout⟩ := hout
      obtain rfl := Except.ok.inj hout
      have hticket := hagrees.1 _ _ (List.mem_append_right _ (List.mem_singleton.2 rfl))
      have hbound : ∀ id, isTicketed (rows.reservations reservation) id = true → id = ticket := by
        intro id hid
        rw [hrow] at hid
        exact isTicketed_inj hid (isTicketed_iff.2 ⟨revision, rfl⟩)
      by_cases hpresent : row.isPresent = true
      · rw [if_pos hpresent]
        refine settles_of_one ⟨reservation, terminal⟩ rfl (hrow ▸ hterminal)
          (by simp [WriteDecision.closed, AcceptanceEffects.close, AcceptanceEffects.settle,
            AcceptanceEffects.none]) ?_ ?_ ?_ rfl
        · intro transition htransition
          rw [List.mem_singleton.1 htransition, hticket]
          exact ⟨rfl, hpresent⟩
        · intro id hid _
          exact ⟨⟨ticket, none⟩, List.mem_singleton.2 rfl, (hbound id hid).symm⟩
        · intro o ho
          rw [List.mem_singleton.1 ho]
      · rw [if_neg hpresent]
        refine settles_of_one ⟨reservation, terminal⟩ rfl (hrow ▸ hterminal) List.nodup_nil ?_ ?_ ?_
          rfl
        · exact fun _ h => absurd h List.not_mem_nil
        · intro id hid hlive
          rw [hbound id hid, hticket] at hlive
          exact absurd hlive hpresent
        · intro o ho
          rw [List.mem_singleton.1 ho]
    · rename_i hother
      obtain rfl := Except.ok.inj hout
      refine settles_of_one ⟨reservation, terminal⟩ rfl (hrow ▸ hterminal) List.nodup_nil ?_ ?_ ?_
        rfl
      · exact fun _ h => absurd h List.not_mem_nil
      · intro id hid _
        obtain ⟨revision, hid⟩ := isTicketed_iff.1 hid
        exact absurd (hrow.symm.trans hid) (hother id revision)
      · intro o ho
        rw [List.mem_singleton.1 ho]
  · obtain rfl := Except.ok.inj hout
    exact ⟨List.nodup_nil, by simp [WriteDecision.settled, AcceptanceEffects.none], List.nodup_nil,
      by simp [WriteDecision.closed, AcceptanceEffects.none],
      by simp [WriteDecision.settled, AcceptanceEffects.none],
      by simp [WriteDecision.outcomes, AcceptanceEffects.none], rfl⟩

/-- Every committed decision settles. -/
theorem settles_of_commit {client : Client} {snapshot view : Snapshot}
    {nowMs : UInt64} (h : client.decide snapshot = .ok g) (hshows : rows.Shows view)
    (hmatch : guardsMatch g.guarded view nowMs = true) : Settles rows g.guarded.decision := by
  have hagrees := hshows.agrees hmatch
  cases client with
  | advance request limits => exact settles_of_advance h hagrees
  | cleanup request limits detail occurredMs => exact settles_of_cleanup h hagrees
  | settlement repository operation reservation expected terminal limits =>
    exact settles_of_settlement h hagrees

end Settles

/-! ### Steps -/

section Steps

variable {rows : Rows} {d : WriteDecision} {revision : Revision}

variable {α β : Type} {l : List α}

theorem find?_reverse_of_nodup [DecidableEq β] {key : α → β}
    (hnodup : (l.map key).Nodup) {a : α} (ha : a ∈ l) :
    l.reverse.find? (fun x => key x = key a) = some a := by
  have hreverse : repeats (l.reverse.map key) = false := by
    have hperm := (List.reverse_perm (l.map key)).nodup_iff.2 hnodup
    simpa [repeats, List.map_reverse] using hperm
  exact find?_of_mem key hreverse (List.mem_reverse.2 ha)

theorem find?_reverse_eq_none [DecidableEq β] {key : α → β} {b : β}
    (h : ∀ a ∈ l, key a ≠ b) : l.reverse.find? (fun x => key x = b) = none := by
  rw [List.find?_eq_none]
  intro a ha
  simpa using h a (List.mem_reverse.1 ha)

/-- A settled reservation holds the terminal row of its settlement. -/
theorem Settles.reservations_of_mem (h : Settles rows d) {outcome : ReservationOutcome}
    (houtcome : outcome ∈ d.settled) : (rows.commit d revision).reservations outcome.id =
      .present (.terminal outcome.terminal) revision := by
  simp only [Rows.commit, find?_reverse_of_nodup h.settledOnce houtcome]

/-- Other reservations keep their rows. -/
theorem Settles.reservations_of_not_mem (h : Settles rows d) {id : ReservationId}
    (hid : ∀ outcome ∈ d.settled, outcome.id ≠ id) :
    (rows.commit d revision).reservations id = rows.reservations id := by
  simp only [Rows.commit, find?_reverse_eq_none hid, h.moved, List.reverse_nil, List.find?_nil]

/-- A closed ticket is gone. -/
theorem Settles.tickets_of_mem (h : Settles rows d) {transition : TicketTransition}
    (htransition : transition ∈ d.closed) :
    (rows.commit d revision).tickets transition.id = .absent revision := by
  simp only [Rows.commit, find?_reverse_of_nodup h.closedOnce htransition, TicketTransition.row,
    (h.live transition htransition).1]

/-- Other tickets keep their rows. -/
theorem tickets_of_not_mem {id : TicketId} (hid : ∀ transition ∈ d.closed, transition.id ≠ id) :
    (rows.commit d revision).tickets id = rows.tickets id := by
  simp only [Rows.commit, find?_reverse_eq_none hid]

/-- A terminal row is not replaced. -/
theorem Settles.terminal_kept (h : Settles rows d) {id : ReservationId}
    (hterminal : isTerminal (rows.reservations id) = true) :
    (rows.commit d revision).reservations id = rows.reservations id := by
  refine h.reservations_of_not_mem fun outcome houtcome heq => ?_
  have hunsettled := h.unsettled outcome houtcome
  rw [heq, hterminal] at hunsettled
  exact absurd hunsettled (by simp)

/-- A ticket that is gone does not come back. -/
theorem Settles.absent_kept (h : Settles rows d) {id : TicketId}
    (habsent : (rows.tickets id).isPresent = false) :
    ((rows.commit d revision).tickets id).isPresent = false := by
  rw [tickets_of_not_mem, habsent]
  intro transition htransition heq
  have hlive := (h.live transition htransition).2
  rw [heq, habsent] at hlive
  exact absurd hlive (by simp)

/-- Live tickets stay bound. -/
theorem Settles.bound_kept (h : Settles rows d) (hbound : rows.Bound) :
    (rows.commit d revision).Bound := by
  intro ticket fact revision' hticket
  have hopen : ∀ transition ∈ d.closed, transition.id ≠ ticket := by
    intro transition htransition heq
    rw [← heq, h.tickets_of_mem htransition] at hticket
    exact absurd hticket (by simp)
  rw [tickets_of_not_mem hopen] at hticket
  obtain ⟨revision'', hrow⟩ := hbound ticket fact revision' hticket
  refine ⟨revision'', ?_⟩
  rw [h.reservations_of_not_mem, hrow]
  -- a settlement of its reservation would have closed the ticket
  intro outcome houtcome heq
  obtain ⟨transition, htransition, hid⟩ := h.bound outcome houtcome ticket
    (isTicketed_iff.2 ⟨revision'', heq ▸ hrow⟩) (by rw [hticket]; rfl)
  exact hopen transition htransition hid

end Steps

/-! ### Runs -/

/-- The settlements of a run. -/
def settlements (tr : List WriteDecision) : List ReservationOutcome :=
  tr.flatMap WriteDecision.settled

/-- The ticket closings of a run. -/
def closings (tr : List WriteDecision) : List TicketTransition :=
  tr.flatMap WriteDecision.closed

/-- What holds after a run: everything settled in it is stored as it was settled, and everything
closed in it is gone. -/
structure Settled (first : Rows) (tr : List WriteDecision) (rows : Rows) : Prop where
  bound : rows.Bound
  settledOnce : ((settlements tr).map (·.id)).Nodup
  stored : ∀ outcome ∈ settlements tr, ∃ revision,
    rows.reservations outcome.id = .present (.terminal outcome.terminal) revision
  fresh : ∀ outcome ∈ settlements tr, isTerminal (first.reservations outcome.id) = false
  kept : ∀ id, isTerminal (first.reservations id) = true →
    rows.reservations id = first.reservations id
  closedOnce : ((closings tr).map (·.id)).Nodup
  gone : ∀ transition ∈ closings tr, (rows.tickets transition.id).isPresent = false
  delivered : ∀ outcome ∈ tr.flatMap WriteDecision.outcomes,
    ⟨outcome.reservation, outcome.terminal⟩ ∈ settlements tr

theorem settled_nil {rows : Rows} (h : rows.Bound) : Settled rows [] rows := by
  refine ⟨h, List.nodup_nil, ?_, ?_, fun _ _ => rfl, List.nodup_nil, ?_, ?_⟩
  · simp [settlements]
  · simp [settlements]
  · simp [closings]
  · simp

/-- One more commit. -/
theorem Settled.snoc {first rows : Rows} {tr : List WriteDecision} {d : WriteDecision}
    {revision : Revision} (h : Settled first tr rows) (hd : Settles rows d) :
    Settled first (tr ++ [d]) (rows.commit d revision) := by
  have hsettlements : settlements (tr ++ [d]) = settlements tr ++ d.settled := by
    simp [settlements]
  have hclosings : closings (tr ++ [d]) = closings tr ++ d.closed := by
    simp [closings]
  have hstored : ∀ outcome ∈ settlements tr,
      isTerminal (rows.reservations outcome.id) = true := by
    intro outcome houtcome
    obtain ⟨revision, hrow⟩ := h.stored outcome houtcome
    rw [hrow]
    rfl
  refine ⟨hd.bound_kept h.bound, ?_, ?_, ?_, ?_, ?_, ?_, ?_⟩
  · rw [hsettlements, List.map_append]
    refine List.nodup_append.2 ⟨h.settledOnce, hd.settledOnce, ?_⟩
    rintro id hid id' hid' rfl
    obtain ⟨outcome, houtcome, rfl⟩ := List.mem_map.1 hid
    obtain ⟨outcome', houtcome', heq⟩ := List.mem_map.1 hid'
    have hunsettled := hd.unsettled outcome' houtcome'
    rw [heq, hstored outcome houtcome] at hunsettled
    exact absurd hunsettled (by simp)
  · intro outcome houtcome
    rw [hsettlements, List.mem_append] at houtcome
    obtain hpast | hnow := houtcome
    · rw [hd.terminal_kept (hstored outcome hpast)]
      exact h.stored outcome hpast
    · exact ⟨revision, hd.reservations_of_mem hnow⟩
  · intro outcome houtcome
    rw [hsettlements, List.mem_append] at houtcome
    obtain hpast | hnow := houtcome
    · exact h.fresh outcome hpast
    · rw [Bool.eq_false_iff]
      intro hterminal
      have hunsettled := hd.unsettled outcome hnow
      rw [h.kept outcome.id hterminal, hterminal] at hunsettled
      exact absurd hunsettled (by simp)
  · intro id hterminal
    have hrow := h.kept id hterminal
    rw [hd.terminal_kept (hrow ▸ hterminal), hrow]
  · rw [hclosings, List.map_append]
    refine List.nodup_append.2 ⟨h.closedOnce, hd.closedOnce, ?_⟩
    rintro id hid id' hid' rfl
    obtain ⟨transition, htransition, rfl⟩ := List.mem_map.1 hid
    obtain ⟨transition', htransition', heq⟩ := List.mem_map.1 hid'
    have hlive := (hd.live transition' htransition').2
    rw [heq, h.gone transition htransition] at hlive
    exact absurd hlive (by simp)
  · intro transition htransition
    rw [hclosings, List.mem_append] at htransition
    obtain hpast | hnow := htransition
    · exact hd.absent_kept (h.gone transition hpast)
    · rw [hd.tickets_of_mem hnow]
      rfl
  · intro outcome houtcome
    rw [List.flatMap_append, List.mem_append] at houtcome
    rw [hsettlements, List.mem_append]
    obtain hpast | hnow := houtcome
    · exact .inl (h.delivered outcome hpast)
    · exact .inr (hd.delivered outcome (by simpa using hnow))

/-- The invariant along every run. -/
theorem settled_of_run {first rows : Rows} {tr : List WriteDecision} (hbound : first.Bound)
    (hrun : Lts.Run CommitStep first tr rows) : Settled first tr rows := by
  refine hrun.invariant (I := Settled first) (settled_nil hbound) ?_
  rintro tr rows' d rows'' hsettled ⟨client, snapshot, g, view, nowMs, revision, hdecide, hshows,
    hmatch, rfl, rfl⟩
  exact hsettled.snoc (settles_of_commit hdecide hshows hmatch)

/-- **Settlement at most once.** From rows whose live tickets are bound, in every interleaving of
commits: every reservation receives at most one terminal row and only when it had none; a
terminal row is never replaced; every ticket is closed at most once; no live ticket names a
settled reservation; and every durable outcome is the terminal row its reservation holds. -/
theorem settlement_at_most_once (first : Rows) (hbound : first.Bound) (tr : List WriteDecision)
    (rows : Rows) (hrun : Lts.Run CommitStep first tr rows) : ((settlements tr).map (·.id)).Nodup ∧
    (∀ outcome ∈ settlements tr, isTerminal (first.reservations outcome.id) = false) ∧
    (∀ past later middle, Lts.Run CommitStep first past middle →
      Lts.Run CommitStep middle later rows → ∀ id,
      isTerminal (middle.reservations id) = true →
        rows.reservations id = middle.reservations id) ∧
    ((closings tr).map (·.id)).Nodup ∧
    (∀ ticket fact revision, rows.tickets ticket = .present fact revision →
      isTerminal (rows.reservations fact.reservation) = false) ∧
    ∀ outcome ∈ tr.flatMap WriteDecision.outcomes, ∃ revision,
      rows.reservations outcome.reservation = .present (.terminal outcome.terminal) revision := by
  have hsettled := settled_of_run hbound hrun
  refine ⟨hsettled.settledOnce, hsettled.fresh, ?_, hsettled.closedOnce, ?_, ?_⟩
  · intro past later middle hpast hlater id hterminal
    exact (settled_of_run (settled_of_run hbound hpast).bound hlater).kept id hterminal
  · intro ticket fact revision hticket
    obtain ⟨revision', hrow⟩ := hsettled.bound ticket fact revision hticket
    rw [hrow]
    rfl
  · intro outcome houtcome
    exact hsettled.stored _ (hsettled.delivered outcome houtcome)

/-- The rows of the sample: one live ticket. -/
def sampleRows : Rows where
  tickets id := if id = digest 2 then .present sampleTicket ZERO else .absent ZERO
  reservations id := if id = digest 3 then .present (.ticketed (digest 2)) ZERO else .absent ZERO

/-- The sample advance consumes the ticket and settles two reservations: the ticket's and the
counter's. -/
theorem settlement_at_most_once_sample :
    ∃ d rows, Lts.Run CommitStep sampleRows [d] rows ∧ (settlements [d]).length = 2 ∧
      ((settlements [d]).map (·.id)).Nodup ∧ (closings [d]).length = 1 := by
  have hbound : sampleRows.Bound := by
    intro ticket fact revision h
    simp only [sampleRows] at h
    split_ifs at h with hticket
    obtain ⟨rfl, -⟩ := Observed.present.inj h
    exact ⟨ZERO, by rw [hticket]; decide⟩
  have hshows : sampleRows.Shows (sampleSnapshot none) := by
    constructor
    · decide
    · decide
  have heffects : ((decideTicketedAdvance sampleAdvanceRequest (sampleSnapshot none)
      sampleLimits).toOption.any fun g =>
        guardsMatch g.guarded (sampleSnapshot none) 10 &&
          (g.guarded.decision.settled.length == 2 && g.guarded.decision.closed.length == 1)) =
      true := by
    decide +kernel
  cases h : decideTicketedAdvance sampleAdvanceRequest (sampleSnapshot none) sampleLimits with
  | error e => exact absurd heffects (by rw [h]; exact Bool.false_ne_true)
  | ok g =>
    rw [h] at heffects
    obtain ⟨hmatch, hlengths⟩ := (Bool.and_eq_true _ _).mp heffects
    obtain ⟨hsettled, hclosed⟩ := (Bool.and_eq_true _ _).mp hlengths
    have hrun : Lts.Run CommitStep sampleRows [g.guarded.decision]
        (sampleRows.commit g.guarded.decision ZERO) :=
      Lts.Run.single ⟨.advance sampleAdvanceRequest sampleLimits, sampleSnapshot none, g,
        sampleSnapshot none, 10, ZERO, h, hshows, hmatch, rfl, rfl⟩
    have honce := settlement_at_most_once sampleRows hbound _ _ hrun
    refine ⟨_, _, hrun, ?_, honce.1, ?_⟩
    · simpa [settlements] using hsettled
    · simpa [closings] using hclosed

end Mkit.Decision
