import Mkit.Decision.RefGuards

/-!
# Sufficiency of the Ticket Guards

The ticketed advance, the ticket cleanup and the reservation settlement guard every row they
look at, as the ref decision does. The cleanup looks at the rows up to the first failure only, and
exactly these are guarded: a row behind the failure may change without changing the decision.
-/

namespace Mkit.Decision

open Guarding

section Advance

variable {nowMs : UInt64} (request : TicketedAdvanceRequest) (limits : RefDecisionLimits)
variable {P : Snapshot → List RequiredGuard → Prop}

theorem stable_pendingCheck (hP : Persistent P) :
    Stable (HoldsAt nowMs) P (pendingCheck request limits) := by
  rw [pendingCheck]
  cases request.pending with
  | none => exact Stable.pure _
  | some pending =>
    refine stable_guarded hP (fun o current h => pin_reservation h) fun o => ?_
    refine (stable_refuseWhen _ _).bind hP fun _ => ?_
    split_ifs
    · exact Stable.pure _
    · exact Stable.pure _

theorem stable_ticketedReplay (hP : Persistent P) :
    Stable (HoldsAt nowMs) P (ticketedReplay request limits) := by
  refine (stable_replay request.write limits hP).bind hP fun answer => ?_
  split
  · exact Stable.pure _
  · split_ifs
    · exact Stable.pure _
    · exact Stable.pure _
  · exact Stable.pure _

variable {s : Snapshot}

/-- After the replay check of a ticketed advance the replay row is known. -/
theorem replayKnown_of_ticketedReplay {gs out : List RequiredGuard}
    {a : Option WriteDecision} (hrun : ticketedReplay request limits s gs = .ok (a, out)) :
    ReplayKnown request.write s out := by
  obtain ⟨answer, mid, hreplay, hrun⟩ := bind_run.1 hrun
  have hknown := replayKnown_of_run request.write limits hreplay
  suffices hmid : mid = out by
    rwa [hmid] at hknown
  split at hrun
  · exact ((pure_run _ _).1 hrun).2
  · split_ifs at hrun
    · exact ((pure_run _ _).1 hrun).2
    · exact ((pure_run _ _).1 hrun).2
  · exact ((pure_run _ _).1 hrun).2

theorem stable_checkTickets (hP : Persistent P) (claims : List TicketClaim) :
    Stable (HoldsAt nowMs) P (checkTickets request limits claims) := by
  induction claims with
  | nil => exact Stable.pure _
  | cons claim rest ih =>
    rw [checkTickets]
    refine stable_checked hP (fun o _ current h => pin_ticket h) fun o verdict => ?_
    cases provenVerdict claim verdict with
    | refuse code message => exact (stable_reject _ _).bind hP fun _ => Stable.pure _
    | valid fact =>
      refine ih.bind hP fun answer => ?_
      cases answer with
      | inl decision => exact Stable.pure _
      | inr valid => exact Stable.pure _

theorem stable_addAll (hP : Persistent P) (guards : List RequiredGuard) :
    Stable (HoldsAt nowMs) P (addAll limits guards) := by
  induction guards with
  | nil => exact Stable.pure _
  | cons guard rest ih => exact (stable_add guard).bind hP fun _ => ih

theorem stable_verification (hP : Persistent P) (valid : List ValidTicket) :
    Stable (HoldsAt nowMs) P (verification request limits valid) := by
  rw [verification]
  cases request.verification with
  | pending => exact Stable.pure _
  | refused refusal => exact (stable_refuseWhen _ _).bind hP fun _ => Stable.pure _
  | verified bases =>
    exact (stable_refuseWhen _ _).bind hP fun _ =>
      (stable_addAll limits hP _).bind hP fun _ => Stable.pure _

theorem stable_generationCheck (valid : List ValidTicket) :
    Stable (HoldsAt nowMs) P (generationCheck request limits valid) := by
  rw [generationCheck]
  cases request.write.required.authority with
  | none => exact Stable.pure _
  | some bound =>
    dsimp only
    split_ifs
    · exact stable_answerReject _ _
    · exact Stable.pure _

/-- The reservation row of a consumed ticket is guarded after its ticket row. -/
theorem stable_consume (hP : Persistent P) (operation : OperationId) (refs : List RefValue)
    (valid : List ValidTicket) (effects : AcceptanceEffects) :
    Stable (HoldsAt nowMs) P (consume request limits operation refs valid effects) := by
  induction valid generalizing effects with
  | nil => exact Stable.pure _
  | cons ticket rest ih =>
    rw [consume]
    refine Stable.read (fun row s gs b out hrun => ?_) fun row => ?_
    · obtain ⟨-, mid, -, hrun⟩ := bind_run.1 hrun
      obtain ⟨-, later, -, hrun⟩ := bind_run.1 hrun
      have hmem := (leaves_add limits (.reservation ticket.fact.reservation row)).bind_left
        (fun _ => (ih _).keeps) s later b out hrun
      exact ⟨_, hmem, pins_acquired fun current h => pin_reservation h⟩
    · refine (stable_refuseWhen _ _).bind hP fun _ => ?_
      exact (stable_add _).bind hP fun _ => (stable_add _).bind hP fun _ => ih _

theorem stable_guardCounter (hP : Persistent P) (valid : List ValidTicket)
    (observed : Observed StorageFact) :
    Stable (HoldsAt nowMs) P (guardCounter request limits valid observed) := by
  rw [guardCounter]
  split_ifs
  · exact Stable.pure _
  · refine Stable.read (fun row s gs b out hrun => ?_) fun row => ?_
    · have hmem := Leaves.bind_right
        (fun _ => leaves_add limits (.storage request.write.repository row)) s gs b out hrun
      exact ⟨_, hmem, pins_acquired fun current h => (of_decide_eq_true h.2).2⟩
    · exact (stable_refuseWhen _ _).bind hP fun _ => stable_add _

theorem stable_moveCounter (hP : Persistent P) (operation : OperationId)
    (observed : Observed StorageFact) (outcome : ReservationId) (occurredMs added : UInt64)
    (effects : AcceptanceEffects) : Stable (HoldsAt nowMs) P
      (moveCounter request limits operation observed outcome occurredMs added effects) := by
  refine (Stable.lift _).bind hP fun counter => (Stable.lift _).bind hP fun next => ?_
  exact stable_checked hP (fun o _ current h => pin_reservation h) fun _ _ => Stable.pure _

theorem stable_countStorage (hP : Persistent P) (operation : OperationId)
    (valid : List ValidTicket) (effects : AcceptanceEffects) :
    Stable (HoldsAt nowMs) P (countStorage request limits operation valid effects) := by
  rw [countStorage]
  cases request.storage with
  | disabled => exact Stable.pure _
  | relay => exact Stable.pure _
  | «inline» observed outcome occurredMs =>
    refine (Stable.lift _).bind hP fun added => ?_
    refine (stable_guardCounter request limits hP valid observed).bind hP fun _ => ?_
    split_ifs
    · exact stable_moveCounter request limits hP _ _ _ _ _ _
    · exact Stable.pure _

theorem stable_augmentApply (hP : Persistent P) (valid : List ValidTicket)
    (effects : AcceptanceEffects) :
    Stable (HoldsAt nowMs) P (augmentApply request limits valid effects) := by
  refine (Stable.lift _).bind hP fun operation => ?_
  refine (stable_consume request limits hP _ _ _ _).bind hP fun consumed => ?_
  refine (stable_countStorage request limits hP _ _ _).bind hP fun counted => ?_
  cases request.pending with
  | none => exact Stable.pure _
  | some pending => exact Stable.pure _

theorem stable_ticketedRefs (hP : Persistent P) (valid : List ValidTicket) :
    Stable (HoldsAt nowMs) P (ticketedRefs request limits valid) := by
  refine (stable_refs request.write limits hP).bind hP fun decision => ?_
  split
  · exact (stable_augmentApply request limits hP _ _).bind hP fun _ => Stable.pure _
  · exact Stable.pure _
  · exact Stable.pure _

theorem stable_driveValid (valid : List ValidTicket) :
    Stable (HoldsAt nowMs) (ReplayKnown request.write) (driveValid request limits valid) := by
  have hreplay := persistent_replayKnown request.write
  have hchecks : Stable (HoldsAt nowMs) (ReplayKnown request.write)
      (orElse (verification request limits valid) (orElse (context request.write limits)
        (generationCheck request limits valid))) :=
    stable_orElse hreplay (stable_verification request limits hreplay valid)
      (stable_orElse hreplay (stable_context request.write limits)
        (stable_generationCheck request limits valid))
  refine hchecks.bind hreplay fun answer => ?_
  cases answer with
  | some decision => exact Stable.pure _
  | none => exact stable_ticketedRefs request limits hreplay valid

/-- What is known when neither the pending reservation nor replay answers. -/
theorem replayKnown_of_fresh {gs out : List RequiredGuard}
    (hrun : orElse (pendingCheck request limits) (ticketedReplay request limits) s gs =
      .ok (none, out)) : ReplayKnown request.write s out := by
  obtain ⟨answer, mid, -, hrun⟩ := bind_run.1 hrun
  cases answer with
  | some decision => exact absurd ((pure_run _ _).1 hrun).1 (by simp)
  | none => exact replayKnown_of_ticketedReplay request limits hrun

theorem stable_drive : Stable (HoldsAt nowMs) (fun _ _ => True) (drive request limits) := by
  have htrue : Persistent fun (_ : Snapshot) (_ : List RequiredGuard) => True :=
    fun _ _ _ _ h => h
  have hreplay := persistent_replayKnown request.write
  have hfirst : Stable (HoldsAt nowMs) (fun _ _ => True)
      (orElse (pendingCheck request limits) (ticketedReplay request limits)) :=
    stable_orElse htrue (stable_pendingCheck request limits htrue)
      (stable_ticketedReplay request limits htrue)
  refine hfirst.bind_of
    (Q := fun answer s gs => answer = none → ReplayKnown request.write s gs) ?_ fun answer => ?_
  · rintro s gs a out - hrun rfl
    exact replayKnown_of_fresh request limits hrun
  · cases answer with
    | some decision => exact Stable.pure _
    | none =>
      refine Stable.weaken (Q := ReplayKnown request.write) ?_ fun s gs h => h rfl
      refine (stable_checkTickets request limits hreplay _).bind hreplay fun answer => ?_
      cases answer with
      | inl decision => exact Stable.pure _
      | inr valid => exact stable_driveValid request limits valid

end Advance

/-! ### Cleanup -/

section Cleanup

variable {nowMs : UInt64} (request : TicketedAdvanceRequest) (limits : RefDecisionLimits)
variable {P : Snapshot → List RequiredGuard → Prop}

theorem examined_cons (row : TicketClaim × Observed TicketFact × Option ValidTicket)
    (rows : List (TicketClaim × Observed TicketFact × Option ValidTicket)) :
    examined (row :: rows) =
      if rowFails row then some [row] else (examined rows).map (row :: ·) := by
  rw [examined, List.findIdx?_cons]
  split_ifs
  · rfl
  · rw [examined, Option.map_map, Option.map_map]
    rfl

variable {s s' : Snapshot}

/-- The rows up to the first failure decide where the first failure is. -/
theorem examined_same {claims : List TicketClaim}
    {rows rows' ex ex' : List (TicketClaim × Observed TicketFact × Option ValidTicket)}
    (h : cleanupRows request s claims = .ok rows) (hex : examined rows = some ex)
    (h' : cleanupRows request s' claims = .ok rows') (hex' : examined rows' = some ex')
    (hpins : ∀ row ∈ ex, (s'.tickets.find? (·.1 = row.1.ticket)).map Prod.snd = some row.2.1) :
    ex' = ex := by
  induction claims generalizing rows rows' ex ex' with
  | nil =>
    obtain rfl := Except.ok.inj h
    exact absurd hex (by simp [examined])
  | cons claim rest ih =>
    simp only [cleanupRows, Wire.bind_eq_ok, okOr_eq_ok] at h h'
    obtain ⟨o, ho, row, hrow, tail, htail, hrows⟩ := h
    obtain ⟨o', ho', row', hrow', tail', htail', hrows'⟩ := h'
    obtain rfl := Except.ok.inj hrows
    obtain rfl := Except.ok.inj hrows'
    rw [examined_cons] at hex hex'
    -- the head is examined in either case, so its row is pinned
    have hhead : (claim, o, row) ∈ ex := by
      split_ifs at hex
      · rw [← Option.some.inj hex]
        exact List.mem_cons_self
      · obtain ⟨more, -, rfl⟩ := Option.map_eq_some_iff.1 hex
        exact List.mem_cons_self
    obtain rfl : o' = o := by
      have hpin := hpins _ hhead
      rw [ho'] at hpin
      exact Option.some.inj hpin
    rw [hrow, Except.ok.injEq] at hrow'
    obtain rfl := hrow'
    split_ifs at hex hex' with hfails
    · rw [← Option.some.inj hex, ← Option.some.inj hex']
    · obtain ⟨more, hmore, rfl⟩ := Option.map_eq_some_iff.1 hex
      obtain ⟨more', hmore', rfl⟩ := Option.map_eq_some_iff.1 hex'
      rw [ih htail hmore htail' hmore' fun row hmem => hpins row (List.mem_cons_of_mem _ hmem)]

theorem mem_of_addAll {guards gs out : List RequiredGuard} {u : Unit}
    (hrun : addAll limits guards s gs = .ok (u, out)) : guards ⊆ out := by
  induction guards generalizing gs with
  | nil => exact List.nil_subset out
  | cons guard rest ih =>
    obtain ⟨added, mid, hadd, hrest⟩ := bind_run.1 hrun
    have hkeeps : Keeps (addAll limits rest) :=
      (stable_addAll limits (fun _ _ _ _ h => h) rest :
        Stable (HoldsAt 0) (fun _ _ => True) _).keeps
    rw [List.cons_subset]
    exact ⟨hkeeps s mid u out hrest (leaves_add limits guard s gs _ mid hadd), ih hrest⟩

theorem stable_abortLost (hP : Persistent P) (operation : OperationId) (detail : Bytes)
    (occurredMs : UInt64) (valid : List ValidTicket) (effects : AcceptanceEffects) :
    Stable (HoldsAt nowMs) P
      (abortLost request limits operation detail occurredMs valid effects) := by
  induction valid generalizing effects with
  | nil => exact Stable.pure _
  | cons ticket rest ih =>
    rw [abortLost]
    split_ifs
    · exact ih _
    · exact stable_checked hP (fun o _ current h => pin_reservation h) fun _ _ => ih _

theorem stable_cleanupAttempt (hP : Persistent P) (operation : OperationId) (detail : Bytes)
    (occurredMs : UInt64) (rows : List (TicketClaim × Observed TicketFact × Option ValidTicket)) :
    Stable (HoldsAt nowMs) P
      (cleanupAttempt request limits operation detail occurredMs rows) := by
  refine (stable_addAll limits hP _).bind hP fun _ => ?_
  exact (stable_abortLost request limits hP _ _ _ _ _).bind hP fun _ => Stable.pure _

/-- Every examined row is guarded. -/
theorem mem_of_cleanupAttempt {gs out : List RequiredGuard} {d : WriteDecision}
    {operation : OperationId} {detail : Bytes} {occurredMs : UInt64}
    {rows : List (TicketClaim × Observed TicketFact × Option ValidTicket)}
    (hrun : cleanupAttempt request limits operation detail occurredMs rows s gs = .ok (d, out)) :
    ∀ row ∈ rows, .ticket row.1.ticket row.2.1 ∈ out := by
  intro row hrow
  obtain ⟨added, mid, hadd, hrest⟩ := bind_run.1 hrun
  have htrue : Persistent fun (_ : Snapshot) (_ : List RequiredGuard) => True :=
    fun _ _ _ _ h => h
  have habort : Stable (HoldsAt 0) (fun _ _ => True) (abortLost request limits operation detail
      occurredMs (rows.filterMap fun row => row.2.2) AcceptanceEffects.none) :=
    stable_abortLost request limits htrue _ _ _ _ _
  have hkeeps := (habort.bind htrue fun effects => Stable.pure (WriteDecision.apply effects)).keeps
  refine hkeeps s mid d out hrest (mem_of_addAll limits hadd ?_)
  exact List.mem_map_of_mem hrow

theorem cleanup_same {detail : Bytes} {occurredMs : UInt64} {g g' : FencedDecision}
    (h : decideTicketCleanup request limits detail occurredMs s = .ok g)
    (hmatch : guardsMatch g.guarded s' nowMs = true)
    (h' : decideTicketCleanup request limits detail occurredMs s' = .ok g') : g' = g := by
  simp only [decideTicketCleanup, Wire.bind_eq_ok, okOr_eq_ok, Prod.exists] at h h'
  obtain ⟨-, -, -, -, -, -, -, -, rows, hrows, ex, hex, operation, hoperation, d, out, hrun, hg⟩ := h
  obtain ⟨-, -, -, -, -, -, -, -, rows', hrows', ex', hex', operation', hoperation', d', out',
    hrun', hg'⟩ := h'
  obtain rfl := Except.ok.inj hg
  obtain rfl := Except.ok.inj hg'
  have hholds := holdsAt_of_guardsMatch hmatch
  obtain rfl : ex' = ex := examined_same request hrows hex hrows' hex' fun row hrow =>
    pin_ticket (hholds _ (mem_of_cleanupAttempt request limits hrun row hrow))
  obtain rfl : operation' = operation := Option.some.inj (hoperation'.symm.trans hoperation)
  have hstable : Stable (HoldsAt nowMs) (fun _ _ => True)
      (cleanupAttempt request limits operation' detail occurredMs ex') :=
    stable_cleanupAttempt request limits (fun _ _ _ _ h => h) _ _ _ _
  obtain ⟨rfl, rfl⟩ := hstable.same s s' [] d out d' out' trivial hrun hholds hrun'
  rfl

end Cleanup

/-! ### Settlement -/

variable {s s' : Snapshot}

/-- The ticket row a settlement closes is guarded. -/
theorem closeSettledTicket_same {nowMs : UInt64} {settled : Observed ReservationFact}
    {reservation : ReservationId} {required : List RequiredGuard}
    {effects : AcceptanceEffects} {out out' : List RequiredGuard × AcceptanceEffects}
    (h : closeSettledTicket settled reservation s required effects = .ok out)
    (hholds : ∀ g ∈ out.1, HoldsAt nowMs g s')
    (h' : closeSettledTicket settled reservation s' required effects = .ok out') : out' = out := by
  rw [closeSettledTicket.eq_def] at h h'
  split at h
  · simp only [Wire.bind_eq_ok, okOr_eq_ok] at h h'
    obtain ⟨row, hrow, -, -, hout⟩ := h
    obtain ⟨row', hrow', -, -, hout'⟩ := h'
    obtain rfl := Except.ok.inj hout
    obtain rfl := Except.ok.inj hout'
    have hpin := pin_ticket (hholds _ (List.mem_append_right _ (List.mem_singleton.2 rfl)))
    rw [hrow', Option.some.injEq] at hpin
    rw [hpin]
  · rename_i hother
    split at h'
    · exact absurd rfl (hother _ _)
    · exact (Except.ok.inj h').symm.trans (Except.ok.inj h)

/-- The guards grow only. -/
theorem subset_of_closeSettledTicket {settled : Observed ReservationFact}
    {reservation : ReservationId} {required : List RequiredGuard}
    {effects : AcceptanceEffects} {out : List RequiredGuard × AcceptanceEffects}
    (h : closeSettledTicket settled reservation s required effects = .ok out) :
    required ⊆ out.1 := by
  rw [closeSettledTicket.eq_def] at h
  split at h
  · simp only [Wire.bind_eq_ok, okOr_eq_ok] at h
    obtain ⟨row, -, -, -, hout⟩ := h
    obtain rfl := Except.ok.inj hout
    exact List.subset_append_left required _
  · obtain rfl := Except.ok.inj h
    exact List.Subset.refl required

/-- What a settlement returns. -/
theorem decideReservationSettlement_eq_ok {repository : RepositoryId} {operation : OperationId}
    {reservation : ReservationId} {expected : Observed ReservationFact}
    {terminal : ReservationTerminal} {limits : RefDecisionLimits} {g : FencedDecision}
    (h : decideReservationSettlement repository operation reservation expected terminal s limits =
      .ok g) :
    ∃ observed out, (s.reservations.find? (·.1 = reservation)).map Prod.snd = some observed ∧
      settlementLegal expected terminal.kind = true ∧
      (if observed = expected then
        closeSettledTicket observed reservation s [.reservation reservation observed]
          (AcceptanceEffects.none.settle operation reservation terminal)
      else .ok ([.reservation reservation observed], AcceptanceEffects.none)) = .ok out ∧
      g = ⟨⟨repository, .apply out.2, out.1⟩, []⟩ := by
  simp only [decideReservationSettlement, Wire.bind_eq_ok, okOr_eq_ok, refuseIf_eq_ok,
    not_not] at h
  obtain ⟨-, -, -, -, -, hlegal, -, -, o, ho, h⟩ := h
  split_ifs at h with heq
  · obtain ⟨out, hout, hg⟩ := Wire.bind_eq_ok.1 h
    exact ⟨o, out, ho, hlegal, by rw [if_pos heq, hout], (Except.ok.inj hg).symm⟩
  · obtain ⟨out, hout, hg⟩ := Wire.bind_eq_ok.1 h
    exact ⟨o, out, ho, hlegal, by rw [if_neg heq, hout], (Except.ok.inj hg).symm⟩

theorem settlement_same {nowMs : UInt64} {repository : RepositoryId} {operation : OperationId}
    {reservation : ReservationId} {expected : Observed ReservationFact}
    {terminal : ReservationTerminal} {limits : RefDecisionLimits} {g g' : FencedDecision}
    (h : decideReservationSettlement repository operation reservation expected terminal s limits =
      .ok g) (hmatch : guardsMatch g.guarded s' nowMs = true)
    (h' : decideReservationSettlement repository operation reservation expected terminal s' limits =
      .ok g') : g' = g := by
  obtain ⟨o, out, ho, -, hout, rfl⟩ := decideReservationSettlement_eq_ok h
  obtain ⟨o', out', ho', -, hout', rfl⟩ := decideReservationSettlement_eq_ok h'
  have hholds : ∀ g ∈ out.1, HoldsAt nowMs g s' := holdsAt_of_guardsMatch hmatch
  have hmem : .reservation reservation o ∈ out.1 := by
    split_ifs at hout
    · exact subset_of_closeSettledTicket hout (List.mem_singleton.2 rfl)
    · obtain rfl := Except.ok.inj hout
      exact List.mem_singleton.2 rfl
  have hpin := pin_reservation (hholds _ hmem)
  rw [ho', Option.some.injEq] at hpin
  obtain rfl := hpin
  suffices hsame : out' = out by rw [hsame]
  split_ifs at hout hout'
  · exact closeSettledTicket_same hout hholds hout'
  · exact (Except.ok.inj hout').symm.trans (Except.ok.inj hout)

/-! ### Sufficiency -/

/-- **Guards are sufficient.** A decision used where its guards hold is the decision that would
be made there: the outcome, its effects and its guards are those of the first snapshot. -/
theorem ref_guards_sufficient (s s' : Snapshot) (nowMs : UInt64) (limits : RefDecisionLimits)
    (g g' : FencedDecision) (hmatch : guardsMatch g.guarded s' nowMs = true) :
    (∀ request, decideRefWrite request s limits = .ok g →
      decideRefWrite request s' limits = .ok g' → g' = g) ∧
    (∀ request, decideTicketedAdvance request s limits = .ok g →
      decideTicketedAdvance request s' limits = .ok g' → g' = g) ∧
    (∀ request detail occurredMs,
      decideTicketCleanup request limits detail occurredMs s = .ok g →
      decideTicketCleanup request limits detail occurredMs s' = .ok g' → g' = g) ∧
    ∀ repository operation reservation expected terminal,
      decideReservationSettlement repository operation reservation expected terminal s limits =
        .ok g →
      decideReservationSettlement repository operation reservation expected terminal s' limits =
        .ok g' → g' = g := by
  refine ⟨?_, ?_, ?_, ?_⟩
  · intro request h h'
    obtain ⟨-, -, -, -, hseal⟩ : _ := by
      simpa only [decideRefWrite, Wire.bind_eq_ok] using h
    obtain ⟨-, -, -, -, hseal'⟩ : _ := by
      simpa only [decideRefWrite, Wire.bind_eq_ok] using h'
    exact sealAttempt_same (fun _ => stable_refAttempt request limits) hseal hmatch hseal'
  · intro request h h'
    obtain ⟨-, -, -, -, hseal⟩ : _ := by
      simpa only [decideTicketedAdvance, Wire.bind_eq_ok] using h
    obtain ⟨-, -, -, -, hseal'⟩ : _ := by
      simpa only [decideTicketedAdvance, Wire.bind_eq_ok] using h'
    exact sealAttempt_same (fun _ => stable_drive request limits) hseal hmatch hseal'
  · intro request detail occurredMs h h'
    exact cleanup_same request limits h hmatch h'
  · intro repository operation reservation expected terminal h h'
    exact settlement_same h hmatch h'

/-- A digest of one repeated byte. -/
def digest (b : UInt8) : Hash :=
  ByteArr.fill HASH_LEN b

/-- An advance that creates a branch from one uploaded pack, counted inline. -/
def sampleAdvanceRequest : TicketedAdvanceRequest where
  write :=
    { settlementRequest (digest 1) with
      operation := some (digest 4)
      kind := .advance
      changes := [⟨PACKMAP_ROOT ++ ascii "m".toList, .missing, some (digest 5)⟩,
        ⟨HEADS_ROOT ++ ascii "m".toList, .missing, some (digest 8)⟩]
      signer := some (digest 6)
      nowMs := 10 }
  tickets := [⟨digest 2, .ready, false⟩]
  verification := .verified [⟨digest 1, [], []⟩]
  storage := .inline (.present ⟨0, 0⟩ ZERO) (digest 7) 10
  pending := none

/-- The ticket row of the sample. -/
def sampleTicket : TicketFact :=
  ⟨digest 2, digest 1, HEADS_ROOT ++ ascii "m".toList, digest 6, ⟨digest 5, 100, ZERO⟩, 50, 0, 20,
    digest 3, none, none⟩

/-- The facts of the sample, with a policy row no check asks for. -/
def sampleSnapshot (policy : Option (Observed PolicyFact)) : Snapshot where
  repository := digest 1
  refs := [(PACKMAP_ROOT ++ ascii "m".toList, .absent ZERO),
    (HEADS_ROOT ++ ascii "m".toList, .absent ZERO)]
  replay := none
  tickets := [(digest 2, .present sampleTicket ZERO)]
  reservations := [(digest 3, .present (.ticketed (digest 2)) ZERO), (digest 7, .absent ZERO)]
  authority := none
  grant := none
  lifecycle := none
  members := []
  denial := none
  policy := policy
  admission := none
  accounting := none
  storage := some (.present ⟨0, 0⟩ ZERO)
  publication := none
  basis := []

def sampleLimits : RefDecisionLimits := ⟨64, 64, 4096, 1000000, 512⟩

/-- The sample advance on a later view that differs in a row it does not read. -/
theorem ref_guards_sufficient_sample :
    ∃ g, decideTicketedAdvance sampleAdvanceRequest (sampleSnapshot none) sampleLimits = .ok g ∧
      guardsMatch g.guarded (sampleSnapshot (some (.absent ZERO))) 10 = true ∧
      decideTicketedAdvance sampleAdvanceRequest (sampleSnapshot (some (.absent ZERO)))
        sampleLimits = .ok g := by
  have hfirst : ((decideTicketedAdvance sampleAdvanceRequest (sampleSnapshot none)
      sampleLimits).toOption.any fun g =>
        guardsMatch g.guarded (sampleSnapshot (some (.absent ZERO))) 10) = true := by
    decide +kernel
  have hsecond : (decideTicketedAdvance sampleAdvanceRequest (sampleSnapshot (some (.absent ZERO)))
      sampleLimits).isOk = true := by
    decide +kernel
  cases h : decideTicketedAdvance sampleAdvanceRequest (sampleSnapshot none) sampleLimits with
  | error e => exact absurd hfirst (by rw [h]; exact Bool.false_ne_true)
  | ok g =>
    cases h' : decideTicketedAdvance sampleAdvanceRequest
        (sampleSnapshot (some (.absent ZERO))) sampleLimits with
    | error e => exact absurd hsecond (by rw [h']; exact Bool.false_ne_true)
    | ok g' =>
      have hmatch : guardsMatch g.guarded (sampleSnapshot (some (.absent ZERO))) 10 = true := by
        rw [h] at hfirst
        exact hfirst
      have hsame := (ref_guards_sufficient _ _ 10 sampleLimits g g' hmatch).2.1
        sampleAdvanceRequest h h'
      exact ⟨g, rfl, hmatch, by rw [hsame]⟩

end Mkit.Decision
