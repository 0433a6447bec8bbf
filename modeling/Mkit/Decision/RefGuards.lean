import Mkit.Decision.Ticketed

/-!
# Sufficiency of the Ref Decision's Guards

Everything a ref decision reads is pinned by a guard it returns: on two snapshots of one
repository, where the second satisfies the guards returned on the first, the decision is the
same. Two reads have no guard of their own. Whether a refusal is recorded depends on the replay
row, and whether ancestry applies depends on the policy row; both rows are guarded before they
are looked at again.
-/

namespace Mkit.Decision

open Guarding

/-- A guard that holds at a moment, in a view without contradictions. -/
def HoldsAt (nowMs : UInt64) (guard : RequiredGuard) (current : Snapshot) : Prop :=
  ambiguous current = false ∧ guardMatches guard current nowMs = true

/-! ### Rules -/

variable {limit : UInt32}

theorem subset_of_pushGuard (gs : List RequiredGuard) (g : RequiredGuard)
    (out : List RequiredGuard) (h : pushGuard limit gs g = .ok out) : gs ⊆ out := by
  rw [pushGuard] at h
  split_ifs at h
  · rw [Except.ok.inj h]
    exact List.Subset.refl out
  · rw [← Except.ok.inj h]
    exact List.subset_append_left gs [g]

theorem mem_of_pushGuard (gs : List RequiredGuard) (g : RequiredGuard)
    (out : List RequiredGuard) (h : pushGuard limit gs g = .ok out) : g ∈ out := by
  rw [pushGuard] at h
  split_ifs at h with hmem
  · rw [← Except.ok.inj h]
    exact hmem
  · rw [← Except.ok.inj h]
    exact List.mem_append_right gs (List.mem_singleton.2 rfl)

/-- In a view without contradictions a row is found under its key. -/
theorem find?_of_mem {α β : Type} [DecidableEq α] {l : List β} (key : β → α) {b : β}
    (h : repeats (l.map key) = false) (hb : b ∈ l) : l.find? (fun x => key x = key b) = some b := by
  have hnodup : (l.map key).Nodup := by
    simpa [repeats] using h
  induction l with
  | nil => simp at hb
  | cons c l ih =>
    rw [List.map_cons, List.nodup_cons] at hnodup
    rw [List.find?_cons]
    obtain rfl | hb := List.mem_cons.1 hb
    · simp
    · have hne : key c ≠ key b := fun heq => hnodup.1 (heq ▸ List.mem_map_of_mem hb)
      have hrest : repeats (l.map key) = false := by
        simpa [repeats] using hnodup.2
      simpa [hne] using ih hrest hb hnodup.2

section Rules

variable {nowMs : UInt64} {P Q : Snapshot → List RequiredGuard → Prop} {limits : RefDecisionLimits}

theorem stable_add (guard : RequiredGuard) : Stable (HoldsAt nowMs) P (add limits guard) :=
  Stable.collect subset_of_pushGuard guard

theorem leaves_add (limits : RefDecisionLimits) (guard : RequiredGuard) : Leaves (add limits guard) guard :=
  Leaves.collect mem_of_pushGuard guard

theorem stable_refuseWhen (c : Prop) [Decidable c] (code : FailureCode) :
    Stable (HoldsAt nowMs) P (refuseWhen c code) :=
  Stable.lift _

variable {D : Type} {m n : Attempt (Option D)}

theorem stable_orElse_of (hm : Stable (HoldsAt nowMs) P m)
    (hQ : ∀ s gs a out, P s gs → m s gs = .ok (a, out) → Q s out)
    (hn : Stable (HoldsAt nowMs) Q n) : Stable (HoldsAt nowMs) P (orElse m n) := by
  refine hm.bind_of (Q := fun _ => Q) hQ fun answer => ?_
  cases answer with
  | some decision => exact Stable.pure _
  | none => exact hn

theorem stable_orElse (hP : Persistent P)
    (hm : Stable (HoldsAt nowMs) P m) (hn : Stable (HoldsAt nowMs) P n) :
    Stable (HoldsAt nowMs) P (orElse m n) :=
  stable_orElse_of hm (fun s gs a out h hrun => hP s gs out (hm.keeps s gs a out hrun) h) hn

theorem stable_reject (code : PermanentCode) (message : Bytes) :
    Stable (HoldsAt nowMs) P (reject limits code message) :=
  (stable_refuseWhen _ _).bind_of (Q := fun _ _ _ => True) (fun _ _ _ _ _ _ => trivial)
    fun _ => Stable.pure _

theorem stable_answerReject (code : PermanentCode) (message : Bytes) :
    Stable (HoldsAt nowMs) P (answerReject limits code message) :=
  (stable_reject code message).bind_of (Q := fun _ _ _ => True) (fun _ _ _ _ _ _ => trivial)
    fun _ => Stable.pure _

variable {α : Type}

/-- A guard that determines a fact pins it. -/
theorem pins_acquired {get : Snapshot → Option α} {o : α} {guard : RequiredGuard}
    (hpin : ∀ current, HoldsAt nowMs guard current → get current = some o) :
    Pins (HoldsAt nowMs) (fun snapshot => okOr (failure .unavailableInput) (get snapshot)) o
      guard := by
  intro current o' hholds ho'
  rw [okOr_eq_ok, hpin current hholds] at ho'
  exact (Option.some.inj ho').symm

variable {β γ : Type}

/-- A fact read under its own guard, behind a check of it. -/
theorem stable_checked (hP : Persistent P) {get : Snapshot → Option α}
    {check : α → Except Failure β} {guard : α → β → RequiredGuard} {rest : α → β → Attempt γ}
    (hpin : ∀ o b current, HoldsAt nowMs (guard o b) current → get current = some o)
    (hrest : ∀ o b, Stable (HoldsAt nowMs) P (rest o b)) :
    Stable (HoldsAt nowMs) P (acquired get >>= fun o => lift (check o) >>= fun b =>
      add limits (guard o b) >>= fun _ => rest o b) := by
  refine Stable.read (fun o s gs c out hrun => ?_) fun o => ?_
  · obtain ⟨b, mid, hb, hrun⟩ := bind_run.1 hrun
    have hleaves := (leaves_add limits (guard o b)).bind_left
      fun _ => (hrest o b).keeps
    exact ⟨guard o b, hleaves s mid c out hrun, pins_acquired (hpin o b)⟩
  · exact (Stable.lift _).bind hP fun b => (stable_add _).bind hP fun _ => hrest o b

/-- A fact read under its own guard. -/
theorem stable_guarded (hP : Persistent P) {get : Snapshot → Option α}
    {guard : α → RequiredGuard} {rest : α → Attempt γ}
    (hpin : ∀ o current, HoldsAt nowMs (guard o) current → get current = some o)
    (hrest : ∀ o, Stable (HoldsAt nowMs) P (rest o)) :
    Stable (HoldsAt nowMs) P (acquired get >>= fun o => add limits (guard o) >>= fun _ =>
      rest o) := by
  refine Stable.read (fun o s gs c out hrun => ?_) fun o => ?_
  · have hleaves := (leaves_add limits (guard o)).bind_left fun _ => (hrest o).keeps
    exact ⟨guard o, hleaves s gs c out hrun, pins_acquired (hpin o)⟩
  · exact (stable_add _).bind hP fun _ => hrest o

variable {s : Snapshot} {c : γ}

/-- A fact read under its own guard, behind a check of it, is known afterwards. -/
theorem known_of_checked {get : Snapshot → Option α} {check : α → Except Failure β}
    {guard : α → β → RequiredGuard} {rest : α → β → Attempt γ}
    {gs out : List RequiredGuard} (hrest : ∀ o b, Keeps (rest o b))
    (hrun : (acquired get >>= fun o => lift (check o) >>= fun b =>
      add limits (guard o b) >>= fun _ => rest o b) s gs = .ok (c, out)) :
    ∃ o b, get s = some o ∧ guard o b ∈ out := by
  obtain ⟨o, mid, hfetch, hrun⟩ := bind_run.1 hrun
  obtain ⟨ho, rfl⟩ := fetch_run.1 hfetch
  obtain ⟨b, mid, -, hrun⟩ := bind_run.1 hrun
  exact ⟨o, b, okOr_eq_ok.1 ho,
    (leaves_add limits (guard o b)).bind_left (fun _ => hrest o b) s mid c out hrun⟩

/-- A fact read under its own guard is known afterwards. -/
theorem known_of_guarded {get : Snapshot → Option α} {guard : α → RequiredGuard}
    {rest : α → Attempt γ} {gs out : List RequiredGuard} (hrest : ∀ o, Keeps (rest o))
    (hrun : (acquired get >>= fun o => add limits (guard o) >>= fun _ => rest o) s gs =
      .ok (c, out)) : ∃ o, get s = some o ∧ guard o ∈ out := by
  obtain ⟨o, mid, hfetch, hrun⟩ := bind_run.1 hrun
  obtain ⟨ho, rfl⟩ := fetch_run.1 hfetch
  exact ⟨o, okOr_eq_ok.1 ho,
    (leaves_add limits (guard o)).bind_left (fun _ => hrest o) s gs c out hrun⟩

end Rules

/-! ### Pins -/

section Pins

variable {nowMs : UInt64} {current : Snapshot}

theorem pin_ticket {id : TicketId} {o : Observed TicketFact}
    (h : HoldsAt nowMs (.ticket id o) current) :
    (current.tickets.find? (·.1 = id)).map Prod.snd = some o := by
  obtain ⟨hview, hmatch⟩ := h
  simp only [ambiguous, Bool.or_eq_false_iff] at hview
  have hmem : (id, o) ∈ current.tickets := of_decide_eq_true hmatch
  have hfind := find?_of_mem Prod.fst hview.1.1.1.2 hmem
  simpa using congrArg (Option.map Prod.snd) hfind

theorem pin_reservation {id : ReservationId} {o : Observed ReservationFact}
    (h : HoldsAt nowMs (.reservation id o) current) :
    (current.reservations.find? (·.1 = id)).map Prod.snd = some o := by
  obtain ⟨hview, hmatch⟩ := h
  simp only [ambiguous, Bool.or_eq_false_iff] at hview
  have hmem : (id, o) ∈ current.reservations := of_decide_eq_true hmatch
  have hfind := find?_of_mem Prod.fst hview.1.1.2 hmem
  simpa using congrArg (Option.map Prod.snd) hfind

theorem pin_member {repository : RepositoryId} {object : Hash} {o : Observed MemberFact}
    (h : HoldsAt nowMs (.membership repository object o) current) :
    (current.members.find? (·.object = object)).map (·.observed) = some o := by
  obtain ⟨hview, hmatch⟩ := h
  simp only [ambiguous, Bool.or_eq_false_iff] at hview
  have hmem : ⟨object, o⟩ ∈ current.members := (of_decide_eq_true hmatch).2
  have hfind := find?_of_mem MembershipObservation.object hview.1.1.1.1.2 hmem
  simpa using congrArg (Option.map (·.observed)) hfind

variable {o : Observed Hash}

theorem pin_ref {repository : RepositoryId} {name : RefName}
    (h : HoldsAt nowMs (.refValue repository name o) current) :
    (current.refs.find? (·.1 = name)).map Prod.snd = some o := by
  obtain ⟨hview, hmatch⟩ := h
  simp only [ambiguous, Bool.or_eq_false_iff] at hview
  have hmem : (name, o) ∈ current.refs := (of_decide_eq_true hmatch).2
  have hfind := find?_of_mem Prod.fst hview.1.1.1.1.1 hmem
  simpa using congrArg (Option.map Prod.snd) hfind

/-- A presence guard pins whether the ref is there. -/
theorem pin_presence {repository : RepositoryId} {name : RefName} {present : Bool}
    (h : HoldsAt nowMs (.refPresence repository name present) current)
    (ho : (current.refs.find? (·.1 = name)).map Prod.snd = some o) : o.isPresent = present := by
  obtain ⟨hview, hmatch⟩ := h
  simp only [ambiguous, Bool.or_eq_false_iff] at hview
  obtain ⟨row, hrow, hkey⟩ := List.any_eq_true.1 (of_decide_eq_true hmatch).2
  obtain ⟨rfl, hpresent⟩ := of_decide_eq_true hkey
  have hfind := find?_of_mem Prod.fst hview.1.1.1.1.1 hrow
  rw [hfind, Option.map_some, Option.some.injEq] at ho
  rw [← ho]
  exact hpresent

end Pins

/-! ### What is known after the first checks -/

section Checks

variable {nowMs : UInt64} (req : RefWriteRequest) (limits : RefDecisionLimits)

/-- The replay row is guarded when the request has a replay identity. -/
def ReplayKnown (snapshot : Snapshot) (guards : List RequiredGuard) : Prop :=
  ∀ bound ∈ req.replay, ∃ o, snapshot.replay = some o ∧ .replay bound.scope o ∈ guards

/-- Besides, the policy row is guarded when a policy applies. -/
def PolicyKnown (snapshot : Snapshot) (guards : List RequiredGuard) : Prop :=
  ReplayKnown req snapshot guards ∧ ∀ required ∈ req.required.policy,
    ∃ o, snapshot.policy = some o ∧ .policy req.repository o ∈ guards

variable {P : Snapshot → List RequiredGuard → Prop}

theorem persistent_replayKnown : Persistent (ReplayKnown req) := by
  intro s gs out hsub h bound hbound
  obtain ⟨o, ho, hmem⟩ := h bound hbound
  exact ⟨o, ho, hsub hmem⟩

theorem persistent_policyKnown : Persistent (PolicyKnown req) := by
  intro s gs out hsub h
  refine ⟨persistent_replayKnown req s gs out hsub h.1, fun required hrequired => ?_⟩
  obtain ⟨o, ho, hmem⟩ := h.2 required hrequired
  exact ⟨o, ho, hsub hmem⟩

variable {s s' : Snapshot} {gs : List RequiredGuard}

/-- The replay row decides whether a refusal is recorded. -/
theorem recording_of_known (h : ReplayKnown req s gs) (hholds : ∀ g ∈ gs, HoldsAt nowMs g s') :
    recording req s' = recording req s := by
  cases hreplay : req.replay with
  | none => simp [recording, hreplay]
  | some bound =>
    obtain ⟨o, ho, hmem⟩ := h bound hreplay
    have hrow : s'.replay = some o := (of_decide_eq_true (hholds _ hmem).2).2
    rw [recording, recording, ho, hrow]

theorem deployment_of_known (h : PolicyKnown req s gs) (hholds : ∀ g ∈ gs, HoldsAt nowMs g s')
    {required : PolicyRequirement} (hrequired : req.required.policy = some required) :
    deploymentFastForward s' = deploymentFastForward s := by
  obtain ⟨o, ho, hmem⟩ := h.2 required hrequired
  have hrow : s'.policy = some o := (of_decide_eq_true (hholds _ hmem).2).2
  rw [deploymentFastForward, deploymentFastForward, ho, hrow]

/-! ### The checks -/

theorem stable_authority (hP : Persistent P) : Stable (HoldsAt nowMs) P (authority req limits) := by
  rw [authority]
  cases req.required.authority with
  | none => exact Stable.pure _
  | some bound =>
    refine stable_checked hP (fun o _ current h => (of_decide_eq_true h.2).2) fun o _ => ?_
    cases o with
    | absent revision => exact stable_answerReject _ _
    | present value revision =>
      dsimp only
      split_ifs
      · exact Stable.pure _
      · exact stable_answerReject _ _
      · exact Stable.pure _

theorem stable_grant (hP : Persistent P) : Stable (HoldsAt nowMs) P (grant req limits) := by
  rw [grant]
  cases req.required.grant with
  | none => exact Stable.pure _
  | some bound =>
    refine stable_checked hP (fun o _ current h => (of_decide_eq_true h.2).2) fun o _ => ?_
    cases o with
    | absent revision => exact stable_answerReject _ _
    | present value revision =>
      dsimp only
      split_ifs
      · exact (stable_refuseWhen _ _).bind hP fun _ => Stable.pure _
      · exact stable_answerReject _ _

theorem stable_lifecycle (hP : Persistent P) : Stable (HoldsAt nowMs) P (lifecycle req limits) := by
  rw [lifecycle]
  cases req.required.incarnation with
  | none => exact Stable.pure _
  | some incarnation =>
    refine stable_guarded hP (fun o current h => (of_decide_eq_true h.2).2) fun o => ?_
    cases o with
    | absent revision => exact Stable.pure _
    | present value revision =>
      dsimp only
      split_ifs
      · exact Stable.pure _
      · exact Stable.pure _

theorem stable_authorized (hP : Persistent P) : Stable (HoldsAt nowMs) P (authorized req limits) :=
  stable_orElse hP (stable_grant req limits hP)
    (stable_orElse hP (stable_authority req limits hP) (stable_lifecycle req limits hP))

/-- A refusal is recorded on both snapshots or on none. -/
theorem stable_rejectRecorded (hP : Persistent P)
    (hknown : ∀ s gs, P s gs → ReplayKnown req s gs) (code : PermanentCode) (message : Bytes) :
    Stable (HoldsAt nowMs) P (rejectRecorded req limits code message) := by
  refine Stable.recall (fun s s' gs h hholds => ?_) fun isRecording => ?_
  · rw [recording_of_known req (hknown s gs h) hholds]
  · split_ifs
    · refine stable_orElse hP (stable_authorized req limits hP) ?_
      exact (stable_reject _ _).bind hP fun _ => Stable.pure _
    · exact stable_answerReject _ _

theorem stable_replay (hP : Persistent P) : Stable (HoldsAt nowMs) P (replay req limits) := by
  rw [replay]
  cases req.replay with
  | none => exact Stable.pure _
  | some bound =>
    refine stable_checked hP (fun o _ current h => (of_decide_eq_true h.2).2) fun o _ => ?_
    cases classifyReplay o bound.fingerprint with
    | conflict => exact stable_answerReject _ _
    | _ => exact Stable.pure _

theorem stable_validity (hP : Persistent P) : Stable (HoldsAt nowMs) P (validity req limits) := by
  rw [validity]
  cases req.required.validThroughMs with
  | none => exact Stable.pure _
  | some instantMs =>
    refine (stable_add _).bind hP fun _ => ?_
    split_ifs
    · exact Stable.pure _
    · exact Stable.pure _

/-- The source fence reads the request only. -/
theorem stable_source (hP : Persistent P) : Stable (HoldsAt nowMs) P (source req limits) := by
  rw [source]
  cases req.required.source with
  | none => exact Stable.pure _
  | some fence =>
    refine (stable_refuseWhen _ _).bind hP fun _ => (stable_refuseWhen _ _).bind hP fun _ => ?_
    cases fence.readAuthority with
    | absent revision => exact stable_answerReject _ _
    | present reader revision =>
      dsimp only
      split_ifs
      · cases fence.publication with
        | absent revision => exact stable_answerReject _ _
        | present value revision =>
          refine (stable_refuseWhen _ _).bind hP fun _ => ?_
          split_ifs
          · exact stable_answerReject _ _
          · exact Stable.pure _
          · exact Stable.pure _
      · exact stable_answerReject _ _

theorem stable_policy (hP : Persistent P) (hknown : ∀ s gs, P s gs → ReplayKnown req s gs) :
    Stable (HoldsAt nowMs) P (policy req limits) := by
  rw [policy]
  cases req.required.policy with
  | none => exact Stable.pure _
  | some required =>
    refine stable_guarded hP (fun o current h => (of_decide_eq_true h.2).2) fun o => ?_
    cases o with
    | absent revision => exact Stable.lift _
    | present value revision =>
      dsimp only
      split_ifs
      · exact stable_rejectRecorded req limits hP hknown _ _
      · exact Stable.pure _

theorem stable_memberMissing (hP : Persistent P) (hknown : ∀ s gs, P s gs → ReplayKnown req s gs) :
    Stable (HoldsAt nowMs) P (memberMissing req limits) := by
  rw [memberMissing]
  split_ifs
  · exact Stable.pure _
  · exact stable_rejectRecorded req limits hP hknown _ _

theorem stable_membershipOf (hP : Persistent P) (hknown : ∀ s gs, P s gs → ReplayKnown req s gs)
    (members : List Hash) : Stable (HoldsAt nowMs) P (membershipOf req limits members) := by
  induction members with
  | nil => exact Stable.pure _
  | cons object rest ih =>
    rw [membershipOf]
    refine stable_guarded hP (fun o current h => pin_member h) fun o => ?_
    cases o with
    | absent revision => exact stable_memberMissing req limits hP hknown
    | present value revision => exact ih

theorem stable_indexedHead (hP : Persistent P) (hknown : ∀ s gs, P s gs → ReplayKnown req s gs) :
    Stable (HoldsAt nowMs) P (indexedHead req limits) := by
  rw [indexedHead]
  split
  · refine stable_guarded hP (fun o current h => pin_member h) fun o => ?_
    cases o with
    | absent revision => exact stable_memberMissing req limits hP hknown
    | present value revision =>
      dsimp only
      split_ifs
      · exact Stable.pure _
      · exact stable_rejectRecorded req limits hP hknown _ _
  · exact Stable.pure _

theorem stable_membership (hP : Persistent P) (hknown : ∀ s gs, P s gs → ReplayKnown req s gs) :
    Stable (HoldsAt nowMs) P (membership req limits) :=
  stable_orElse hP (stable_membershipOf req limits hP hknown _)
    (stable_indexedHead req limits hP hknown)

theorem stable_denial (hP : Persistent P) : Stable (HoldsAt nowMs) P (denial req limits) := by
  rw [denial]
  split_ifs
  · refine stable_guarded hP (fun o current h => (of_decide_eq_true h.2).2) fun o => ?_
    cases o with
    | absent revision => exact Stable.pure _
    | present value revision =>
      dsimp only
      split_ifs
      · exact Stable.pure _
      · exact stable_answerReject _ _
      · exact Stable.pure _
  · exact Stable.pure _

theorem stable_admission (hP : Persistent P) : Stable (HoldsAt nowMs) P (admission req limits) := by
  rw [admission]
  cases req.required.admission with
  | none => exact Stable.pure _
  | some bound =>
    refine stable_checked hP (fun o _ current h => (of_decide_eq_true h.2).2) fun o operation => ?_
    cases o with
    | absent revision => exact Stable.lift _
    | present value revision =>
      exact (stable_refuseWhen _ _).bind hP fun _ => Stable.pure _

theorem stable_publication (hP : Persistent P) :
    Stable (HoldsAt nowMs) P (publication req limits) := by
  rw [publication]
  split_ifs
  · exact stable_guarded hP (fun o current h => (of_decide_eq_true h.2).2) fun _ => Stable.pure _
  · exact Stable.pure _

theorem stable_ancestryProof (hP : Persistent P)
    (hknown : ∀ s gs, P s gs → ReplayKnown req s gs) (subject : RefChange) (source target : Hash)
    (message : Bytes) :
    Stable (HoldsAt nowMs) P (ancestryProof req limits subject source target message) := by
  refine (Stable.lift _).bind hP fun proof => (stable_refuseWhen _ _).bind hP fun _ => ?_
  cases proof.result with
  | descendant => exact Stable.pure _
  | denied => exact stable_rejectRecorded req limits hP hknown _ _
  | membershipLag => exact Stable.pure _

theorem stable_ancestrySubject (hP : Persistent P)
    (hknown : ∀ s gs, P s gs → ReplayKnown req s gs) (message : Bytes) :
    Stable (HoldsAt nowMs) P (ancestrySubject req limits message) := by
  refine (Stable.lift _).bind hP fun subject => ?_
  cases subject.target with
  | none => exact stable_rejectRecorded req limits hP hknown _ _
  | some target =>
    cases hcondition : subject.condition with
    | missing => exact Stable.pure _
    | matching expected => exact stable_ancestryProof req limits hP hknown _ _ _ _
    | any =>
      refine stable_guarded hP (fun o current h => pin_ref h) fun o => ?_
      cases targetOf o with
      | none => exact Stable.pure _
      | some source => exact stable_ancestryProof req limits hP hknown _ _ _ _

/-- Ancestry looks at the policy row again, which is guarded. -/
theorem stable_ancestry : Stable (HoldsAt nowMs) (PolicyKnown req) (ancestry req limits) := by
  rw [ancestry]
  cases hpolicy : req.required.policy with
  | none => exact Stable.pure _
  | some required =>
    refine Stable.recall (fun s s' gs h hholds => ?_) fun deployment => ?_
    · rw [deployment_of_known req h hholds hpolicy]
    · by_cases hskip : ¬ deployment ∧ ¬ required.grantFastForward
      · rw [if_pos hskip]
        exact Stable.pure _
      · rw [if_neg hskip]
        exact stable_ancestrySubject req limits (persistent_policyKnown req) (fun _ _ h => h.1) _

variable {a : Option WriteDecision}

/-- After the replay check the replay row is known. -/
theorem replayKnown_of_run {out : List RequiredGuard}
    (hrun : replay req limits s gs = .ok (a, out)) : ReplayKnown req s out := by
  intro bound hbound
  rw [replay, hbound] at hrun
  suffices h : ∃ (o : Observed ReplayFact) (_ : Unit), s.replay = some o ∧
      .replay bound.scope o ∈ out by
    obtain ⟨o, -, hknown⟩ := h
    exact ⟨o, hknown⟩
  refine known_of_checked (fun o _ => ?_) hrun
  cases classifyReplay o bound.fingerprint with
  | conflict => exact (stable_answerReject _ _ : Stable (HoldsAt 0) (fun _ _ => True) _).keeps
  | _ => exact (Stable.pure _ : Stable (HoldsAt 0) (fun _ _ => True) _).keeps

/-- After the policy check the policy row is known. -/
theorem policyKnown_of_run {out : List RequiredGuard} (h : ReplayKnown req s gs)
    (hrun : policy req limits s gs = .ok (a, out)) : PolicyKnown req s out := by
  have hstable : Stable (HoldsAt 0) (ReplayKnown req) (policy req limits) :=
    stable_policy req limits (persistent_replayKnown req) fun _ _ h => h
  refine ⟨persistent_replayKnown req s gs out (hstable.keeps s gs a out hrun) h, ?_⟩
  intro required hrequired
  rw [policy, hrequired] at hrun
  refine known_of_guarded (fun o => ?_) hrun
  cases o with
  | absent revision => exact Keeps.fetch _
  | present value revision =>
    dsimp only
    split_ifs
    · exact (stable_rejectRecorded req limits (persistent_replayKnown req) (fun _ _ h => h) _ _ :
        Stable (HoldsAt 0) (ReplayKnown req) _).keeps
    · exact (Stable.pure _ : Stable (HoldsAt 0) (fun _ _ => True) _).keeps

theorem stable_context : Stable (HoldsAt nowMs) (ReplayKnown req) (context req limits) := by
  have hreplay := persistent_replayKnown req
  have hpolicy := persistent_policyKnown req
  refine stable_orElse hreplay (stable_validity req limits hreplay) ?_
  refine stable_orElse hreplay (stable_source req limits hreplay) ?_
  refine stable_orElse_of (stable_policy req limits hreplay fun _ _ h => h)
    (fun s gs a out h hrun => policyKnown_of_run req limits h hrun) ?_
  refine stable_orElse hpolicy (stable_membership req limits hpolicy fun _ _ h => h.1) ?_
  refine stable_orElse hpolicy (stable_ancestry req limits) ?_
  refine stable_orElse hpolicy (stable_denial req limits hpolicy) ?_
  refine stable_orElse hpolicy (stable_grant req limits hpolicy) ?_
  refine stable_orElse hpolicy (stable_authority req limits hpolicy) ?_
  refine stable_orElse hpolicy (stable_lifecycle req limits hpolicy) ?_
  exact stable_orElse hpolicy (stable_admission req limits hpolicy)
    (stable_publication req limits hpolicy)

/-! ### The refs -/

theorem stable_presenceCheck (hP : Persistent P) (change : RefChange) (isPresent : Bool) :
    Stable (HoldsAt nowMs) P (presenceCheck req limits change isPresent) := by
  rw [presenceCheck]
  split
  · exact Stable.pure _
  · split_ifs
    · exact (stable_add _).bind hP fun _ => stable_answerReject _ _
    · exact (stable_add _).bind hP fun _ => Stable.pure _
    · exact Stable.pure _

theorem stable_valueCheck (hP : Persistent P) (change : RefChange) (observed : Observed Hash) :
    Stable (HoldsAt nowMs) P (valueCheck req limits change observed) := by
  rw [valueCheck]
  split_ifs
  · exact (stable_add _).bind hP fun _ => Stable.pure _
  · exact (stable_add _).bind hP fun _ => Stable.pure _
  · exact Stable.pure _
  · exact Stable.pure _

theorem stable_admittedCheck (hP : Persistent P) (change : RefChange) (isPresent : Bool) :
    Stable (HoldsAt nowMs) P (admittedCheck req limits change isPresent) := by
  rw [admittedCheck]
  split_ifs
  · exact Stable.pure _
  · refine (Stable.lift _).bind hP fun admitted => (stable_add _).bind hP fun _ => ?_
    split_ifs
    · exact Stable.pure _
    · exact Stable.pure _

variable {s s' : Snapshot} {gs out : List RequiredGuard} {a : Option WriteDecision}
variable {change : RefChange} {o o' : Observed Hash}

/-- The presence check compares presence only, and guards it when it looks at it. -/
theorem presenceCheck_eq (hrun : presenceCheck req limits change o.isPresent s gs = .ok (a, out))
    (hholds : ∀ g ∈ out, HoldsAt nowMs g s')
    (ho' : (s'.refs.find? (·.1 = change.name)).map Prod.snd = some o') :
    presenceCheck req limits change o'.isPresent = presenceCheck req limits change o.isPresent := by
  cases hpresence : req.presence with
  | none => simp only [presenceCheck, hpresence]
  | some bound =>
    obtain ⟨name, present⟩ := bound
    by_cases hname : name = change.name
    · have hleaves : Leaves (presenceCheck req limits change o.isPresent)
          (.refPresence req.repository name o.isPresent) := by
        simp only [presenceCheck, hpresence, if_pos hname]
        refine (leaves_add limits _).bind_left fun _ => ?_
        split_ifs
        · exact (stable_answerReject _ _ : Stable (HoldsAt 0) (fun _ _ => True) _).keeps
        · exact (Stable.pure _ : Stable (HoldsAt 0) (fun _ _ => True) _).keeps
      rw [pin_presence (hholds _ (hleaves s gs a out hrun)) (hname ▸ ho')]
    · simp only [presenceCheck, hpresence, if_neg hname]

/-- A change that expects a value guards the value. -/
theorem valueCheck_pins (hcondition : change.condition ≠ .any)
    (hrun : valueCheck req limits change o s gs = .ok (a, out))
    (hholds : ∀ g ∈ out, HoldsAt nowMs g s')
    (ho' : (s'.refs.find? (·.1 = change.name)).map Prod.snd = some o') : o' = o := by
  have hleaves : Leaves (valueCheck req limits change o)
      (.refValue req.repository change.name o) := by
    simp only [valueCheck, hcondition, ne_eq, not_false_eq_true, or_true, if_true]
    refine (leaves_add limits _).bind_left fun _ => ?_
    split_ifs
    · exact (Stable.pure _ : Stable (HoldsAt 0) (fun _ _ => True) _).keeps
    · exact (Stable.pure _ : Stable (HoldsAt 0) (fun _ _ => True) _).keeps
  have hpin := pin_ref (hholds _ (hleaves s gs a out hrun))
  rw [ho'] at hpin
  exact Option.some.inj hpin

/-- A change that expects nothing never conflicts. -/
theorem valueCheck_any (hcondition : change.condition = .any) :
    valueCheck req limits change o = pure none := by
  simp [valueCheck, conflicts, hcondition]

/-- The admitted proposal is compared with presence only. -/
theorem admittedCheck_eq (hrun : admittedCheck req limits change o.isPresent s gs = .ok (a, out))
    (hholds : ∀ g ∈ out, HoldsAt nowMs g s')
    (ho' : (s'.refs.find? (·.1 = change.name)).map Prod.snd = some o') :
    admittedCheck req limits change o'.isPresent = admittedCheck req limits change o.isPresent := by
  by_cases hempty : req.admitted = []
  · simp only [admittedCheck, if_pos hempty]
  · have hleaves : Leaves (admittedCheck req limits change o.isPresent)
        (.refPresence req.repository change.name o.isPresent) := by
      simp only [admittedCheck, if_neg hempty]
      refine Leaves.bind_right fun admitted => (leaves_add limits _).bind_left fun _ => ?_
      split_ifs
      · exact (Stable.pure _ : Stable (HoldsAt 0) (fun _ _ => True) _).keeps
      · exact (Stable.pure _ : Stable (HoldsAt 0) (fun _ _ => True) _).keeps
    rw [pin_presence (hholds _ (hleaves s gs a out hrun)) ho']

/-- The comparison and the admitted proposal on two values of one ref. -/
theorem compared_same (hP : Persistent P) {a' : Option WriteDecision} {out' : List RequiredGuard}
    (hstart : P s gs) (hrun : orElse (valueCheck req limits change o)
      (admittedCheck req limits change o.isPresent) s gs = .ok (a, out))
    (hholds : ∀ g ∈ out, HoldsAt nowMs g s')
    (ho' : (s'.refs.find? (·.1 = change.name)).map Prod.snd = some o')
    (hrun' : orElse (valueCheck req limits change o')
      (admittedCheck req limits change o'.isPresent) s' gs = .ok (a', out')) :
    a' = a ∧ out' = out := by
  have hadmitted : Stable (HoldsAt nowMs) P (admittedCheck req limits change o.isPresent) :=
    stable_admittedCheck req limits hP change _
  by_cases hcondition : change.condition = .any
  · rw [valueCheck_any req limits hcondition] at hrun hrun'
    have heq := admittedCheck_eq req limits hrun hholds ho'
    exact hadmitted.same s s' gs a out a' out' hstart hrun hholds (heq ▸ hrun')
  · have htail := stable_orElse hP (stable_valueCheck req limits hP change o) hadmitted
    obtain ⟨answer, mid, hvalue, hrest⟩ := bind_run.1 hrun
    have hkept : mid ⊆ out := by
      cases answer with
      | some decision => rw [((pure_run _ _).1 hrest).2]; exact List.Subset.refl out
      | none => exact hadmitted.keeps s mid a out hrest
    obtain rfl := valueCheck_pins req limits hcondition hvalue (fun g hg => hholds g (hkept hg)) ho'
    exact htail.same s s' gs a out a' out' hstart hrun hholds hrun'

/-- The value of a ref matters as far as it is guarded: a check that answers before the comparison
has looked at presence only. -/
theorem stable_checkChange (hP : Persistent P) (change : RefChange) :
    Stable (HoldsAt nowMs) P (checkChange req limits change) := by
  have htail : ∀ o : Observed Hash, Stable (HoldsAt nowMs) P
      (orElse (valueCheck req limits change o) (admittedCheck req limits change o.isPresent)) :=
    fun o => stable_orElse hP (stable_valueCheck req limits hP change o)
      (stable_admittedCheck req limits hP change _)
  have hpresence : ∀ isPresent, Stable (HoldsAt nowMs) P
      (presenceCheck req limits change isPresent) :=
    fun isPresent => stable_presenceCheck req limits hP change isPresent
  refine ⟨(Keeps.fetch _).bind fun o => (stable_orElse hP (hpresence _) (htail o)).keeps, ?_⟩
  intro s s' gs a out a' out' hstart hrun hholds hrun'
  obtain ⟨o, mid, hfetch, hrun⟩ := bind_run.1 hrun
  obtain ⟨ho, rfl⟩ := fetch_run.1 hfetch
  obtain ⟨o', mid', hfetch', hrun'⟩ := bind_run.1 hrun'
  obtain ⟨ho', rfl⟩ := fetch_run.1 hfetch'
  rw [okOr_eq_ok] at ho'
  obtain ⟨answer, mid, hfirst, hrest⟩ := bind_run.1 hrun
  obtain ⟨answer', mid', hfirst', hrest'⟩ := bind_run.1 hrun'
  have hkept : mid ⊆ out := by
    cases answer with
    | some decision => rw [((pure_run _ _).1 hrest).2]; exact List.Subset.refl out
    | none => exact (htail o).keeps s mid a out hrest
  have hmid : ∀ g ∈ mid, HoldsAt nowMs g s' := fun g hg => hholds g (hkept hg)
  rw [presenceCheck_eq req limits hfirst hmid ho'] at hfirst'
  obtain ⟨rfl, rfl⟩ := (hpresence _).same s s' gs answer mid answer' mid' hstart hfirst hmid hfirst'
  cases answer' with
  | some decision =>
    obtain ⟨rfl, rfl⟩ := (pure_run _ _).1 hrest
    obtain ⟨rfl, rfl⟩ := (pure_run _ _).1 hrest'
    exact ⟨rfl, rfl⟩
  | none =>
    have hstart' : P s mid' := hP s gs mid' ((hpresence _).keeps s gs none mid' hfirst) hstart
    exact compared_same req limits hP hstart' hrest hholds ho' hrest'

theorem stable_checkChanges (hP : Persistent P) (changes : List RefChange) :
    Stable (HoldsAt nowMs) P (checkChanges req limits changes) := by
  induction changes with
  | nil => exact Stable.pure _
  | cons change rest ih => exact stable_orElse hP (stable_checkChange req limits hP change) ih

theorem stable_refs (hP : Persistent P) : Stable (HoldsAt nowMs) P (refs req limits) := by
  refine (stable_checkChanges req limits hP _).bind hP fun answer => ?_
  cases answer with
  | some decision => exact Stable.pure _
  | none => exact Stable.pure _

/-- Nothing is known at the start; replay comes first and makes its row known. -/
theorem stable_refAttempt : Stable (HoldsAt nowMs) (fun _ _ => True) (refAttempt req limits) := by
  have hreplay := persistent_replayKnown req
  refine (stable_replay req limits fun _ _ _ _ h => h).bind_of (Q := fun _ => ReplayKnown req)
    (fun s gs a out _ hrun => replayKnown_of_run req limits hrun) fun answer => ?_
  cases answer with
  | some recorded => exact Stable.pure _
  | none =>
    refine (stable_refuseWhen _ _).bind hreplay fun _ => ?_
    refine (stable_context req limits).bind hreplay fun refusal => ?_
    cases refusal with
    | some decision => exact Stable.pure _
    | none => exact stable_refs req limits hreplay

end Checks

/-! ### Sealed decisions -/

/-- The guards of a decision, compared one by one. -/
theorem holdsAt_of_guardsMatch {D : Type} {guarded : Guarded D} {current : Snapshot}
    {nowMs : UInt64} (h : guardsMatch guarded current nowMs = true) :
    ∀ g ∈ guarded.required, HoldsAt nowMs g current := by
  intro g hg
  rw [guardsMatch] at h
  split_ifs at h with hrepository hview
  rw [List.all_eq_true] at h
  exact ⟨Bool.eq_false_iff.2 hview, h g hg⟩

/-- A stable attempt is decided by the guards it seals. -/
theorem sealAttempt_same {req : RefWriteRequest} {attempt : Attempt WriteDecision}
    (hstable : ∀ nowMs, Stable (HoldsAt nowMs) (fun _ _ => True) attempt) {s s' : Snapshot}
    {g g' : FencedDecision} {nowMs : UInt64} (h : sealAttempt req attempt s = .ok g)
    (hmatch : guardsMatch g.guarded s' nowMs = true) (h' : sealAttempt req attempt s' = .ok g') :
    g' = g := by
  obtain ⟨⟨decision, guards⟩, hrun, hg⟩ := Wire.bind_eq_ok.1 h
  obtain ⟨⟨decision', guards'⟩, hrun', hg'⟩ := Wire.bind_eq_ok.1 h'
  obtain rfl := Except.ok.inj hg
  obtain rfl := Except.ok.inj hg'
  obtain ⟨rfl, rfl⟩ := (hstable nowMs).same s s' [] decision guards decision' guards' trivial hrun
    (holdsAt_of_guardsMatch hmatch) hrun'
  rfl

end Mkit.Decision
