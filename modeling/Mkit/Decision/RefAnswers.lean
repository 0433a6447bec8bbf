import Mkit.Decision.RefGuards

/-!
# What the Checks of a Ref Decision Answer

The checks before the refs answer with refusals, retries and recorded results only
(`PlainAnswer`); none of them applies or conflicts. What they leave behind is reached by pushing
guards one after the other, so it satisfies whatever `pushGuard` preserves. `Answers` is both
facts about a check, and there is one rule for each way the checks are put together.
-/

namespace Mkit.Decision

open Guarding

section Rules

variable {limits : RefDecisionLimits}

/-- Guards are pushed within the limit of the decision. -/
abbrev Pushes (limits : RefDecisionLimits) {D : Type} (m : Attempt D) : Prop :=
  Grows (pushGuard limits.guards) m

theorem pushes_acquired {α : Type} (get : Snapshot → Option α) : Pushes limits (acquired get) :=
  Grows.fetch _

theorem pushes_add (guard : RequiredGuard) : Pushes limits (add limits guard) :=
  Grows.collect guard

theorem pushes_refuseWhen (c : Prop) [Decidable c] (code : FailureCode) :
    Pushes limits (refuseWhen c code) :=
  Grows.fetch _

theorem pushes_reject (code : PermanentCode) (message : Bytes) :
    Pushes limits (reject limits code message) :=
  (pushes_refuseWhen _ _).bind fun _ => Grows.pure _

theorem pushes_orElse {D : Type} {m n : Attempt (Option D)} (hm : Pushes limits m)
    (hn : Pushes limits n) : Pushes limits (orElse m n) := by
  refine hm.bind fun answer => ?_
  cases answer with
  | some decision => exact Grows.pure _
  | none => exact hn

variable {d : WriteDecision}

/-- A refusal is the bare refusal, and guards nothing. -/
theorem reject_eq {code : PermanentCode} {message : Bytes} {s : Snapshot}
    {gs out : List RequiredGuard} (h : reject limits code message s gs = .ok (d, out)) :
    d = .reject ⟨code, message⟩ none none ∧ out = gs := by
  obtain ⟨u, mid, hrefuse, h⟩ := bind_run.1 h
  obtain ⟨-, rfl⟩ := lift_run.1 hrefuse
  obtain ⟨rfl, rfl⟩ := (pure_run _ _).1 h
  exact ⟨rfl, rfl⟩

/-- An answer that applies nothing, conflicts with nothing and settles nothing; only a request
with a replay binding is answered from the record or has its refusal recorded. -/
inductive PlainAnswer (req : RefWriteRequest) : WriteDecision → Prop
  | refused (refusal : PermanentRefusal) : PlainAnswer req (.reject refusal none none)
  | recorded (refusal : PermanentRefusal) (h : req.replay.isSome = true) :
      PlainAnswer req (.reject refusal (some (.rejected refusal)) none)
  | returned (result : TerminalResult) (h : req.replay.isSome = true) :
      PlainAnswer req (.returnRecorded result)
  | retry (reason : RetryReason) : PlainAnswer req (.retry reason)

/-- A check that pushes guards and answers plainly. -/
structure Answers (req : RefWriteRequest) (limits : RefDecisionLimits)
    (m : Attempt (Option WriteDecision)) : Prop where
  pushes : Pushes limits m
  plain : ∀ s gs d out, m s gs = .ok (some d, out) → PlainAnswer req d

variable {req : RefWriteRequest} {m n : Attempt (Option WriteDecision)}

theorem answers_none : Answers req limits (pure none) := by
  refine ⟨Grows.pure _, fun s gs d out h => ?_⟩
  exact absurd ((pure_run _ _).1 h).1 (by simp)

theorem answers_some (hd : PlainAnswer req d) : Answers req limits (pure (some d)) := by
  refine ⟨Grows.pure _, fun s gs d' out h => ?_⟩
  rw [← Option.some.inj ((pure_run _ _).1 h).1]
  exact hd

theorem answers_retry (reason : RetryReason) : Answers req limits (pure (some (.retry reason))) :=
  answers_some (.retry reason)

theorem answers_bind {D : Type} {first : Attempt D} {f : D → Attempt (Option WriteDecision)}
    (hfirst : Pushes limits first) (hf : ∀ a, Answers req limits (f a)) :
    Answers req limits (first >>= f) := by
  refine ⟨hfirst.bind fun a => (hf a).pushes, fun s gs d out h => ?_⟩
  obtain ⟨a, mid, -, h⟩ := bind_run.1 h
  exact (hf a).plain s mid d out h

theorem answers_acquired {α : Type} {get : Snapshot → Option α}
    {f : α → Attempt (Option WriteDecision)} (hf : ∀ a, Answers req limits (f a)) :
    Answers req limits (acquired get >>= f) :=
  answers_bind (pushes_acquired get) hf

variable {f : Unit → Attempt (Option WriteDecision)}

theorem answers_add {guard : RequiredGuard}
    (hf : ∀ a, Answers req limits (f a)) : Answers req limits (add limits guard >>= f) :=
  answers_bind (pushes_add guard) hf

theorem answers_refuseWhen {c : Prop} [Decidable c] {code : FailureCode}
    (hf : ∀ a, Answers req limits (f a)) : Answers req limits (refuseWhen c code >>= f) :=
  answers_bind (pushes_refuseWhen c code) hf

theorem answers_orElse (hm : Answers req limits m) (hn : Answers req limits n) :
    Answers req limits (orElse m n) := by
  refine ⟨pushes_orElse hm.pushes hn.pushes, fun s gs d out h => ?_⟩
  obtain ⟨answer, mid, hfirst, h⟩ := bind_run.1 h
  cases answer with
  | some decision =>
    rw [← Option.some.inj ((pure_run _ _).1 h).1]
    exact hm.plain s gs decision mid hfirst
  | none => exact hn.plain s mid d out h

theorem answers_error (e : Failure) : Answers req limits (lift (.error e)) := by
  refine ⟨Grows.fetch _, fun s gs d out h => ?_⟩
  exact absurd (lift_run.1 h).1 (by simp)

theorem answers_reject (code : PermanentCode) (message : Bytes) :
    Answers req limits (answerReject limits code message) := by
  refine ⟨(pushes_reject code message).bind fun _ => Grows.pure _, fun s gs d out h => ?_⟩
  obtain ⟨refusal, mid, hreject, h⟩ := bind_run.1 h
  rw [← Option.some.inj ((pure_run _ _).1 h).1, (reject_eq hreject).1]
  exact .refused _

end Rules

section Checks

variable (req : RefWriteRequest) (limits : RefDecisionLimits)

theorem answers_authority : Answers req limits (authority req limits) := by
  rw [authority]
  split
  · exact answers_none
  · refine answers_acquired fun observed => answers_refuseWhen fun _ => answers_add fun _ => ?_
    split
    · split_ifs
      · exact answers_none
      · exact answers_reject _ _
      · exact answers_retry _
    · exact answers_reject _ _

theorem answers_grant : Answers req limits (grant req limits) := by
  rw [grant]
  split
  · exact answers_none
  · refine answers_acquired fun observed => answers_refuseWhen fun _ => answers_add fun _ => ?_
    split
    · split_ifs
      · exact answers_refuseWhen fun _ => answers_none
      · exact answers_reject _ _
    · exact answers_reject _ _

theorem answers_lifecycle : Answers req limits (lifecycle req limits) := by
  rw [lifecycle]
  split
  · exact answers_none
  · refine answers_acquired fun observed => answers_add fun _ => ?_
    split
    · split_ifs
      · exact answers_none
      · exact answers_retry _
    · exact answers_retry _

/-- A refusal is recorded only for a request with a replay binding. -/
theorem answers_rejectRecorded (code : PermanentCode) (message : Bytes) :
    Answers req limits (rejectRecorded req limits code message) := by
  have hauthorized : Answers req limits (authorized req limits) :=
    answers_orElse (answers_grant req limits)
      (answers_orElse (answers_authority req limits) (answers_lifecycle req limits))
  refine ⟨(Grows.fetch _).bind fun isRecording => ?_, fun s gs d out h => ?_⟩
  · split_ifs
    · exact pushes_orElse hauthorized.pushes
        ((pushes_reject code message).bind fun _ => Grows.pure _)
    · exact (answers_reject code message : Answers req limits _).pushes
  · obtain ⟨isRecording, mid, hfetch, h⟩ := bind_run.1 h
    obtain ⟨hrecording, rfl⟩ := fetch_run.1 hfetch
    split_ifs at h with hcase
    · obtain ⟨answer, mid', hfirst, h⟩ := bind_run.1 h
      cases answer with
      | some decision =>
        rw [← Option.some.inj ((pure_run _ _).1 h).1]
        exact hauthorized.plain s gs decision mid' hfirst
      | none =>
        obtain ⟨refusal, last, hreject, h⟩ := bind_run.1 h
        rw [← Option.some.inj ((pure_run _ _).1 h).1, (reject_eq hreject).1]
        obtain rfl := Except.ok.inj hrecording
        rw [recording, Bool.and_eq_true] at hcase
        exact .recorded _ hcase.1
    · exact (answers_reject code message).plain s gs d out h

theorem answers_replay : Answers req limits (replay req limits) := by
  rw [replay]
  split
  · exact answers_none
  · rename_i bound hbound
    have hsome : req.replay.isSome = true := by rw [hbound, Option.isSome_some]
    refine answers_acquired fun observed => answers_refuseWhen fun _ => answers_add fun _ => ?_
    split
    · exact answers_none
    · exact answers_some (.returned _ hsome)
    · exact answers_retry _
    · exact answers_retry _
    · exact answers_reject _ _

theorem answers_validity : Answers req limits (validity req limits) := by
  rw [validity]
  split
  · exact answers_none
  · refine answers_add fun _ => ?_
    split_ifs
    · exact answers_retry _
    · exact answers_none

theorem answers_source : Answers req limits (source req limits) := by
  rw [source]
  split
  · exact answers_none
  · refine answers_refuseWhen fun _ => answers_refuseWhen fun _ => ?_
    split
    · exact answers_reject _ _
    · split_ifs
      · split
        · exact answers_reject _ _
        · refine answers_refuseWhen fun _ => ?_
          split_ifs
          · exact answers_reject _ _
          · exact answers_retry _
          · exact answers_none
      · exact answers_reject _ _

theorem answers_policy : Answers req limits (policy req limits) := by
  rw [policy]
  split
  · exact answers_none
  · refine answers_acquired fun observed => answers_add fun _ => ?_
    split
    · exact answers_error _
    · split_ifs
      · exact answers_rejectRecorded req limits _ _
      · exact answers_none

theorem answers_memberMissing : Answers req limits (memberMissing req limits) := by
  rw [memberMissing]
  split_ifs
  · exact answers_retry _
  · exact answers_rejectRecorded req limits _ _

theorem answers_membership : Answers req limits (membership req limits) := by
  refine answers_orElse ?_ ?_
  · generalize req.required.members = members
    induction members with
    | nil => exact answers_none
    | cons object rest ih =>
      rw [membershipOf]
      refine answers_acquired fun observed => answers_add fun _ => ?_
      split
      · exact ih
      · exact answers_memberMissing req limits
  · rw [indexedHead]
    split
    · refine answers_acquired fun observed => answers_add fun _ => ?_
      split
      · split_ifs
        · exact answers_none
        · exact answers_rejectRecorded req limits _ _
      · exact answers_memberMissing req limits
    · exact answers_none

theorem answers_denial : Answers req limits (denial req limits) := by
  rw [denial]
  split_ifs
  · refine answers_acquired fun observed => answers_add fun _ => ?_
    split
    · split_ifs
      · exact answers_retry _
      · exact answers_reject _ _
      · exact answers_none
    · exact answers_none
  · exact answers_none

theorem answers_admission : Answers req limits (admission req limits) := by
  rw [admission]
  split
  · exact answers_none
  · refine answers_acquired fun observed => answers_bind (Grows.fetch _) fun operation =>
      answers_add fun _ => ?_
    split
    · exact answers_error _
    · exact answers_refuseWhen fun _ => answers_none

theorem answers_publication : Answers req limits (publication req limits) := by
  rw [publication]
  split_ifs
  · exact answers_acquired fun _ => answers_add fun _ => answers_none
  · exact answers_none

theorem answers_ancestryProof (subject : RefChange) (source target : Hash) (message : Bytes) :
    Answers req limits (ancestryProof req limits subject source target message) := by
  refine answers_bind (Grows.fetch _) fun proof => answers_refuseWhen fun _ => ?_
  split
  · exact answers_none
  · exact answers_rejectRecorded req limits _ _
  · exact answers_retry _

theorem answers_ancestry : Answers req limits (ancestry req limits) := by
  rw [ancestry]
  split
  · exact answers_none
  · refine answers_bind (Grows.fetch _) fun deployment => ?_
    generalize (if deployment = true then NON_FAST_FORWARD else REF_SCOPE) = message
    split_ifs
    · exact answers_none
    · refine answers_bind (Grows.fetch _) fun subject => ?_
      split
      · exact answers_rejectRecorded req limits _ _
      · split
        · exact answers_none
        · exact answers_ancestryProof req limits _ _ _ _
        · refine answers_acquired fun observed => answers_add fun _ => ?_
          split
          · exact answers_none
          · exact answers_ancestryProof req limits _ _ _ _

/-- None of the fences applies or conflicts. -/
theorem answers_context : Answers req limits (context req limits) := by
  refine answers_orElse (answers_validity req limits) ?_
  refine answers_orElse (answers_source req limits) ?_
  refine answers_orElse (answers_policy req limits) ?_
  refine answers_orElse (answers_membership req limits) ?_
  refine answers_orElse (answers_ancestry req limits) ?_
  refine answers_orElse (answers_denial req limits) ?_
  refine answers_orElse (answers_grant req limits) ?_
  refine answers_orElse (answers_authority req limits) ?_
  refine answers_orElse (answers_lifecycle req limits) ?_
  exact answers_orElse (answers_admission req limits) (answers_publication req limits)

/-! ### The refs -/

theorem answers_presenceCheck (change : RefChange) (isPresent : Bool) :
    Answers req limits (presenceCheck req limits change isPresent) := by
  rw [presenceCheck]
  split
  · exact answers_none
  · split_ifs
    · exact answers_add fun _ => answers_reject _ _
    · exact answers_add fun _ => answers_none
    · exact answers_none

theorem answers_admittedCheck (change : RefChange) (isPresent : Bool) :
    Answers req limits (admittedCheck req limits change isPresent) := by
  rw [admittedCheck]
  split_ifs
  · exact answers_none
  · refine answers_bind (Grows.fetch _) fun admitted => answers_add fun _ => ?_
    split_ifs
    · exact answers_retry _
    · exact answers_none

theorem pushes_valueCheck (change : RefChange) (observed : Observed Hash) :
    Pushes limits (valueCheck req limits change observed) := by
  rw [valueCheck]
  split_ifs
  · exact (pushes_add _).bind fun _ => Grows.pure _
  · exact (pushes_add _).bind fun _ => Grows.pure _
  · exact Grows.pure _
  · exact Grows.pure _

theorem pushes_checkChange (change : RefChange) : Pushes limits (checkChange req limits change) :=
  (pushes_acquired _).bind fun observed => pushes_orElse
    (answers_presenceCheck req limits change _).pushes
    (pushes_orElse (pushes_valueCheck req limits change observed)
      (answers_admittedCheck req limits change _).pushes)

theorem pushes_checkChanges (changes : List RefChange) :
    Pushes limits (checkChanges req limits changes) := by
  induction changes with
  | nil => exact Grows.pure _
  | cons change rest ih => exact pushes_orElse (pushes_checkChange req limits change) ih

theorem pushes_refs : Pushes limits (refs req limits) := by
  refine (pushes_checkChanges req limits _).bind fun answer => ?_
  cases answer with
  | some decision => exact Grows.pure _
  | none => exact Grows.pure _

/-- What follows the replay check. -/
theorem pushes_afterReplay (answer : Option WriteDecision) : Pushes limits (match answer with
      | some recorded => (pure recorded : Attempt WriteDecision)
      | none => do
          refuseWhen (invalidShape req) .invalidRefRequest
          match ← context req limits with
          | some refusal => return refusal
          | none => refs req limits) := by
  cases answer with
  | some recorded => exact Grows.pure _
  | none =>
    refine (pushes_refuseWhen _ _).bind fun _ => (answers_context req limits).pushes.bind
      fun refusal => ?_
    cases refusal with
    | some decision => exact Grows.pure _
    | none => exact pushes_refs req limits

theorem pushes_refAttempt : Pushes limits (refAttempt req limits) :=
  (answers_replay req limits).pushes.bind (pushes_afterReplay req limits)

variable {s : Snapshot} {gs out : List RequiredGuard}

/-- The value observed for a ref. -/
def Observes (s : Snapshot) (name : RefName) (o : Observed Hash) : Prop :=
  (s.refs.find? (·.1 = name)).map Prod.snd = some o

/-- The answer to a change whose ref is in another state. -/
def conflictAnswer (change : RefChange) (o : Observed Hash) : WriteDecision :=
  .conflict [⟨change.name, targetOf o⟩]
    (req.replay.map fun _ => .conflict [⟨change.name, targetOf o⟩]) none

/-- The answers to one change: a plain one, the conflict on its own guarded value, or none when
the ref is in the state it expects. -/
inductive ChangeAnswer (s : Snapshot) (change : RefChange) (out : List RequiredGuard) :
    Option WriteDecision → Prop
  | plain (d : WriteDecision) (h : PlainAnswer req d) : ChangeAnswer s change out (some d)
  | conflict (o : Observed Hash) (ho : Observes s change.name o)
      (hc : conflicts change (targetOf o) = true)
      (hg : .refValue req.repository change.name o ∈ out) :
      ChangeAnswer s change out (some (conflictAnswer req change o))
  | agrees (o : Observed Hash) (ho : Observes s change.name o)
      (hc : conflicts change (targetOf o) = false) : ChangeAnswer s change out none

variable {a : Option WriteDecision}

theorem checkChange_cases {change : RefChange}
    (h : checkChange req limits change s gs = .ok (a, out)) : ChangeAnswer req s change out a := by
  obtain ⟨o, mid, hfetch, h⟩ := bind_run.1 h
  obtain ⟨ho, rfl⟩ := fetch_run.1 hfetch
  rw [okOr_eq_ok] at ho
  obtain ⟨answer, mid, hpresence, h⟩ := bind_run.1 h
  cases answer with
  | some d =>
    obtain ⟨rfl, -⟩ := (pure_run _ _).1 h
    exact .plain d ((answers_presenceCheck req limits change _).plain _ _ d _ hpresence)
  | none =>
    obtain ⟨answer, last, hvalue, h⟩ := bind_run.1 h
    cases hconflict : conflicts change (targetOf o) with
    | true =>
      simp only [valueCheck, hconflict, true_or, if_true] at hvalue
      obtain ⟨u, later, hadd, hvalue⟩ := bind_run.1 hvalue
      obtain ⟨rfl, rfl⟩ := (pure_run _ _).1 hvalue
      obtain ⟨rfl, rfl⟩ := (pure_run _ _).1 h
      exact .conflict o ho hconflict (leaves_add limits _ s _ u _ hadd)
    | false =>
      cases answer with
      | some d =>
        simp only [valueCheck, hconflict, Bool.false_eq_true, false_or, if_false] at hvalue
        split_ifs at hvalue
        · obtain ⟨u, later, -, hvalue⟩ := bind_run.1 hvalue
          exact absurd ((pure_run _ _).1 hvalue).1 (by simp)
        · exact absurd ((pure_run _ _).1 hvalue).1 (by simp)
      | none =>
        cases a with
        | some d =>
          exact .plain d ((answers_admittedCheck req limits change _).plain _ _ d _ h)
        | none => exact .agrees o ho hconflict

/-- The answers to all changes: plain, the conflict of the first change that does not agree, or
none when all agree. -/
theorem checkChanges_cases {changes : List RefChange}
    (h : checkChanges req limits changes s gs = .ok (a, out)) :
    (∃ d, a = some d ∧ PlainAnswer req d) ∨
    (∃ before change after o, changes = before ++ change :: after ∧
      (∀ c ∈ before, ∃ o, Observes s c.name o ∧ conflicts c (targetOf o) = false) ∧
      Observes s change.name o ∧ conflicts change (targetOf o) = true ∧
      .refValue req.repository change.name o ∈ out ∧ a = some (conflictAnswer req change o)) ∨
    (a = none ∧ ∀ c ∈ changes, ∃ o, Observes s c.name o ∧ conflicts c (targetOf o) = false) := by
  induction changes generalizing gs with
  | nil =>
    obtain ⟨rfl, -⟩ := (pure_run _ _).1 h
    exact .inr (.inr ⟨rfl, by simp⟩)
  | cons change rest ih =>
    obtain ⟨answer, mid, hfirst, h⟩ := bind_run.1 h
    cases checkChange_cases req limits hfirst with
    | plain d hd =>
      obtain ⟨rfl, -⟩ := (pure_run _ _).1 h
      exact .inl ⟨d, rfl, hd⟩
    | conflict o ho hc hg =>
      obtain ⟨rfl, rfl⟩ := (pure_run _ _).1 h
      exact .inr (.inl ⟨[], change, rest, o, rfl, by simp, ho, hc, hg, rfl⟩)
    | agrees o ho hc =>
      obtain ⟨d, rfl, hd⟩ | ⟨before, c, after, o', rfl, hbefore, hrest⟩ | ⟨rfl, hall⟩ := ih h
      · exact .inl ⟨d, rfl, hd⟩
      · exact .inr (.inl ⟨change :: before, c, after, o', rfl,
          List.forall_mem_cons.2 ⟨⟨o, ho, hc⟩, hbefore⟩, hrest⟩)
      · exact .inr (.inr ⟨rfl, List.forall_mem_cons.2 ⟨⟨o, ho, hc⟩, hall⟩⟩)

/-- What a ref decision decides: a plain answer, the conflict of the first change that does not
agree, or exactly the changes, all of which agree. -/
inductive RefAnswer (s : Snapshot) (out : List RequiredGuard) : WriteDecision → Prop
  | plain (d : WriteDecision) (h : PlainAnswer req d) : RefAnswer s out d
  | conflict (before : List RefChange) (change : RefChange) (after : List RefChange)
      (o : Observed Hash) (hchanges : req.changes = before ++ change :: after)
      (hbefore : ∀ c ∈ before, ∃ o, Observes s c.name o ∧ conflicts c (targetOf o) = false)
      (ho : Observes s change.name o) (hc : conflicts change (targetOf o) = true)
      (hg : .refValue req.repository change.name o ∈ out) :
      RefAnswer s out (conflictAnswer req change o)
  | apply (h : ∀ c ∈ req.changes, ∃ o, Observes s c.name o ∧ conflicts c (targetOf o) = false) :
      RefAnswer s out (.apply (refEffects req))

variable {d : WriteDecision}

theorem refAnswer_of_refs (h : refs req limits s gs = .ok (d, out)) : RefAnswer req s out d := by
  obtain ⟨answer, mid, hchecks, h⟩ := bind_run.1 h
  obtain ⟨d', rfl, hd⟩ | ⟨before, change, after, o, hchanges, hbefore, ho, hc, hg, rfl⟩ |
    ⟨rfl, hall⟩ := checkChanges_cases req limits hchecks
  · obtain ⟨rfl, -⟩ := (pure_run _ _).1 h
    exact .plain _ hd
  · obtain ⟨rfl, rfl⟩ := (pure_run _ _).1 h
    exact .conflict before change after o hchanges hbefore ho hc hg
  · obtain ⟨rfl, -⟩ := (pure_run _ _).1 h
    exact .apply hall

theorem refAnswer_of_refAttempt
    (h : refAttempt req limits s gs = .ok (d, out)) : RefAnswer req s out d := by
  obtain ⟨answer, mid, hreplay, h⟩ := bind_run.1 h
  cases answer with
  | some recorded =>
    obtain ⟨rfl, -⟩ := (pure_run _ _).1 h
    exact .plain _ ((answers_replay req limits).plain _ _ _ _ hreplay)
  | none =>
    obtain ⟨u, mid', -, h⟩ := bind_run.1 h
    obtain ⟨refusal, last, hcontext, h⟩ := bind_run.1 h
    cases refusal with
    | some decision =>
      obtain ⟨rfl, -⟩ := (pure_run _ _).1 h
      exact .plain _ ((answers_context req limits).plain _ _ _ _ hcontext)
    | none => exact refAnswer_of_refs req limits h

end Checks

end Mkit.Decision
