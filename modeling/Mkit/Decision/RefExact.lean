import Mkit.Decision.RefAnswers

/-!
# Applied Ref Writes are the Request

What a ref write applies is what was requested, and what a conflict reports is the first change
that does not agree with the observed refs.

## Main results

* `applied_write_exact_iff` — an applied write has exactly the requested changes as its effects,
  every condition met by the observed value and the recorded result listing the effects; the
  names of the effects are distinct exactly when the names of the changes are, which the shape
  check of a pair leaves out. A conflict reports the first failing change and no other value.
-/

namespace Mkit.Decision

open Guarding

/-- The condition of a change holds of the value of its ref. -/
def RefChange.Holds (change : RefChange) (value : Option Hash) : Prop :=
  match change.condition with
  | .any => True
  | .missing => value = none
  | .matching expected => value = some expected

/-- The value observed for a ref; the outer `none` is a ref that was not acquired. -/
def observedValue (snapshot : Snapshot) (name : RefName) : Option (Option Hash) :=
  (snapshot.refs.find? (·.1 = name)).map fun row => targetOf row.2

/-- The observed value of a change's ref meets its condition. -/
def Meets (snapshot : Snapshot) (change : RefChange) : Prop :=
  ∃ value, observedValue snapshot change.name = some value ∧ change.Holds value

/-- The effects of an applied write are exactly the request. -/
structure AppliesExactly (req : RefWriteRequest) (snapshot : Snapshot)
    (effects : AcceptanceEffects) : Prop where
  refs : effects.refs = req.changes.map fun change => ⟨change.name, change.target⟩
  distinct : (effects.refs.map (·.name)).Nodup
  conditions : ∀ change ∈ req.changes, Meets snapshot change
  replay : effects.replay = req.replay.map fun bound => ⟨bound.scope, ⟨bound.scope,
    bound.fingerprint, bound.expiresMs,
    .committed (.applied (effects.refs.map fun effect => ⟨effect.name, effect.target⟩))⟩⟩

/-- A conflict reports the first change whose condition fails, with its observed value, and the
recorded result holds that one row too. -/
def ConflictsExactly (req : RefWriteRequest) (snapshot : Snapshot) (current : List RefValue)
    (replay : Option TerminalResult) : Prop :=
  ∃ before change after value, req.changes = before ++ change :: after ∧
    (∀ earlier ∈ before, Meets snapshot earlier) ∧
    observedValue snapshot change.name = some value ∧ ¬ change.Holds value ∧
    current = [⟨change.name, value⟩] ∧ replay = req.replay.map fun _ => .conflict current

theorem conflicts_eq_false_iff {change : RefChange} {value : Option Hash} :
    conflicts change value = false ↔ change.Holds value := by
  rw [conflicts, RefChange.Holds]
  cases change.condition with
  | any => simp
  | missing => simp
  | matching expected => simp

theorem observedValue_of_observes {s : Snapshot} {name : RefName} {o : Observed Hash}
    (h : Observes s name o) : observedValue s name = some (targetOf o) := by
  obtain ⟨row, hrow, rfl⟩ := Option.map_eq_some_iff.1 h
  rw [observedValue, hrow, Option.map_some]

theorem meets_of_agrees {s : Snapshot} {changes : List RefChange}
    (h : ∀ c ∈ changes, ∃ o, Observes s c.name o ∧ conflicts c (targetOf o) = false) :
    ∀ c ∈ changes, Meets s c := by
  intro c hc
  obtain ⟨o, ho, hagrees⟩ := h c hc
  exact ⟨targetOf o, observedValue_of_observes ho, conflicts_eq_false_iff.1 hagrees⟩

/-- A sealed ref decision is one of the answers of an attempt. -/
theorem refAnswer_of_decide {req : RefWriteRequest} {snapshot : Snapshot}
    {limits : RefDecisionLimits} {decided : FencedDecision}
    (h : decideRefWrite req snapshot limits = .ok decided) :
    RefAnswer req snapshot decided.guarded.required decided.guarded.decision := by
  unfold decideRefWrite at h
  obtain ⟨-, h⟩ := refuseIf_bind_eq_ok.1 h
  obtain ⟨⟨⟩, -, h⟩ := Wire.bind_eq_ok.1 h
  obtain ⟨⟨decision, guards⟩, hrun, h⟩ := Wire.bind_eq_ok.1 h
  obtain rfl := Except.ok.inj h
  exact refAnswer_of_refAttempt req limits hrun

/-- **An applied ref write is exactly the request.** On every input where the decision applies,
its effects are the requested changes in order with the observed values meeting every condition
and the recorded result listing them, except that two changes may name one ref: the property
holds exactly when the changes name distinct refs. On every input where it conflicts, it reports
the first failing change and nothing else. -/
theorem applied_write_exact_iff (req : RefWriteRequest) (snapshot : Snapshot)
    (limits : RefDecisionLimits) (decided : FencedDecision)
    (h : decideRefWrite req snapshot limits = .ok decided) :
    (∀ effects, decided.guarded.decision = .apply effects →
      (AppliesExactly req snapshot effects ↔ (req.changes.map (·.name)).Nodup)) ∧
    ∀ current replay reservation,
      decided.guarded.decision = .conflict current replay reservation →
        ConflictsExactly req snapshot current replay ∧ reservation = none := by
  have hanswer := refAnswer_of_decide h
  generalize decided.guarded.decision = decision at hanswer
  refine ⟨fun effects hd => ?_, fun current replay reservation hd => ?_⟩
  · subst hd
    cases hanswer with
    | plain _ hplain => cases hplain
    | apply hall =>
      have hnames : ((refEffects req).refs.map (·.name)) = req.changes.map (·.name) := by
        rw [refEffects, List.map_map]
        rfl
      constructor
      · intro hexact
        rw [← hnames]
        exact hexact.distinct
      · intro hnodup
        refine ⟨rfl, hnames ▸ hnodup, meets_of_agrees hall, ?_⟩
        simp only [refEffects, writtenRefs, List.map_map]
        rfl
  · cases hanswer with
    | plain _ hplain => subst hd; cases hplain
    | conflict before change after o hchanges hbefore ho hc =>
      obtain ⟨rfl, rfl, rfl⟩ : _ ∧ _ ∧ _ := by
        simpa only [conflictAnswer, WriteDecision.conflict.injEq] using hd
      refine ⟨⟨before, change, after, targetOf o, hchanges, meets_of_agrees hbefore,
        observedValue_of_observes ho, fun hholds => ?_, rfl, rfl⟩, rfl⟩
      rw [conflicts_eq_false_iff.2 hholds] at hc
      cases hc
    | apply => cases hd

/-- A pair of unconditional writes to the given refs, nothing else required. -/
def pairRequest (packmap head : RefName) : RefWriteRequest :=
  { settlementRequest ZERO with
    kind := .advance
    changes := [⟨packmap, .any, some (ByteArr.fill HASH_LEN 1)⟩,
      ⟨head, .any, some (ByteArr.fill HASH_LEN 2)⟩] }

/-- A snapshot in which the given refs are absent. -/
def absentRefs (names : List RefName) : Snapshot :=
  ⟨ZERO, names.map fun name => (name, .absent ZERO), none, [], [], none, none, none, [], none, none,
    none, none, none, none, []⟩

def refA : RefName := ascii "refs/heads/a".toList

def refB : RefName := ascii "refs/heads/b".toList

/-- What an unguarded pair of writes decides. -/
def appliedPair (packmap head : RefName) : FencedDecision :=
  ⟨⟨ZERO, .apply (refEffects (pairRequest packmap head)), []⟩, []⟩

/-- A pair of writes to two refs is applied as it was requested. -/
theorem applied_write_exact_pair : AppliesExactly (pairRequest refA refB) (absentRefs [refA, refB])
      (refEffects (pairRequest refA refB)) := by
  have hdecide : decideRefWrite (pairRequest refA refB) (absentRefs [refA, refB])
      ⟨64, 8, 8192, 65536, 512⟩ = .ok (appliedPair refA refB) := by
    decide +kernel
  exact ((applied_write_exact_iff _ _ _ _ hdecide).1 _ rfl).2 (by decide +kernel)

/-- A pair that names one ref twice is applied with two effects on that ref. -/
theorem applied_write_repeats_name :
    ∃ decided, decideRefWrite (pairRequest refA refA) (absentRefs [refA])
        ⟨64, 8, 8192, 65536, 512⟩ = .ok decided ∧
      decided.guarded.decision = .apply (refEffects (pairRequest refA refA)) ∧
      ¬ AppliesExactly (pairRequest refA refA) (absentRefs [refA])
        (refEffects (pairRequest refA refA)) := by
  refine ⟨appliedPair refA refA, by decide +kernel, rfl, fun h => ?_⟩
  have hdistinct := h.distinct
  simp [refEffects, pairRequest] at hdistinct

end Mkit.Decision
