import Mathlib.Data.List.Nodup
import Mkit.Decision.RefGuards

/-!
# Guard Completeness

`checkGuardCompleteness` (`ref_write/complete.rs`) is the audit a host runs before it lowers a
sealed decision: the lowered guards contradict each other nowhere, contain every exact guard of
the decision, and contain a guard of every kind that the decision needs. What it needs is a table
of its own, over the effects and the recorded answers (`effectGuardKinds`, `requiredGuardKinds`).
`withAcceptanceBasis` (`ref_write/basis.rs`) adds the guards of acceptance bases to a decision.

The memory size of a guard and of a pack, which the attachment charges for, are parameters.
-/

namespace Mkit.Decision

/-! ### Kinds -/

/-- The category of a guard. -/
inductive GuardKind where
  | refValue
  | refPresence
  | replay
  | ticket
  | reservation
  | authority
  | grant
  | repository
  | membership
  | denial
  | policy
  | admission
  | accounting
  | storage
  | publication
  | validThrough
  | binding
  | fork
  | clearance
deriving DecidableEq

/-- The category of a row. -/
def GuardRow.kind : GuardRow → GuardKind
  | .clearancePrior | .clearanceChanged _ | .clearanceSuffix _ | .clearanceWitness _
  | .clearanceLifecycleProfile => .clearance
  | _ => .fork

/-- The category of an exact guard. -/
def guardKind : RequiredGuard → GuardKind
  | .refValue _ _ _ => .refValue
  | .refPresence _ _ _ => .refPresence
  | .replay _ _ => .replay
  | .ticket _ _ => .ticket
  | .reservation _ _ => .reservation
  | .authority _ _ => .authority
  | .grant _ _ => .grant
  | .repository _ _ => .repository
  | .membership _ _ _ | .membershipWitness _ _ _ => .membership
  | .denial _ _ | .denialVersion _ => .denial
  | .policy _ _ => .policy
  | .admission _ _ => .admission
  | .accounting _ _ => .accounting
  | .storage _ _ => .storage
  | .publication _ _ | .dependencyPublication _ _ _ _ _ => .publication
  | .validThrough _ => .validThrough
  | .binding _ => .binding
  | .row _ row _ => row.kind

/-- The class of a decision. -/
inductive DecisionClass where
  | apply
  | conflict
  | reject
  | returnRecorded
  | retry
deriving DecidableEq

def decisionClass : WriteDecision → DecisionClass
  | .apply _ => .apply
  | .conflict _ _ _ => .conflict
  | .reject _ _ _ => .reject
  | .returnRecorded _ => .returnRecorded
  | .retry _ => .retry

/-- Add a kind once when a condition holds. -/
def addKind (c : Bool) (kind : GuardKind) (kinds : List GuardKind) : List GuardKind :=
  if c ∧ kind ∉ kinds then kinds ++ [kind] else kinds

/-- Effects that change rows. -/
def AcceptanceEffects.writes (effects : AcceptanceEffects) : Bool :=
  effects.refs ≠ [] ∨ effects.membership ≠ [] ∨ effects.tickets ≠ [] ∨
    effects.publication ≠ [] ∨ effects.accounting ≠ [] ∨ effects.storage ≠ [] ∨
    effects.reservationTransitions ≠ []

/-- The kinds that bare effects need. -/
def effectGuardKinds (cls : DecisionClass) (effects : AcceptanceEffects) :
    Except Failure (List GuardKind) := do
  refuseIf (cls ≠ .apply ∧ effects.writes) (failure .invalidResponse)
  let kinds := addKind (cls = .conflict) .refValue []
  let kinds := addKind (cls = .returnRecorded ∨ effects.replay.isSome) .replay kinds
  let kinds := addKind (effects.membership ≠ []) .membership kinds
  let kinds := addKind (effects.tickets ≠ []) .ticket kinds
  let kinds := addKind (effects.reservations ≠ [] ∨ effects.reservationTransitions ≠ [] ∨
    effects.outcomes ≠ []) .reservation kinds
  let kinds := addKind (effects.publication ≠ []) .publication kinds
  let kinds := addKind (effects.accounting ≠ []) .accounting kinds
  return addKind (effects.storage ≠ []) .storage kinds

/-- The changes of a decision. -/
def WriteDecision.mutations : WriteDecision → AcceptanceEffects
  | .apply effects => effects
  | _ => AcceptanceEffects.none

/-- A refusal or conflict that will be recorded. -/
def WriteDecision.records : WriteDecision → Bool
  | .reject _ terminal _ => terminal.isSome
  | .conflict _ replay _ => replay.isSome
  | _ => false

/-- A refusal or conflict that settles a reservation. -/
def WriteDecision.settles : WriteDecision → Bool
  | .reject _ _ reservation | .conflict _ _ reservation => reservation.isSome
  | _ => false

/-- The kinds that a sealed decision needs, those of its own guards included. The additions of
a sealed decision to the membership are idempotent and read no fact. -/
def requiredGuardKinds (cls : DecisionClass) (guarded : Guarded WriteDecision) :
    Except Failure (List GuardKind) := do
  refuseIf (cls ≠ decisionClass guarded.decision) (failure .invalidResponse)
  let kinds ← effectGuardKinds cls guarded.decision.mutations
  let kinds := kinds.filter (· ≠ .membership)
  let kinds := addKind guarded.decision.records .replay kinds
  let kinds := addKind guarded.decision.settles .reservation kinds
  return guarded.required.foldl (fun kinds guard => addKind true (guardKind guard) kinds) kinds

/-- Check every exact dependency of a sealed decision against the lowered guards. -/
def checkGuardCompleteness (guarded : Guarded WriteDecision) (lowered : List RequiredGuard) :
    Except Failure Unit := do
  refuseIf (¬ consistent [] lowered) (failure .invalidResponse)
  refuseIf (guarded.required.any (· ∉ lowered)) (failure .invalidResponse)
  let kinds ← requiredGuardKinds (decisionClass guarded.decision) guarded
  refuseIf (kinds.any fun kind => !lowered.any (guardKind · = kind)) (failure .invalidResponse)

/-! ### Attaching acceptance bases -/

/-- What an attachment costs: the memory of a guard and of a pack. -/
structure MemorySizes where
  guard : ℕ
  pack : ℕ

/-- Push guards one after the other. -/
def pushGuards (limit : UInt32) (guards : List RequiredGuard) (added : List RequiredGuard) :
    Except Failure (List RequiredGuard) :=
  added.foldlM (pushGuard limit) guards

/-- The facts, guards and packs an attachment is charged for. -/
def attachmentRefused (sizes : MemorySizes) (guarded : Guarded WriteDecision)
    (bases : List AcceptanceBasis) (packs : List PackSource) (limits : RefDecisionLimits) : Bool :=
  let guardCount := (bases.map (·.guards.length)).sum
  let packCount := packs.length + (bases.map (·.packs.length)).sum
  let facts := bases.length + packs.length + guardCount + packCount
  let comparisons := facts + guarded.required.length
  -- Sums that overflow a machine word are over every limit.
  limits.facts.toNat < bases.length + packs.length ∨ limits.facts.toNat < facts ∨
    limits.work.toNat < comparisons * comparisons * 8 ∨
    limits.bytes.toNat < guardCount * sizes.guard + packCount * sizes.pack ∨
    limits.guards.toNat < guarded.required.length

/-- Attach acceptance dependencies to a write. -/
def withAcceptanceBasis (sizes : MemorySizes) (guarded : Guarded WriteDecision)
    (bases : List AcceptanceBasis) (packs : List PackSource) (limits : RefDecisionLimits) :
    Except Failure (Guarded WriteDecision) :=
  if bases = [] ∧ packs = [] then .ok guarded
  else do
    refuseIf (attachmentRefused sizes guarded bases packs limits) (failure .resourceLimit)
    refuseIf (bases.any (·.repository ≠ guarded.repository) ∨
      packs.any fun pack => !bases.any (·.covers pack.id pack.len)) (failure .invalidResponse)
    let required ← pushGuards limits.guards guarded.required (bases.flatMap (·.guards))
    return { guarded with required }

/-! ### What a decision needs -/

/-- Some guard has this kind. -/
def HasKind (guards : List RequiredGuard) (kind : GuardKind) : Prop :=
  ∃ guard ∈ guards, guardKind guard = kind

theorem HasKind.mono {gs out : List RequiredGuard} {kind : GuardKind} (h : HasKind gs kind)
    (hsub : gs ⊆ out) : HasKind out kind := by
  obtain ⟨guard, hguard, hkind⟩ := h
  exact ⟨guard, hsub hguard, hkind⟩

/-- The guards have every kind that the decision itself needs. -/
structure Covers (guards : List RequiredGuard) (decision : WriteDecision) : Prop where
  conflict : decisionClass decision = .conflict → HasKind guards .refValue
  replay : decisionClass decision = .returnRecorded ∨ decision.mutations.replay.isSome = true ∨
    decision.records = true → HasKind guards .replay
  tickets : decision.mutations.tickets ≠ [] → HasKind guards .ticket
  reservations : decision.mutations.reservations ≠ [] ∨
    decision.mutations.reservationTransitions ≠ [] ∨ decision.mutations.outcomes ≠ [] ∨
    decision.settles = true → HasKind guards .reservation
  publication : decision.mutations.publication ≠ [] → HasKind guards .publication
  accounting : decision.mutations.accounting ≠ [] → HasKind guards .accounting
  storage : decision.mutations.storage ≠ [] → HasKind guards .storage

theorem Covers.mono {gs out : List RequiredGuard} {decision : WriteDecision}
    (h : Covers gs decision) (hsub : gs ⊆ out) : Covers out decision :=
  ⟨fun hc => (h.conflict hc).mono hsub, fun hc => (h.replay hc).mono hsub,
    fun hc => (h.tickets hc).mono hsub, fun hc => (h.reservations hc).mono hsub,
    fun hc => (h.publication hc).mono hsub, fun hc => (h.accounting hc).mono hsub,
    fun hc => (h.storage hc).mono hsub⟩

/-- A decision without changes that neither conflicts nor is recorded nor settles anything. -/
theorem covers_of_idle {gs : List RequiredGuard} {decision : WriteDecision}
    (hmutations : decision.mutations = AcceptanceEffects.none)
    (hclass : decisionClass decision ≠ .conflict ∧ decisionClass decision ≠ .returnRecorded)
    (hrecords : decision.records = false) (hsettles : decision.settles = false) :
    Covers gs decision := by
  constructor <;> simp [hmutations, hclass, hrecords, hsettles, AcceptanceEffects.none]

theorem mem_addKind {c : Bool} {kind k : GuardKind} {kinds : List GuardKind} :
    k ∈ addKind c kind kinds ↔ k ∈ kinds ∨ c = true ∧ k = kind := by
  rw [addKind]
  split_ifs with h
  · rw [List.mem_append, List.mem_singleton]
    exact or_congr_right (and_iff_right h.1).symm
  · constructor
    · exact .inl
    · rintro (hk | ⟨hc, rfl⟩)
      · exact hk
      · exact not_not.1 fun hk => h ⟨hc, hk⟩

theorem mem_foldl_addKind {k : GuardKind} {guards : List RequiredGuard} {kinds : List GuardKind} :
    k ∈ guards.foldl (fun kinds guard => addKind true (guardKind guard) kinds) kinds ↔
      k ∈ kinds ∨ HasKind guards k := by
  induction guards generalizing kinds with
  | nil => simp [HasKind]
  | cons guard rest ih =>
    rw [List.foldl_cons, ih, mem_addKind, HasKind, HasKind, or_assoc]
    simp [eq_comm]

/-- Bare effects are audited unless a decision that applies nothing has some. -/
theorem effectGuardKinds_ok (decision : WriteDecision) :
    ∃ kinds, effectGuardKinds (decisionClass decision) decision.mutations = .ok kinds ∧
      ∀ k, k ∈ kinds → k = .membership ∨
        ∀ gs, Covers gs decision → HasKind gs k := by
  have hwrites : ¬ (decisionClass decision ≠ .apply ∧ decision.mutations.writes = true) := by
    cases decision <;> simp [decisionClass, WriteDecision.mutations, AcceptanceEffects.writes,
      AcceptanceEffects.none]
  refine ⟨_, by rw [effectGuardKinds, refuseIf_bind_eq_ok]; exact ⟨hwrites, rfl⟩, ?_⟩
  intro k hk
  simp only [mem_addKind, List.not_mem_nil, false_or, decide_eq_true_eq, or_assoc] at hk
  obtain ⟨hc, rfl⟩ | ⟨hc, rfl⟩ | ⟨-, rfl⟩ | ⟨hc, rfl⟩ | ⟨hc, rfl⟩ | ⟨hc, rfl⟩ | ⟨hc, rfl⟩ |
    ⟨hc, rfl⟩ := hk
  · exact .inr fun gs h => h.conflict hc
  · exact .inr fun gs h => h.replay (hc.imp_right .inl)
  · exact .inl rfl
  · exact .inr fun gs h => h.tickets hc
  · exact .inr fun gs h => h.reservations (hc.imp_right (Or.imp_right .inl))
  · exact .inr fun gs h => h.publication hc
  · exact .inr fun gs h => h.accounting hc
  · exact .inr fun gs h => h.storage hc

/-- A decision passes the audit of its own guards when they contradict each other nowhere and have
every kind it needs. -/
theorem checkGuardCompleteness_self {guarded : Guarded WriteDecision}
    (hconsistent : consistent [] guarded.required = true)
    (hcovers : Covers guarded.required guarded.decision) :
    checkGuardCompleteness guarded guarded.required = .ok () := by
  obtain ⟨kinds, heffects, hkinds⟩ := effectGuardKinds_ok guarded.decision
  rw [checkGuardCompleteness, refuseIf_bind_eq_ok, refuseIf_bind_eq_ok]
  refine ⟨by simp [hconsistent], by simp, ?_⟩
  have hrequired : requiredGuardKinds (decisionClass guarded.decision) guarded =
      .ok (guarded.required.foldl (fun kinds guard => addKind true (guardKind guard) kinds)
        (addKind guarded.decision.settles .reservation
          (addKind guarded.decision.records .replay (kinds.filter (· ≠ .membership))))) := by
    rw [requiredGuardKinds, refuseIf_bind_eq_ok]
    refine ⟨not_not.2 rfl, ?_⟩
    rw [heffects]
    rfl
  rw [hrequired]
  refine refuseIf_eq_ok.2 ?_
  simp only [List.any_eq_true, Bool.not_eq_true', not_exists, not_and]
  intro k hk
  have hkind : HasKind guarded.required k := by
    rw [mem_foldl_addKind, mem_addKind, mem_addKind, List.mem_filter] at hk
    obtain ((⟨hmem, hne⟩ | ⟨hc, rfl⟩) | ⟨hc, rfl⟩) | hk := hk
    · exact (hkinds k hmem).resolve_left (by simpa using hne) _ hcovers
    · exact hcovers.replay (.inr (.inr hc))
    · exact hcovers.reservations (.inr (.inr (.inr hc)))
    · exact hk
  obtain ⟨guard, hguard, rfl⟩ := hkind
  simpa using ⟨guard, hguard, rfl⟩

/-! ### Sealed guards -/

/-- No guard twice, none contradicting another, and no more than the limit. -/
structure Sealed (limit : ℕ) (guards : List RequiredGuard) : Prop where
  distinct : guards.Nodup
  compatible : guards.Pairwise fun a b => compatible a b = true
  bounded : guards.length ≤ limit

theorem consistent_iff {before guards : List RequiredGuard} : consistent before guards = true ↔
      (∀ a ∈ before, ∀ b ∈ guards, compatible a b = true) ∧
        guards.Pairwise fun a b => compatible a b = true := by
  induction guards generalizing before with
  | nil => simp [consistent]
  | cons guard rest ih =>
    rw [consistent, Bool.and_eq_true, ih, List.all_eq_true, List.pairwise_cons]
    constructor
    · rintro ⟨hguard, hrest, hpairs⟩
      refine ⟨fun a ha b hb => ?_, fun b hb => hrest guard (by simp) b hb, hpairs⟩
      obtain rfl | hb := List.mem_cons.1 hb
      · exact hguard a ha
      · exact hrest a (List.mem_append_left _ ha) b hb
    · rintro ⟨hbefore, hguard, hpairs⟩
      refine ⟨fun a ha => hbefore a ha guard List.mem_cons_self, fun a ha b hb => ?_, hpairs⟩
      obtain ha | ha := List.mem_append.1 ha
      · exact hbefore a ha b (List.mem_cons_of_mem _ hb)
      · rw [List.mem_singleton] at ha
        exact ha ▸ hguard b hb

theorem Sealed.push {limit : UInt32} {gs out : List RequiredGuard} {guard : RequiredGuard}
    (h : Sealed limit.toNat gs) (hpush : pushGuard limit gs guard = .ok out) :
    Sealed limit.toNat out := by
  rw [pushGuard] at hpush
  split_ifs at hpush with hmem hany hfull
  · rw [← Except.ok.inj hpush]
    exact h
  · obtain rfl := Except.ok.inj hpush
    refine ⟨?_, ?_, ?_⟩
    · rw [← List.concat_eq_append, List.nodup_concat]
      exact ⟨hmem, h.distinct⟩
    · rw [List.pairwise_append]
      refine ⟨h.compatible, List.pairwise_singleton _ _, fun a ha b hb => ?_⟩
      rw [List.mem_singleton.1 hb]
      by_contra hfalse
      exact hany (List.any_eq_true.2 ⟨a, ha, by simp [hfalse]⟩)
    · rw [List.length_append, List.length_singleton]
      omega

/-- **What a decision carries**: a sealed guard set under which it passes its own audit. -/
structure SelfGuarded (limit : ℕ) (guarded : Guarded WriteDecision) : Prop extends
    Sealed limit guarded.required where
  complete : checkGuardCompleteness guarded guarded.required = .ok ()

theorem SelfGuarded.of_covers {limit : ℕ} {guarded : Guarded WriteDecision}
    (h : Sealed limit guarded.required) (hcovers : Covers guarded.required guarded.decision) :
    SelfGuarded limit guarded :=
  ⟨h, checkGuardCompleteness_self (consistent_iff.2 ⟨by simp, h.compatible⟩) hcovers⟩

theorem pushGuards_eq_ok {limit : UInt32} {gs out added : List RequiredGuard}
    (h : pushGuards limit gs added = .ok out) :
    gs ⊆ out ∧ (Sealed limit.toNat gs → Sealed limit.toNat out) := by
  induction added generalizing gs with
  | nil =>
    obtain rfl := Except.ok.inj h
    exact ⟨List.Subset.refl _, id⟩
  | cons guard rest ih =>
    rw [pushGuards, List.foldlM_cons, Wire.bind_eq_ok] at h
    obtain ⟨mid, hpush, hrest⟩ := h
    obtain ⟨hsub, hsealed⟩ := ih hrest
    exact ⟨List.Subset.trans (subset_of_pushGuard gs guard mid hpush) hsub,
      fun hgs => hsealed (hgs.push hpush)⟩

/-- The guard limit of a decision with an attachment: an empty one checks nothing. -/
def attachedLimit (limit : ℕ) (bases : List AcceptanceBasis) (packs : List PackSource)
    (limits : RefDecisionLimits) : ℕ :=
  if bases = [] ∧ packs = [] then limit else limits.guards.toNat

/-- An attachment keeps a decision self-guarded, within its own limit. -/
theorem SelfGuarded.attach {limit : ℕ} {sizes : MemorySizes} {guarded out : Guarded WriteDecision}
    {bases : List AcceptanceBasis} {packs : List PackSource} {limits : RefDecisionLimits}
    (hsealed : Sealed limit guarded.required) (hcovers : Covers guarded.required guarded.decision)
    (h : withAcceptanceBasis sizes guarded bases packs limits = .ok out) :
    SelfGuarded (attachedLimit limit bases packs limits) out := by
  rw [withAcceptanceBasis] at h
  rw [attachedLimit]
  by_cases hempty : bases = [] ∧ packs = []
  · rw [if_pos hempty] at h ⊢
    obtain rfl := Except.ok.inj h
    exact .of_covers hsealed hcovers
  · rw [if_neg hempty] at h ⊢
    obtain ⟨hallowed, h⟩ := refuseIf_bind_eq_ok.1 h
    obtain ⟨-, h⟩ := refuseIf_bind_eq_ok.1 h
    obtain ⟨required, hpush, h⟩ := Wire.bind_eq_ok.1 h
    obtain rfl := Except.ok.inj h
    obtain ⟨hsub, hkeep⟩ := pushGuards_eq_ok hpush
    have hbounded : guarded.required.length ≤ limits.guards.toNat := by
      by_contra hlong
      exact hallowed (by simp [attachmentRefused, not_le.1 hlong])
    exact .of_covers (hkeep ⟨hsealed.distinct, hsealed.compatible, hbounded⟩) (hcovers.mono hsub)

end Mkit.Decision
