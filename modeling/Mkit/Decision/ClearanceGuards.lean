import Mathlib.Data.List.Nodup
import Mkit.Decision.Clearance

/-!
# Clearance Guards Are Sufficient

A clearance decision is applied later than it is made, if its guards still hold against the
facts acquired then. This module shows that nothing the decision reads escapes the guards:
when they hold, a decision on the new facts is the same decision
(`clearance_guards_sufficient`).

The argument reads the new facts back from the guards. Every row carries a commitment whose
input stream determines the value it commits to (`ClearanceAdvance.stream_inj` and its
siblings), so rows that agree have equal values; the objects without a witness leave absence
rows; and what is then left open — witnesses of packs the decision never consults — does not
reach the decision.
-/

namespace Mkit.Decision

open Commit

/-! ### Commitments determine their values -/

@[simp] theorem stateTag_inj {a b : ClearanceState} : stateTag a = stateTag b ↔ a = b := by
  cases a <;> cases b <;> decide

@[simp] theorem momentTag_inj {a b : ClearanceMoment} : momentTag a = momentTag b ↔ a = b := by
  cases a <;> cases b <;> decide

theorem ClearanceAdvance.stream_commit (a : ClearanceAdvance) :
    a.commit.stream = (Commit.new ADVANCE_DOMAIN).stream ++ (u64Bytes a.sequence ++
      (u64Bytes a.generation ++ (a.operation.bytes ++ (optHashBytes a.head ++
      (optHashBytes a.packmap ++ ([stateTag a.state] ++
      (countedBytes ByteArr.bytes a.additions ++ (countedBytes ByteArr.bytes a.dependencies ++
      (countedBytes ByteArr.bytes a.externalSuppliers ++
      (countedBytes (fun state => [stateTag state]) a.obligations ++
      (countedBytes ByteArr.bytes a.obligationRevisions ++
      ([if a.takedownComplete then 1 else 0] ++ ([if a.flagged then 1 else 0] ++
      a.revision.bytes))))))))))))) := by
  simp only [ClearanceAdvance.commit, stream_revision, stream_bool,
    stream_foldl stream_revision, stream_foldl (fun c s => stream_u8 c (stateTag s)), stream_u64,
    stream_hashes, stream_u8, stream_optHash, stream_hash, List.append_assoc, countedBytes]

/-- The item lists of a bounded advance can be counted in a `u64`. -/
theorem lengths_of_boundAdvance {a : ClearanceAdvance} {limits : ClearanceLimits}
    (h : boundAdvance a limits = .ok ()) :
    a.additions.length < 2 ^ 64 ∧ a.dependencies.length < 2 ^ 64 ∧
      a.externalSuppliers.length < 2 ^ 64 ∧ a.obligations.length < 2 ^ 64 ∧
      a.obligationRevisions.length < 2 ^ 64 := by
  simp only [boundAdvance, refuseIf_bind_eq_ok, refuseIf_eq_ok, not_or, not_lt, not_not] at h
  have hmax := limits.maxItems.toNat_lt
  omega

/-- **Advances with one input stream are equal**, when their item lists are bounded. -/
theorem ClearanceAdvance.stream_inj {a b : ClearanceAdvance} {limits limits' : ClearanceLimits}
    (ha : boundAdvance a limits = .ok ()) (hb : boundAdvance b limits' = .ok ())
    (h : a.commit.stream = b.commit.stream) : a = b := by
  obtain ⟨ha₁, ha₂, ha₃, ha₄, ha₅⟩ := lengths_of_boundAdvance ha
  obtain ⟨hb₁, hb₂, hb₃, hb₄, hb₅⟩ := lengths_of_boundAdvance hb
  have hstate : ∀ {s t : ClearanceState} {x y : Bytes},
      [stateTag s] ++ x = [stateTag t] ++ y → s = t ∧ x = y := by
    intro s t x y hst
    simpa using hst
  rw [a.stream_commit, b.stream_commit, List.append_cancel_left_eq, u64Bytes_append,
    u64Bytes_append, bytes_append, optHashBytes_append, optHashBytes_append] at h
  obtain ⟨hseq, hgen, hop, hhead, hpackmap, h⟩ := h
  obtain ⟨hst, h⟩ := hstate h
  obtain ⟨hadd, h⟩ := countedBytes_append (fun h => bytes_append.1 h) ha₁ hb₁ h
  obtain ⟨hdep, h⟩ := countedBytes_append (fun h => bytes_append.1 h) ha₂ hb₂ h
  obtain ⟨hsup, h⟩ := countedBytes_append (fun h => bytes_append.1 h) ha₃ hb₃ h
  obtain ⟨hobl, h⟩ := countedBytes_append hstate ha₄ hb₄ h
  obtain ⟨hrev, h⟩ := countedBytes_append (fun h => bytes_append.1 h) ha₅ hb₅ h
  simp only [List.cons_append, List.nil_append, List.cons.injEq, boolByte_inj,
    ← ByteArr.ext_iff] at h
  obtain ⟨htakedown, hflagged, hrevision⟩ := h
  cases a
  cases b
  simp_all

theorem PriorPublication.stream_inj {p q : PriorPublication} (hrevision : p.revision = q.revision)
    (h : p.commit.stream = q.commit.stream) : p = q := by
  simp only [PriorPublication.commit, stream_optHash, stream_u64, List.append_assoc,
    List.append_cancel_left_eq, u64Bytes_append, optHashBytes_append, optHashBytes_inj] at h
  cases p
  cases q
  simp_all

theorem DependencyWitness.stream_inj {w v : DependencyWitness} (hrevision : w.revision = v.revision)
    (h : w.commit.stream = v.commit.stream) : w = v := by
  simp only [DependencyWitness.commit, stream_u64, stream_bool, stream_hash, List.append_assoc,
    List.append_cancel_left_eq, bytes_append, List.cons_append, List.nil_append,
    List.cons.injEq, boolByte_inj, u64Bytes_inj] at h
  cases w
  cases v
  simp_all

variable {B : Blake3} {F F' : ClearanceFacts}

/-- The row of the changed advance determines what it commits to. -/
theorem ClearanceFacts.changedCommit_inj
    (h : (F.changedCommit B).stream = (F'.changedCommit B).stream) :
    F.changed.commitment B = F'.changed.commitment B ∧ F.moment = F'.moment ∧
      F.previousState = F'.previousState ∧ F.deleted = F'.deleted := by
  simpa only [ClearanceFacts.changedCommit, stream_bool, stream_u8, stream_hash,
    List.append_assoc, List.append_cancel_left_eq, bytes_append, List.cons_append,
    List.nil_append, List.cons.injEq, momentTag_inj, stateTag_inj, boolByte_inj,
    and_true] using h

/-- The profile row determines the profile up to the observation, which has a guard of its
own. -/
theorem ClearanceFacts.lifecycleCommit_inj
    (h : F.lifecycleCommit.stream = F'.lifecycleCommit.stream) :
    F.lifecycle = .notOffered ∧ F'.lifecycle = .notOffered ∨
      ∃ incarnation current current', F.lifecycle = .managed incarnation current ∧
        F'.lifecycle = .managed incarnation current' ∧ current.isSome = current'.isSome := by
  cases hF : F.lifecycle with
  | notOffered =>
    cases hF' : F'.lifecycle with
    | notOffered => exact .inl ⟨rfl, rfl⟩
    | managed incarnation' current' =>
      simp [ClearanceFacts.lifecycleCommit, hF, hF'] at h
  | managed incarnation current =>
    cases hF' : F'.lifecycle with
    | notOffered => simp [ClearanceFacts.lifecycleCommit, hF, hF'] at h
    | managed incarnation' current' =>
      simp only [ClearanceFacts.lifecycleCommit, hF, hF', stream_bool, stream_revision,
        stream_u8, List.append_assoc, List.append_cancel_left_eq, List.cons_append,
        List.nil_append, List.cons.injEq, true_and, bytes_append, boolByte_inj,
        and_true] at h
      obtain ⟨rfl, hsome⟩ := h
      exact .inr ⟨incarnation, current, current', rfl, rfl, hsome⟩

/-! ### The rows of a set of facts -/

variable {g : RequiredGuard}

theorem mem_absenceRows {repository : RepositoryId} {witnessed guarded l : List Hash} :
    g ∈ ClearanceFacts.absenceRows repository witnessed guarded l ↔
      ∃ object ∈ l, object ∉ witnessed ∧ object ∉ guarded ∧
        g = .row repository (.clearanceWitness object) (.absent ClearanceFacts.NO_WITNESS) := by
  induction l generalizing guarded with
  | nil => simp [ClearanceFacts.absenceRows]
  | cons object l ih =>
    rw [ClearanceFacts.absenceRows]
    split_ifs with hnew
    · simp only [Bool.and_eq_true, Bool.not_eq_true', List.contains_eq_mem,
        decide_eq_false_iff_not] at hnew
      rw [List.mem_cons, ih]
      constructor
      · rintro (rfl | ⟨o, ho, hw, hg, rfl⟩)
        · exact ⟨object, List.mem_cons_self, hnew.1, hnew.2, rfl⟩
        · exact ⟨o, List.mem_cons_of_mem object ho, hw,
            fun h => hg (List.mem_cons_of_mem object h), rfl⟩
      · rintro ⟨o, ho, hw, hg, rfl⟩
        by_cases hobject : o = object
        · exact .inl (by rw [hobject])
        · refine .inr ⟨o, (List.mem_cons.1 ho).resolve_left hobject, hw, ?_, rfl⟩
          simp [hobject, hg]
    · rw [ih]
      simp only [Bool.and_eq_true, Bool.not_eq_true', List.contains_eq_mem,
        decide_eq_false_iff_not, not_and, not_not] at hnew
      constructor
      · rintro ⟨o, ho, hrest⟩
        exact ⟨o, List.mem_cons_of_mem object ho, hrest⟩
      · rintro ⟨o, ho, hw, hg, rfl⟩
        rcases List.mem_cons.1 ho with rfl | ho
        · exact absurd (hnew hw) hg
        · exact ⟨o, ho, hw, hg, rfl⟩

/-- The guards of a set of facts, row by row. -/
theorem mem_guards : g ∈ F.guards B ↔
      g = .row F.repository .clearancePrior
        (.present (F.prior.commitment B) F.prior.revision) ∨
      g = .row F.repository (.clearanceChanged F.changed.sequence)
        (.present ((F.changedCommit B).finish B) F.changed.revision) ∨
      (∃ a ∈ F.suffix, .row F.repository (.clearanceSuffix a.sequence)
        (.present (a.commitment B) a.revision) = g) ∨
      (∃ object ∈ F.needed, object ∉ F.witnesses.map (·.object) ∧
        g = .row F.repository (.clearanceWitness object) (.absent ClearanceFacts.NO_WITNESS)) ∨
      (∃ w ∈ F.witnesses, .row F.repository (.clearanceWitness w.object)
        (.present (w.commitment B) w.revision) = g) ∨
      g ∈ F.lifecycleGuards ∨
      g = .row F.repository .clearanceLifecycleProfile
        (.present (F.lifecycleCommit.finish B) ClearanceFacts.NO_WITNESS) := by
  simp only [ClearanceFacts.guards, List.mem_append, List.mem_cons, List.not_mem_nil, or_false,
    List.mem_map, mem_absenceRows, or_assoc, not_false_eq_true, true_and]

/-- A guard of the lifecycle observation. -/
theorem mem_lifecycleGuards : g ∈ F.lifecycleGuards ↔ ∃ incarnation expected,
      F.lifecycle = .managed incarnation (some expected) ∧
        g = .repository F.repository expected := by
  rw [ClearanceFacts.lifecycleGuards]
  split
  case h_1 incarnation expected hF => simp [hF]
  case h_2 hF =>
    simp only [List.not_mem_nil, false_iff, not_exists, not_and]
    intro incarnation expected hmanaged
    exact absurd hmanaged (hF incarnation expected)

section Live

variable {B : Blake3} {F : ClearanceFacts} {r : RepositoryId}

variable {e : Observed Hash}

theorem row_clearancePrior : .row r .clearancePrior e ∈ F.guards B ↔ r = F.repository ∧
      e = .present (F.prior.commitment B) F.prior.revision := by
  rw [mem_guards, mem_lifecycleGuards]
  simp

theorem row_clearanceChanged {n : UInt64} :
    .row r (.clearanceChanged n) e ∈ F.guards B ↔ r = F.repository ∧ n = F.changed.sequence ∧
      e = .present ((F.changedCommit B).finish B) F.changed.revision := by
  rw [mem_guards, mem_lifecycleGuards]
  simp

theorem row_clearanceSuffix {n : UInt64} :
    .row r (.clearanceSuffix n) e ∈ F.guards B ↔ ∃ a ∈ F.suffix, F.repository = r ∧
      a.sequence = n ∧ .present (a.commitment B) a.revision = e := by
  rw [mem_guards, mem_lifecycleGuards]
  simp

theorem row_clearanceWitness {object value : Hash} {revision : Revision} :
    .row r (.clearanceWitness object) (.present value revision) ∈ F.guards B ↔
      ∃ w ∈ F.witnesses, F.repository = r ∧ w.object = object ∧ w.commitment B = value ∧
        w.revision = revision := by
  rw [mem_guards, mem_lifecycleGuards]
  simp

theorem row_noWitness {object : Hash} {revision : Revision}
    (h : .row r (.clearanceWitness object) (.absent revision) ∈ F.guards B) :
    ∀ w ∈ F.witnesses, w.object ≠ object := by
  rw [mem_guards, mem_lifecycleGuards] at h
  simp only [RequiredGuard.row.injEq, GuardRow.clearanceWitness.injEq, reduceCtorEq, and_false,
    false_or, or_false, exists_false, List.mem_map, not_exists, not_and] at h
  obtain ⟨o, -, hunwitnessed, -, rfl, -⟩ := h
  exact hunwitnessed

theorem row_clearanceLifecycleProfile :
    .row r .clearanceLifecycleProfile e ∈ F.guards B ↔ r = F.repository ∧
      e = .present (F.lifecycleCommit.finish B) ClearanceFacts.NO_WITNESS := by
  rw [mem_guards, mem_lifecycleGuards]
  simp

theorem repository_guard {expected : Observed LifecycleFact} :
    .repository r expected ∈ F.guards B ↔ ∃ incarnation,
      F.lifecycle = .managed incarnation (some expected) ∧ r = F.repository := by
  rw [mem_guards, mem_lifecycleGuards]
  simp

end Live

/-! ### Agreement -/

/-- The input streams of the commitments in a set of guards. -/
def ClearanceFacts.streams (B : Blake3) (F : ClearanceFacts) : List Bytes :=
  [F.prior.commit.stream, F.changed.commit.stream, (F.changedCommit B).stream,
    F.lifecycleCommit.stream] ++
  F.suffix.map (·.commit.stream) ++ F.witnesses.map (·.commit.stream)

/-- Facts that agree on everything a decision reads: only witnesses of packs it does not
consult may have been added. -/
structure Agrees (F F' : ClearanceFacts) : Prop where
  prior : F.prior = F'.prior
  changed : F.changed = F'.changed
  moment : F.moment = F'.moment
  previousState : F.previousState = F'.previousState
  deleted : F.deleted = F'.deleted
  suffix : F.suffix = F'.suffix
  lifecycle : F.lifecycle = F'.lifecycle
  kept : ∀ w ∈ F.witnesses, w ∈ F'.witnesses
  absent : ∀ object ∈ F.needed, (∀ w ∈ F.witnesses, w.object ≠ object) →
    ∀ w ∈ F'.witnesses, w.object ≠ object

section Agreement

variable {B : Blake3} {F F' : ClearanceFacts} {limits limits' : ClearanceLimits}

/-- Equal commitments of streams the facts hash are commitments of one stream. -/
theorem stream_eq_of_finish {c c' : Commit} {S : List Bytes}
    (hfree : CollisionFreeOn B {x | x ∈ S}) (hc : c.stream ∈ S) (hc' : c'.stream ∈ S)
    (h : c.finish B = c'.finish B) : c.stream = c'.stream := by
  rw [finish_eq, finish_eq] at h
  exact hfree hc hc' h

theorem stream_mem_of_suffix {a : ClearanceAdvance} (ha : a ∈ F.suffix) :
    a.commit.stream ∈ F.streams B :=
  List.mem_append_left _ (List.mem_append_right _ (List.mem_map_of_mem ha))

theorem stream_mem_of_witness {w : DependencyWitness} (hw : w ∈ F.witnesses) :
    w.commit.stream ∈ F.streams B :=
  List.mem_append_right _ (List.mem_map_of_mem hw)

/-- Consecutive advances that contain consecutive advances of the same range are those. -/
theorem suffix_eq {l l' : List ClearanceAdvance} {p m : ℕ}
    (hl : sequences l = List.range' p m) (hl' : sequences l' = List.range' p m)
    (h : ∀ a ∈ l, a ∈ l') : l = l' := by
  have hlen : l.length = l'.length := by
    have := congrArg List.length (hl.trans hl'.symm)
    simpa [sequences] using this
  refine List.ext_getElem hlen fun i hi hi' => ?_
  obtain ⟨j, hj, hji⟩ := List.mem_iff_getElem.1 (h l[i] (List.getElem_mem hi))
  have hseq : ∀ {l : List ClearanceAdvance} {k : ℕ} (hk : k < l.length),
      sequences l = List.range' p m → l[k].sequence.toNat = p + k := by
    intro l k hk h
    have hget := congrArg (fun t => t[k]?) h
    simp only [sequences, List.getElem?_map, List.getElem?_eq_getElem hk, Option.map_some] at hget
    obtain ⟨hkm, hval⟩ := List.getElem?_eq_some_iff.1 hget.symm
    rw [List.getElem_range', Nat.one_mul] at hval
    exact hval.symm
  have hij : i = j := by
    have h₁ := hseq hi hl
    have h₂ := hseq hj hl'
    rw [hji] at h₂
    omega
  subst hij
  exact hji.symm

/-- **Guards that hold determine the facts**, as far as a decision reads them. -/
theorem agrees_of_guards (hrepo : F.repository = F'.repository)
    (hfree : CollisionFreeOn B {x | x ∈ F.streams B ++ F'.streams B})
    (hF : Validated F limits) (hF' : Validated F' limits')
    (hlive : ∀ g ∈ F.guards B, (∀ t, g ≠ .validThrough t) → g ∈ F'.guards B) : Agrees F F' := by
  have hstream : ∀ {c c' : Commit}, c.stream ∈ F.streams B → c'.stream ∈ F'.streams B →
      c.finish B = c'.finish B → c.stream = c'.stream := fun hc hc' h =>
    stream_eq_of_finish hfree (List.mem_append_left _ hc) (List.mem_append_right _ hc') h
  have hrow : ∀ {row : GuardRow} {e : Observed Hash},
      .row F.repository row e ∈ F.guards B → .row F'.repository row e ∈ F'.guards B := by
    intro row e h
    rw [← hrepo]
    exact hlive _ h (by simp)
  -- The prior publication.
  have hprior : F.prior = F'.prior := by
    have h := (row_clearancePrior.1 (hrow (row_clearancePrior.2 ⟨rfl, rfl⟩))).2
    rw [Observed.present.injEq] at h
    exact PriorPublication.stream_inj h.2
      (hstream (by simp [ClearanceFacts.streams]) (by simp [ClearanceFacts.streams]) h.1)
  -- The advance under decision, and the moment.
  have hrowChanged := (row_clearanceChanged.1 (hrow (row_clearanceChanged.2 ⟨rfl, rfl, rfl⟩))).2.2
  rw [Observed.present.injEq] at hrowChanged
  obtain ⟨hcommitment, hmoment, hprevious, hdeleted⟩ := ClearanceFacts.changedCommit_inj
    (hstream (by simp [ClearanceFacts.streams]) (by simp [ClearanceFacts.streams]) hrowChanged.1)
  have hchanged : F.changed = F'.changed := ClearanceAdvance.stream_inj hF.changed hF'.changed
    (hstream (by simp [ClearanceFacts.streams]) (by simp [ClearanceFacts.streams]) hcommitment)
  refine ⟨hprior, hchanged, hmoment, hprevious, hdeleted, ?_, ?_, fun w hw => ?_,
    fun object hobject habsent => ?_⟩
  · cases hm : F.moment with
    | acceptance => rw [hF.no_suffix hm, hF'.no_suffix (hmoment ▸ hm)]
    | recheck =>
      have hs := hF.suffix hm
      have hs' := hF'.suffix (hmoment ▸ hm)
      refine suffix_eq hs.sequences_eq (hprior ▸ hs'.sequences_eq) fun a ha => ?_
      obtain ⟨a', ha', -, -, h⟩ :=
        row_clearanceSuffix.1 (hrow (row_clearanceSuffix.2 ⟨a, ha, rfl, rfl, rfl⟩))
      rw [Observed.present.injEq] at h
      have heq : a = a' := ClearanceAdvance.stream_inj (hs.bounded a ha) (hs'.bounded a' ha')
        (hstream (stream_mem_of_suffix ha) (stream_mem_of_suffix ha') h.1.symm)
      exact heq ▸ ha'
  · have h := (row_clearanceLifecycleProfile.1
      (hrow (row_clearanceLifecycleProfile.2 ⟨rfl, rfl⟩))).2
    rw [Observed.present.injEq] at h
    rcases ClearanceFacts.lifecycleCommit_inj (hstream (by simp [ClearanceFacts.streams])
      (by simp [ClearanceFacts.streams]) h.1) with ⟨h₁, h₂⟩ | ⟨inc, current, current', h₁, h₂, hsome⟩
    · rw [h₁, h₂]
    · cases current with
      | none =>
        cases current' with
        | none => rw [h₁, h₂]
        | some expected' => simp at hsome
      | some expected =>
        obtain ⟨inc', hF'', -⟩ := repository_guard.1
          (hlive _ (repository_guard.2 ⟨inc, h₁, rfl⟩) (by simp))
        rw [h₂, ClearanceLifecycle.managed.injEq] at hF''
        rw [h₁, h₂, hF''.2]
  · obtain ⟨w', hw', -, -, hcommit, hrevision⟩ :=
      row_clearanceWitness.1 (hrow (row_clearanceWitness.2 ⟨w, hw, rfl, rfl, rfl, rfl⟩))
    have heq : w = w' := DependencyWitness.stream_inj hrevision.symm
      (hstream (stream_mem_of_witness hw) (stream_mem_of_witness hw') hcommit.symm)
    exact heq ▸ hw'
  · refine row_noWitness (hrow (mem_guards.2 (.inr (.inr (.inr (.inl ⟨object, hobject, ?_, rfl⟩))))))
    simpa using habsent

/-- A pack the decision consults has one standing in facts that agree. -/
theorem Agrees.witnessPublished_eq (h : Agrees F F')
    (hnodup : (F'.witnesses.map (·.object)).Nodup) {id : Hash} (hid : id ∈ F.needed)
    (generation : UInt64) :
    witnessPublished F.witnesses id generation = witnessPublished F'.witnesses id generation := by
  rw [Bool.eq_iff_iff, witnessPublished, witnessPublished, List.any_eq_true, List.any_eq_true]
  constructor
  · rintro ⟨w, hw, hstanding⟩
    exact ⟨w, h.kept w hw, hstanding⟩
  · rintro ⟨w', hw', hstanding⟩
    have hobject : w'.object = id := by
      simp only [Bool.and_eq_true, decide_eq_true_eq] at hstanding
      exact hstanding.1.1.1.1
    by_cases hwitnessed : ∃ w ∈ F.witnesses, w.object = id
    · obtain ⟨w, hw, hwid⟩ := hwitnessed
      obtain rfl : w = w' := List.inj_on_of_nodup_map hnodup (h.kept w hw) hw'
        (hwid.trans hobject.symm)
      exact ⟨w, hw, hstanding⟩
    · push Not at hwitnessed
      exact absurd hobject (h.absent id hid hwitnessed w' hw')

theorem Agrees.ready_eq (h : Agrees F F') (hnodup : (F'.witnesses.map (·.object)).Nodup) :
    ready F = ready F' := by
  have hdependencies : dependenciesVisible F.changed F.witnesses =
      dependenciesVisible F.changed F'.witnesses := by
    rw [dependenciesVisible, dependenciesVisible, Bool.eq_iff_iff, List.all_eq_true,
      List.all_eq_true]
    refine forall₂_congr fun id hid => ?_
    cases hown : F.changed.additions.contains id with
    | true => simp
    | false =>
      rw [h.witnessPublished_eq hnodup (List.mem_append_left _ (List.mem_filter.2 ⟨hid, ?_⟩))]
      rw [hown, Bool.not_false]
  have hsuppliers : suppliersVisible F.changed F.witnesses =
      suppliersVisible F.changed F'.witnesses := by
    rw [suppliersVisible, suppliersVisible, Bool.eq_iff_iff, List.all_eq_true, List.all_eq_true]
    refine forall₂_congr fun id hid => ?_
    rw [h.witnessPublished_eq hnodup (List.mem_append_right _ hid)]
  rw [ready, ready, eligible, eligible, hdependencies, hsuppliers, h.changed, h.lifecycle,
    h.moment]

/-- Facts that agree get the same decision. -/
theorem Agrees.clearance_eq (h : Agrees F F') (hnodup : (F'.witnesses.map (·.object)).Nodup)
    {d d' : ClearanceDecision} (hd : clearance F limits = .ok d)
    (hd' : clearance F' limits' = .ok d') : d = d' := by
  have hready := h.ready_eq hnodup
  have hdeletion : deletion F = deletion F' := by
    rw [deletion, deletion, h.prior, h.changed]
  have hacceptance : acceptance F = acceptance F' := by
    rw [acceptance, acceptance, hready, retain, retain, h.prior, h.changed]
  have hstep : prefixStep F = prefixStep F' := by
    funext record
    rw [prefixStep, prefixStep, recordPublishable, recordPublishable, hready, h.changed]
  have hrecheck : recheck F = recheck F' := by
    rw [recheck, recheck, hready, hstep, retain, retain, h.prior, h.changed, h.suffix,
      h.previousState]
  simp only [clearance, Wire.bind_eq_ok] at hd hd'
  obtain ⟨⟨⟩, -, hd⟩ := hd
  obtain ⟨⟨⟩, -, hd'⟩ := hd'
  rw [hdeletion, hacceptance, hrecheck, h.deleted, h.moment, hd'] at hd
  exact (Except.ok.inj hd).symm

end Agreement

/-- **Clearance guards are sufficient.** If a decision was made on `F`, its guards hold against
the guards of `F'`, and a decision can be made on `F'`, then the decisions are equal. Moreover
nothing the decision reads has moved: the advance with its obligations, the suffix and the
lifecycle are unchanged, every witness is still supplied as it was, and no consulted pack has
a witness it did not have. -/
theorem clearance_guards_sufficient {B : Blake3} {F F' : ClearanceFacts}
    {limits limits' : ClearanceLimits} {nowMs : UInt64} {g g' : Guarded ClearanceDecision}
    (hrepo : F.repository = F'.repository)
    (hfree : CollisionFreeOn B {x | x ∈ F.streams B ++ F'.streams B})
    (h : decideClearance B F limits = .ok g) (hhold : guardsHold g (F'.guards B) nowMs = true)
    (h' : decideClearance B F' limits' = .ok g') :
    g.decision = g'.decision ∧ F.changed = F'.changed ∧ F.suffix = F'.suffix ∧
      F.lifecycle = F'.lifecycle ∧ (∀ w ∈ F.witnesses, w ∈ F'.witnesses) ∧
      ∀ w ∈ F'.witnesses, w.object ∈ F.needed → w ∈ F.witnesses := by
  simp only [decideClearance, Wire.bind_eq_ok] at h h'
  obtain ⟨d, hd, hg⟩ := h
  obtain ⟨d', hd', hg'⟩ := h'
  obtain rfl := Except.ok.inj hg
  obtain rfl := Except.ok.inj hg'
  have hvalid : Validated F limits := by
    simp only [clearance, Wire.bind_eq_ok] at hd
    obtain ⟨⟨⟩, hvalid, -⟩ := hd
    exact validate_eq_ok hvalid
  have hvalid' : Validated F' limits' := by
    simp only [clearance, Wire.bind_eq_ok] at hd'
    obtain ⟨⟨⟩, hvalid, -⟩ := hd'
    exact validate_eq_ok hvalid
  have hagrees := agrees_of_guards hrepo hfree hvalid hvalid'
    fun guard hguard hkind => mem_live_of_guardsHold hhold hguard hkind
  refine ⟨hagrees.clearance_eq hvalid'.witnesses hd hd', hagrees.changed, hagrees.suffix,
    hagrees.lifecycle, hagrees.kept, fun w' hw' hneeded => ?_⟩
  by_contra hnew
  by_cases hwitnessed : ∃ w ∈ F.witnesses, w.object = w'.object
  · obtain ⟨w, hw, hobject⟩ := hwitnessed
    obtain rfl : w = w' :=
      List.inj_on_of_nodup_map hvalid'.witnesses (hagrees.kept w hw) hw' hobject
    exact hnew hw
  · push Not at hwitnessed
    exact hagrees.absent w'.object hneeded hwitnessed w' hw' rfl

/-- The witness of a published pack. -/
def publishedWitness (pack : UInt8) : DependencyWitness :=
  ⟨ByteArr.fill HASH_LEN pack, true, true, false, 7, ZERO⟩

/-- The acceptance of a first advance that depends on pack 1, with the given witnesses. -/
def dependentFacts (witnesses : List DependencyWitness) : ClearanceFacts where
  repository := ZERO
  moment := .acceptance
  prior := ⟨7, 0, 0, 0, none, none, ZERO⟩
  changed :=
    { sequence := 1, generation := 7, operation := ZERO, head := some ZERO, packmap := none
      state := .cleared, additions := [], dependencies := [ByteArr.fill HASH_LEN 1]
      externalSuppliers := [], obligations := [.cleared], obligationRevisions := [ZERO]
      takedownComplete := false, flagged := false, revision := ZERO }
  previousState := .pending
  suffix := []
  witnesses := witnesses
  lifecycle := .notOffered
  deleted := false

/-- The witness of a pack the advance does not depend on appears between decision and apply:
the guards hold, and the decision stands. -/
theorem clearance_guards_sufficient_extra_witness :
    (dependentFacts [publishedWitness 1]).guards toyBlake3 ≠
        (dependentFacts [publishedWitness 1, publishedWitness 2]).guards toyBlake3 ∧
      ∃ g g', decideClearance toyBlake3 (dependentFacts [publishedWitness 1]) ⟨64, 16, 64⟩ =
          .ok g ∧
        decideClearance toyBlake3 (dependentFacts [publishedWitness 1, publishedWitness 2])
          ⟨64, 16, 64⟩ = .ok g' ∧ g.decision = g'.decision := by
  have hfree : CollisionFreeOn toyBlake3
      {x | x ∈ (dependentFacts [publishedWitness 1]).streams toyBlake3 ++
        (dependentFacts [publishedWitness 1, publishedWitness 2]).streams toyBlake3} := by
    decide +kernel
  have h : decideClearance toyBlake3 (dependentFacts [publishedWitness 1]) ⟨64, 16, 64⟩ =
      .ok ⟨ZERO, .advancePrefix 1 (some ZERO) none 0,
        (dependentFacts [publishedWitness 1]).guards toyBlake3⟩ := by
    decide +kernel
  have h' : decideClearance toyBlake3 (dependentFacts [publishedWitness 1, publishedWitness 2])
      ⟨64, 16, 64⟩ = .ok ⟨ZERO, .advancePrefix 1 (some ZERO) none 0,
        (dependentFacts [publishedWitness 1, publishedWitness 2]).guards toyBlake3⟩ := by
    decide +kernel
  have hhold : guardsHold ⟨ZERO, ClearanceDecision.advancePrefix 1 (some ZERO) none 0,
      (dependentFacts [publishedWitness 1]).guards toyBlake3⟩
      ((dependentFacts [publishedWitness 1, publishedWitness 2]).guards toyBlake3) 0 = true := by
    decide +kernel
  have hrepo : (dependentFacts [publishedWitness 1]).repository =
      (dependentFacts [publishedWitness 1, publishedWitness 2]).repository := rfl
  exact ⟨by decide +kernel, _, _, h, h', (clearance_guards_sufficient hrepo hfree h hhold h').1⟩

end Mkit.Decision
