import Mkit.Server.Json
import Mkit.Server.OutboxAcks

/-!
# The Accounts of the Outbox

A batch is planned by builders, acknowledgements and the caller's own writes (`Planned`), on
whatever snapshots. Its guards make committing it exact: the backlog row counts the terminal rows
that await delivery and their bytes, the index numbers each of them once, and a terminal row
stays as it is until it is acknowledged (`outbox_accounting_exact`).
-/

namespace Mkit.Server

open Effect

/-! ### Planned batches -/

/-- The guards and writes that builders, acknowledgements and a caller who leaves the outbox
alone plan, one after the other. -/
inductive Planned (S : Serde) : Plan → Prop
  | empty : Planned S ⟨[], []⟩
  | caller {plan : Plan} (h : Planned S plan) (pre : List Precondition) {writes : List Write}
      (hwrites : ∀ w ∈ writes, isOutboxKey w.key = false) :
      Planned S ⟨plan.pre ++ pre, plan.writes ++ writes⟩
  | tried {plan : Plan} (h : Planned S plan) {b : OutboxBuilder} (hb : Built S b) :
      Planned S (exec (b.tryFinish S) plan).2
  | finished {plan : Plan} (h : Planned S plan) {b : OutboxBuilder} (hb : Built S b) :
      Planned S (b.finish S plan)
  | acked {plan : Plan} (h : Planned S plan) (rid : Bytes) (value : Value) (oqSeq : UInt64)
      (oc : Option Value) : Planned S (exec (planAck S rid value oqSeq oc) plan).2

variable {S : Serde}

theorem atomic_tryFinish (b : OutboxBuilder) : Atomic (b.tryFinish S) :=
  Atomic.get_bind fun _ => Atomic.liftExcept_bind fun _ => atomic_set _

theorem atomic_planAck (rid : Bytes) (value : Value) (oqSeq : UInt64) (oc : Option Value) :
    Atomic (planAck S rid value oqSeq oc) := by
  rw [planAck]
  refine .check (.liftExcept_bind fun _ => .check (.liftExcept_bind fun _ => .liftExcept_bind fun _ =>
    .get_bind fun _ => .check (.liftExcept_bind fun _ => .check (.liftExcept_bind fun _ =>
      .liftExcept_bind fun _ => atomic_set _))))

variable {b : OutboxBuilder} {u : Unit}

/-- A builder that finishes appends the fragment of what it planned. -/
theorem fragment_of_tryFinish (hb : Built S b) {plan plan' : Plan}
    (h : Yields (b.tryFinish S) plan u plan') : ∃ b' items batch, Fragment S plan b' items batch ∧
      plan' = ⟨plan.pre ++ batch.preconditions, plan.writes ++ batch.writes⟩ := by
  rw [OutboxBuilder.tryFinish, yields_get_bind] at h
  obtain ⟨batch, hbatch, h⟩ := yields_liftExcept_bind.1 h
  obtain ⟨b', items, hf⟩ := assemble_spec hb hbatch
  exact ⟨b', items, batch, hf, (yields_set.1 h).symm⟩

variable {rows' : Rows}

/-- What a finished builder appends keeps the accounts, when what was planned before does. -/
theorem Effects.tryFinish {rows : Rows} {now : UInt64} {plan plan' : Plan}
     (hb : Built S b) (h : Yields (b.tryFinish S) plan u plan')
    (hplan : ∀ mid, (∀ p ∈ plan.pre, p.Holds rows now) → applyWrites rows plan.writes = .ok mid →
      Effects S rows plan.writes mid) (hguards : ∀ p ∈ plan'.pre, p.Holds rows now)
    (happly : applyWrites rows plan'.writes = .ok rows') : Effects S rows plan'.writes rows' := by
  obtain ⟨b', items, batch, hf, rfl⟩ := fragment_of_tryFinish hb h
  obtain ⟨mid, hmid, happly⟩ := applyWrites_append_eq_ok.1 happly
  rw [List.forall_mem_append] at hguards
  exact (hplan mid hguards.1 hmid).fragment hf hmid hguards.2 happly

/-- Committing what was planned keeps the accounts. -/
theorem Planned.effects {plan : Plan} (h : Planned S plan) {rows : Rows} {now : UInt64}
    (hrows : Accounted S rows) (hguards : ∀ p ∈ plan.pre, p.Holds rows now)
    (happly : applyWrites rows plan.writes = .ok rows') : Effects S rows plan.writes rows' := by
  induction h generalizing rows' with
  | empty =>
    obtain rfl := Except.ok.inj happly
    exact Effects.nil hrows
  | caller h pre hwrites ih =>
    obtain ⟨mid, hmid, happly⟩ := applyWrites_append_eq_ok.1 happly
    rw [List.forall_mem_append] at hguards
    exact (ih hguards.1 hmid).caller hwrites happly
  | @tried plan h b hb ih =>
    cases hexec : exec (b.tryFinish S) plan with
    | mk r plan' =>
      rw [hexec] at hguards happly
      cases r with
      | ok u => exact Effects.tryFinish hb hexec (fun mid => ih) hguards happly
      | error e =>
        obtain rfl := atomic_tryFinish b _ _ _ hexec
        exact ih hguards happly
  | @finished plan h b hb ih =>
    rw [OutboxBuilder.finish] at hguards happly ⊢
    cases hexec : exec (b.tryFinish S) plan with
    | mk r plan' =>
      rw [hexec] at hguards happly
      cases r with
      | ok u => exact Effects.tryFinish hb hexec (fun mid => ih) hguards happly
      | error e =>
        -- No state meets both guards.
        have habsent := hguards (.absent keys.outboxSequence) (by simp)
        have hpresent := hguards (.present keys.outboxSequence) (by simp)
        have hsome : (rows.get keys.outboxSequence).isSome = true := hpresent
        rw [show rows.get keys.outboxSequence = none from habsent] at hsome
        cases hsome
  | @acked plan h rid value oqSeq oc ih =>
    cases hexec : exec (planAck S rid value oqSeq oc) plan with
    | mk r plan' =>
      rw [hexec] at hguards happly
      cases r with
      | ok u =>
        obtain ⟨planned, left, last, ha⟩ := yields_planAck hexec
        exact Effects.ack (fun mid => ih fun p hp => hguards p (ha.pre p hp)) ha hguards
          happly
      | error e =>
        obtain rfl := atomic_planAck rid value oqSeq oc _ _ _ hexec
        exact ih hguards happly

/-! ### Runs -/

/-- A planned batch commits at a time on the backend's clock. -/
def Commit (S : Serde) (rows : Rows) (c : UInt64 × Batch) (rows' : Rows) : Prop :=
  Planned S ⟨c.2.preconditions, c.2.writes⟩ ∧ c.2.Commits c.1 rows rows'

/-- A plan commits as the batch of its guards and writes. -/
theorem Planned.commit {plan : Plan} (h : Planned S plan) {now : UInt64} {rows : Rows}
    (hcommits : (Batch.mk plan.pre plan.writes).Commits now rows rows') :
    Commit S rows (now, ⟨plan.pre, plan.writes⟩) rows' :=
  ⟨h, hcommits⟩

/-- What holds of a shard after the batches of a trace. -/
structure Kept (S : Serde) (tr : List (UInt64 × Batch)) (rows : Rows) : Prop where
  accounted : Accounted S rows
  bounded : ∀ v, rows.get keys.outcomeBacklog = some v → v.length ≤ MAX_VALUE_BYTES
  ascending : (tr.flatMap fun c => queuedSeqs c.2.writes).Pairwise fun s s' => s.toNat < s'.toNat
  below : ∀ s ∈ tr.flatMap fun c => queuedSeqs c.2.writes,
    s.toNat ≤ (sequenceOf (rows.get keys.outboxSequence)).toNat

theorem accounted_empty : Accounted S SortedMap.empty where
  queue := ⟨fun k v hv => (nomatch hv), ⟨fun n a hn => (nomatch hn), fun n a hn => (nomatch hn),
    fun a ⟨v, hv, _⟩ => (nomatch hv), fun n m a hn => (nomatch hn), fun n a b hn => (nomatch hn)⟩⟩
  counter := .inl ⟨rfl, rfl, rfl⟩

variable {c : UInt64 × Batch}

/-- A batch that commits had its effects. -/
theorem Commit.effects {rows : Rows} (h : Commit S rows c rows')
    (hrows : Accounted S rows) : Effects S rows c.2.writes rows' :=
  h.1.effects hrows h.2.spec.1 h.2.spec.2

variable {tr : List (UInt64 × Batch)}

theorem Kept.step {rows : Rows}
    (hk : Kept S tr rows) (h : Commit S rows c rows') : Kept S (tr ++ [c]) rows' := by
  have he := h.effects hk.accounted
  have htrace : (tr ++ [c]).flatMap (fun c => queuedSeqs c.2.writes) =
      (tr.flatMap fun c => queuedSeqs c.2.writes) ++ queuedSeqs c.2.writes := by
    rw [List.flatMap_append, List.flatMap_singleton]
  refine ⟨he.accounted, fun v hv => ?_, ?_, fun s hs => ?_⟩
  · rcases applyWrites_origin h.2.spec.2 hv with hold | hput | ⟨-, hlen⟩
    · exact hk.bounded v hold
    · exact Batch.length_le_of_validate h.2.valid hput
    · rw [hlen, MAX_VALUE_BYTES]
      omega
  · rw [htrace, List.pairwise_append]
    refine ⟨hk.ascending, he.ascending, fun s hs s' hs' => ?_⟩
    have hold := hk.below s hs
    have hnew := (he.fresh s' hs').1
    omega
  · rw [htrace] at hs
    have hmono := he.monotone
    rcases List.mem_append.1 hs with hs | hs
    · exact (hk.below s hs).trans hmono
    · exact (he.fresh s hs).2

theorem kept_of_run {rows : Rows}
    (h : Lts.Run (Commit S) SortedMap.empty tr rows) : Kept S tr rows :=
  h.invariant ⟨accounted_empty, nofun, List.Pairwise.nil, nofun⟩ fun _ _ _ _ hk hc => hk.step hc

/-! ### Exactness -/

theorem mem_outstanding {rows : Rows} {rid : Bytes} {value : Value} :
    (rowKey rid, value) ∈ outstanding S rows ↔
      rows.get (rowKey rid) = some value ∧ terminalValue S value = true := by
  rw [outstanding, List.mem_filter, awaiting_rowKey, SortedMap.get_eq_some]

/-- Every row of the outbox has bytes, so the counts vanish together. -/
theorem rowCount_eq_zero_iff (rows : Rows) : rowCount S rows = 0 ↔ byteCount S rows = 0 := by
  rw [rowCount_eq, byteCount_eq, List.length_eq_zero_iff]
  constructor
  · intro h
    rw [h]
    rfl
  · intro h
    cases hout : outstanding S rows with
    | nil => rfl
    | cons p rest =>
      have hp : p ∈ outstanding S rows := hout ▸ List.mem_cons_self
      obtain ⟨rid, hrid⟩ :=
        eq_rowKey_of_class (Bool.and_eq_true_iff.1 (List.mem_filter.1 hp).2).1
      rw [hout, List.map_cons, List.sum_cons, hrid, rowKey, keys.key, List.length_append,
        List.length_cons] at h
      omega

/-- An accounted backlog row decodes to the counts. -/
theorem Kept.counted {rows : Rows} (h : Kept S tr rows) :
    ∃ backlog, counterOf S (rows.get keys.outcomeBacklog) = .ok backlog ∧
      backlog.rows.toNat = rowCount S rows ∧ backlog.bytes.toNat = byteCount S rows := by
  rcases h.accounted.counter with ⟨hnone, hrows, hbytes⟩ | ⟨backlog, hsome, hrows, hbytes⟩
  · exact ⟨.zero, by rw [hnone]; rfl, by rw [hrows]; rfl, by rw [hbytes]; rfl⟩
  · refine ⟨backlog, ?_, hrows, hbytes⟩
    have hlen := h.bounded _ hsome
    have hzero : backlog.rows = 0 ↔ backlog.bytes = 0 := by
      rw [← UInt64.toNat_inj, ← UInt64.toNat_inj, hrows, hbytes]
      exact rowCount_eq_zero_iff rows
    have hsame : ((backlog.rows == 0) != (backlog.bytes == 0)) = false := by
      rw [bne_eq_false_iff_eq, Bool.eq_iff_iff, beq_iff_eq, beq_iff_eq, hzero]
    have hlimit : checkValueLimit (encodeBacklog S backlog) = .ok () := if_neg (by omega)
    rw [hsome, counterOf, decodeOr, decodeBacklog, hlimit, encodeBacklog, decodeJson_encodeJson]
    simp only [bind, Except.bind, hsame]
    rfl

/-- The accounts of the outbox are exact. -/
theorem outbox_accounting_exact (S : Serde) {tr : List (UInt64 × Batch)} {rows : Rows}
    (h : Lts.Run (Commit S) SortedMap.empty tr rows) :
    -- the backlog row counts the outstanding outcomes and their bytes
    (∃ backlog, counterOf S (rows.get keys.outcomeBacklog) = .ok backlog ∧
      backlog.rows.toNat = (outstanding S rows).length ∧
      backlog.bytes.toNat =
        ((outstanding S rows).map fun p => p.1.length + p.2.length).sum) ∧
    -- each of them has exactly one index row, and each index row belongs to one of them
    (∀ p ∈ outstanding S rows, ∃ rid, p.1 = rowKey rid ∧
      ∃! seq, rows.get (indexKey seq rid) = some []) ∧
    (∀ k v, rows.get k = some v → keys.ofClass keys.TAG_OUTCOME_PENDING k = true →
      ∃ seq rid value, k = indexKey seq rid ∧ v = [] ∧
        (rowKey rid, value) ∈ outstanding S rows) ∧
    -- no sequence is used twice, and later ones are larger
    (∀ seq rid rid', rows.get (indexKey seq rid) = some [] →
      rows.get (indexKey seq rid') = some [] → rid = rid') ∧
    (tr.flatMap fun c => queuedSeqs c.2.writes).Pairwise (fun s s' => s.toNat < s'.toNat) ∧
    -- a terminal row is never replaced
    (∀ c rows', Commit S rows c rows' → ∀ rid value, (rowKey rid, value) ∈ outstanding S rows →
      rows'.get (rowKey rid) = some value ∨ rows'.get (rowKey rid) = none) ∧
    -- a failure leaves the caller's guards and writes as they were
    (∀ (b : OutboxBuilder) (plan plan' : Plan) (e : StoreError),
      exec (b.tryFinish S) plan = (.error e, plan') → plan' = plan) ∧
    ∀ (rid : Bytes) (value : Value) (oqSeq : UInt64) (oc : Option Value) (plan plan' : Plan)
      (e : StoreError), exec (planAck S rid value oqSeq oc) plan = (.error e, plan') →
        plan' = plan := by
  have hk := kept_of_run h
  have hnumbered := hk.accounted.queue.numbered
  refine ⟨?_, fun p hp => ?_, fun k v hv hclass => ?_, hnumbered.item_unique, hk.ascending,
    fun c rows' hc rid value hout => ?_, fun b plan plan' e => atomic_tryFinish b plan plan' e,
    fun rid value oqSeq oc plan plan' e => atomic_planAck rid value oqSeq oc plan plan' e⟩
  · rw [← rowCount_eq, ← byteCount_eq]
    exact hk.counted
  · obtain ⟨rid, hrid⟩ := eq_rowKey_of_class (Bool.and_eq_true_iff.1 (List.mem_filter.1 hp).2).1
    have hrow : (rowKey rid, p.2) ∈ outstanding S rows := hrid ▸ hp
    obtain ⟨seq, hseq⟩ := hnumbered.exists_number rid ⟨p.2, mem_outstanding.1 hrow⟩
    exact ⟨rid, hrid, seq, hseq, fun seq' hseq' => hnumbered.number_unique seq' seq rid hseq' hseq⟩
  · obtain ⟨rfl, seq, rid, rfl⟩ := hk.accounted.queue.wellFormed k v hv hclass
    obtain ⟨value, hvalue⟩ := hnumbered.mem seq rid hv
    exact ⟨seq, rid, value, rfl, rfl, mem_outstanding.2 hvalue⟩
  · obtain ⟨hget, hterminal⟩ := mem_outstanding.1 hout
    exact (hc.effects hk.accounted).kept rid value hget hterminal

/-! ### A shard with one outcome -/

/-- A repository whose stored bytes changed. -/
def sampleChange : ReservationV1 :=
  .repoStorageChanged ⟨ascii ['r'], by decide⟩ 1 5 1

/-- The JSON of the change and of the backlog it leaves. -/
def sampleTables : JsonTables where
  reservations := [(sampleChange, jsonText ("\x7b\"state\":\"repo_storage_changed\"," ++
    "\"repository\":\"r\",\"occurred_at_ms\":1,\"stored_bytes\":5,\"version\":1\x7d"))]
  backlogs := [(⟨1, 101⟩, jsonText "\x7b\"rows\":1,\"bytes\":101\x7d")]
  relays := []
  relayScans := []

def sampleSerde : Serde :=
  sampleTables.serde (by decide +kernel)

def sampleTerminal : Terminal sampleSerde where
  record := sampleChange
  terminal := rfl
  decodes := ⟨sampleChange, by decide +kernel⟩

/-- The builder of an empty shard. -/
def emptyBuilder : OutboxBuilder where
  os := none
  oc := none
  seq := 0
  backlog := .zero
  sequenceTouched := false
  backlogTouched := false
  pre := []
  writes := []
  relays := .empty
  reservations := .empty
  error := none
  relayAtMs := none
  kickAtMs := none

/-- One builder that queues the change. -/
def sampleBuilder : OutboxBuilder :=
  emptyBuilder.storageChanged sampleSerde (ascii ['a']) sampleTerminal

theorem built_sampleBuilder : Built sampleSerde sampleBuilder :=
  (@Built.new sampleSerde none none emptyBuilder rfl).storageChanged _ _

def samplePlan : Plan :=
  (exec (sampleBuilder.tryFinish sampleSerde) ⟨[], []⟩).2

def sampleBatch : Batch :=
  ⟨samplePlan.pre, samplePlan.writes⟩

/-- What the batch leaves of an empty shard. -/
def sampleRows : Rows :=
  (applyWrites .empty sampleBatch.writes).toOption.getD .empty

theorem planned_sample : Planned sampleSerde samplePlan :=
  @Planned.tried sampleSerde ⟨[], []⟩ .empty sampleBuilder built_sampleBuilder

theorem validate_sample : sampleBatch.validate .full = .ok () := by
  decide +kernel

theorem firstFailure_sample : firstFailure .empty 7 0 sampleBatch.preconditions = none := by
  decide +kernel

theorem isOk_sample : (applyWrites .empty sampleBatch.writes).isOk = true := by
  decide +kernel

theorem commits_sample : sampleBatch.Commits 7 .empty sampleRows :=
  Batch.commits_of validate_sample firstFailure_sample (Wire.eq_ok_getD isOk_sample .empty)

theorem commit_sample : Commit sampleSerde .empty (7, sampleBatch) sampleRows :=
  planned_sample.commit commits_sample

/-- One outcome is outstanding, and the backlog says so. -/
theorem outbox_accounting_exact_sample : (outstanding sampleSerde sampleRows).length = 1 ∧
      ∃ backlog, counterOf sampleSerde (sampleRows.get keys.outcomeBacklog) = .ok backlog ∧
        backlog.rows.toNat = (outstanding sampleSerde sampleRows).length :=
  have h := (outbox_accounting_exact sampleSerde (Lts.Run.single commit_sample)).1
  ⟨by decide +kernel, h.imp fun _ hb => ⟨hb.1, hb.2.1⟩⟩

end Mkit.Server
