import Mathlib.Algebra.Order.BigOperators.Group.List
import Mkit.Lib.Gathering
import Mkit.Server.Relay
import Mkit.Server.RelayRows

/-!
# Rows That Fit

A written row takes at most half of its JSON in a target batch, and leaves four operations: two
for the watermark, and one for the stamp of an index partition. So a target batch of one row is
bounded by its operations alone (`validate_eq_ok_iff`), the row is a fitting prefix by itself
(`fittingPrefix_single`), and what becomes of it is decided by the counting at a coordinator
(`prepareTargetBatch_single`).
-/

namespace Mkit.Server

variable {S : Serde}

/-! ### Batches of bounded size -/

/-- What a key and the value beside it take of a batch. -/
def opBytes (p : Key × Option Value) : ℕ :=
  p.1.length + p.2.elim 0 List.length

/-- A key and a value far below the bounds. -/
def Slight (p : Key × Option Value) : Prop :=
  p.1.length ≤ MAX_KEY_BYTES ∧ p.2.elim 0 List.length ≤ 4096

instance (p : Key × Option Value) : Decidable (Slight p) :=
  inferInstanceAs (Decidable (_ ∧ _))

theorem sum_opBytes_le {l : List (Key × Option Value)} (h : ∀ p ∈ l, Slight p) :
    (l.map opBytes).sum ≤ l.length * 5120 := by
  induction l with
  | nil => exact Nat.zero_le _
  | cons p l ih =>
    rw [List.forall_mem_cons] at h
    obtain ⟨⟨hk, hv⟩, hl⟩ := h
    have hrest := ih hl
    rw [MAX_KEY_BYTES] at hk
    rw [List.map_cons, List.sum_cons, List.length_cons, opBytes]
    omega

/-- A store that takes every key and several keys in one batch. -/
def StoreCapabilities.Complete (caps : StoreCapabilities) : Prop :=
  caps.atomicMultiKey = true ∧ caps.keyClasses = .all

theorem checkSized_eq_ok {caps : StoreCapabilities} (hcaps : caps.Complete)
    {p : Key × Option Value} (hk : p.1.length ≤ MAX_KEY_BYTES)
    (hv : p.2.elim 0 List.length ≤ MAX_TIMER_VALUE_BYTES) : checkSized caps p = .ok () := by
  obtain ⟨k, v⟩ := p
  have hvalue : v.any (MAX_VALUE_BYTES < ·.length) = false := by
    cases v with
    | none => rfl
    | some v =>
      have hlt : ¬ MAX_VALUE_BYTES < v.length := not_lt.2 (hv.trans (by decide))
      simpa using hlt
  have htimer : v.any (MAX_TIMER_VALUE_BYTES < ·.length) = false := by
    cases v with
    | none => rfl
    | some v =>
      have hlt : ¬ MAX_TIMER_VALUE_BYTES < v.length := not_lt.2 hv
      simpa using hlt
  rw [checkSized, if_neg (not_lt.2 hk), hvalue, if_neg (by decide), htimer, hcaps.2]
  rfl

theorem length_guardSizes_le (pre : List Precondition) : (guardSizes pre).length ≤ pre.length :=
  List.length_filterMap_le _ _

theorem length_writeSizes (writes : List Write) : (writeSizes writes).length = writes.length :=
  List.length_map _

/-- A batch around the operations of a row is valid when there are not too many of them. -/
theorem validate_eq_ok_iff {caps : StoreCapabilities} (hcaps : caps.Complete)
    {pre : List Precondition} {before body after : List Write}
    (hpre : ∀ p ∈ guardSizes pre, Slight p) (hbefore : ∀ p ∈ writeSizes before, Slight p)
    (hafter : ∀ p ∈ writeSizes after, Slight p)
    (hkeys : ∀ p ∈ writeSizes body, p.1.length ≤ MAX_KEY_BYTES)
    (hbody : ((writeSizes body).map opBytes).sum ≤ MAX_VALUE_BYTES / 2) :
    (Batch.mk pre (before ++ body ++ after)).validate caps = .ok () ↔
      pre.length + (before ++ body ++ after).length ≤ MAX_BATCH_OPS - caps.reservedBatchOps := by
  rw [Batch.validate]
  constructor
  · intro h
    exact not_lt.1 (Wire.check_eq_ok.1 h).1
  · intro hops
    have hwrites : writeSizes (before ++ body ++ after) =
        writeSizes before ++ writeSizes body ++ writeSizes after := by
      simp only [writeSizes, List.map_append]
    have hsum : ((guardSizes pre ++ writeSizes (before ++ body ++ after)).map opBytes).sum ≤
        (pre.length + (before ++ body ++ after).length) * 5120 + MAX_VALUE_BYTES / 2 := by
      have hguards := sum_opBytes_le hpre
      have hfirst := sum_opBytes_le hbefore
      have hlast := sum_opBytes_le hafter
      have hlen := length_guardSizes_le pre
      rw [length_writeSizes] at hfirst hlast
      simp only [hwrites, List.map_append, List.sum_append, List.length_append]
      omega
    have hcount : ∀ p : Write → Bool, (before ++ body ++ after).countP p ≤
        (before ++ body ++ after).length := fun p => List.countP_le_length
    have htotal : ∀ n, n ≤ (before ++ body ++ after).length →
        8 * n + ((guardSizes pre ++ writeSizes (before ++ body ++ after)).map opBytes).sum ≤
          MAX_BATCH_BYTES := by
      intro n hn
      rw [MAX_BATCH_OPS] at hops
      rw [MAX_VALUE_BYTES] at hsum
      rw [MAX_BATCH_BYTES]
      omega
    have hsized : ∀ p ∈ guardSizes pre ++ writeSizes (before ++ body ++ after),
        checkSized caps p = .ok () := by
      have hslight : ∀ p, Slight p → checkSized caps p = .ok () := fun p hp =>
        checkSized_eq_ok hcaps hp.1 (hp.2.trans (by decide))
      intro p hp
      simp only [hwrites, List.mem_append] at hp
      rcases hp with hp | (hp | hp) | hp
      · exact hslight p (hpre p hp)
      · exact hslight p (hbefore p hp)
      · refine checkSized_eq_ok hcaps (hkeys p hp) ?_
        have hle : opBytes p ≤ ((writeSizes body).map opBytes).sum :=
          List.le_sum_of_mem (List.mem_map_of_mem hp)
        have hvalue : p.2.elim 0 List.length ≤ opBytes p := Nat.le_add_left _ _
        exact (hvalue.trans (hle.trans hbody)).trans (by decide)
      · exact hslight p (hafter p hp)
    refine Wire.check_eq_ok.2 ⟨not_lt.2 hops, Wire.check_eq_ok.2 ⟨not_lt.2 (htotal _ (hcount _)),
      Wire.bind_eq_ok.2 ⟨(), Gathering.forM_eq_ok.2 hsized, ?_⟩⟩⟩
    rw [hcaps.1]
    rfl

/-! ### The operations of a written row -/

section Row

variable {target : Partition} {e : Emission}

theorem writeSizes_row (row : RelayV1) : writeSizes row.writes =
    (row.puts.map fun p => (p.1, some p.2)) ++ row.deletes.map fun k => (k, none) := by
  simp only [RelayV1.writes, writeSizes, List.map_append, List.map_map]
  rfl

theorem length_writes (row : RelayV1) :
    row.writes.length = row.puts.length + row.deletes.length := by
  rw [RelayV1.writes, List.length_append, List.length_map, List.length_map]

/-- The keys of a written row are within the bound on keys. -/
theorem Emission.Sound.keys (h : e.Sound S target) :
    ∀ p ∈ writeSizes e.row.writes, p.1.length ≤ MAX_KEY_BYTES := by
  have henc := h.encoded
  rw [encodeRelay] at henc
  obtain ⟨hdeletes, henc⟩ := Wire.check_eq_ok.1 henc
  obtain ⟨encoded, -, henc⟩ := Wire.bind_eq_ok.1 henc
  obtain ⟨-, henc⟩ := Wire.check_eq_ok.1 henc
  obtain ⟨hputs, -⟩ := Wire.check_eq_ok.1 henc
  simp only [Bool.not_eq_true', Bool.not_eq_false, deletesOk, Bool.and_eq_true, List.all_eq_true,
    decide_eq_true_eq] at hdeletes
  simp only [List.any_eq_true, Bool.or_eq_true, decide_eq_true_eq, not_exists, not_and, not_or,
    not_lt] at hputs
  intro p hp
  rw [writeSizes_row] at hp
  rcases List.mem_append.1 hp with hp | hp
  · obtain ⟨q, hq, rfl⟩ := List.mem_map.1 hp
    exact (hputs q hq).1
  · obtain ⟨k, hk, rfl⟩ := List.mem_map.1 hp
    exact (hdeletes.1 k hk).1

/-- A written row takes half of the bound on values. -/
theorem Emission.Sound.sum_le (h : e.Sound S target) :
    ((writeSizes e.row.writes).map opBytes).sum ≤ MAX_VALUE_BYTES / 2 := by
  have hhalf := h.half
  have hputs : ((e.row.puts.map fun p => (p.1, some p.2)).map opBytes) =
      e.row.puts.map fun p => p.1.length + p.2.length := List.map_map
  have hdeletes : ((e.row.deletes.map fun k => ((k, none) : Key × Option Value)).map opBytes) =
      e.row.deletes.map List.length := List.map_map
  rw [writeSizes_row, List.map_append, List.sum_append, hputs, hdeletes]
  omega

/-- The stamp of an index partition. -/
def bumpWrites (target : Partition) : List Write :=
  if indexPartition target then [.increment keys.forkIndexRevision] else []

theorem bumped_eq (target : Partition) (batch : Batch) :
    bumped target batch = ⟨batch.preconditions, batch.writes ++ bumpWrites target⟩ := by
  rw [bumped, bumpWrites]
  split
  · rfl
  · rw [List.append_nil]

theorem slight_bumpWrites (target : Partition) :
    ∀ p ∈ writeSizes (bumpWrites target), Slight p := by
  rw [bumpWrites]
  split
  · decide
  · exact nofun

theorem length_bumpWrites_le (target : Partition) : (bumpWrites target).length ≤ 1 := by
  rw [bumpWrites]
  split <;> decide

/-- The watermark of a source as it is read: missing, or a sequence. -/
def IsWatermark (observed : Option Value) : Prop :=
  observed = none ∨ ∃ seq : UInt64, observed = some (encodeU64 seq)

variable {rh : Key} {observed : Option Value}

theorem slight_guardOf {k : Key} {prior : Option Value} (hk : k.length ≤ MAX_KEY_BYTES)
    (hprior : prior.elim 0 List.length ≤ 4096) : ∀ p ∈ guardSizes [guardOf k prior], Slight p := by
  intro p hp
  cases prior with
  | none =>
    rw [List.mem_singleton.1 (show p ∈ [(k, none)] from hp)]
    exact ⟨hk, hprior⟩
  | some v =>
    rw [List.mem_singleton.1 (show p ∈ [(k, some v)] from hp)]
    exact ⟨hk, hprior⟩

theorem slight_put {k : Key} {v : Value} (hk : k.length ≤ MAX_KEY_BYTES) (hv : v.length ≤ 4096) :
    ∀ p ∈ writeSizes [.put k v], Slight p := by
  intro p hp
  rw [List.mem_singleton.1 (show p ∈ [(k, some v)] from hp)]
  exact ⟨hk, hv⟩

theorem length_encodeU64 (n : UInt64) : (encodeU64 n).length = 8 :=
  keys.length_be64 n

theorem slight_watermark (hrh : rh.length ≤ MAX_KEY_BYTES) (hobserved : IsWatermark observed) :
    ∀ p ∈ guardSizes [guardOf rh observed], Slight p := by
  refine slight_guardOf hrh ?_
  rcases hobserved with rfl | ⟨seq, rfl⟩
  · exact Nat.zero_le _
  · change (encodeU64 seq).length ≤ 4096
    rw [length_encodeU64]
    decide

theorem slight_put_watermark (hrh : rh.length ≤ MAX_KEY_BYTES) (seq : UInt64) :
    ∀ p ∈ writeSizes [.put rh (encodeU64 seq)], Slight p :=
  slight_put hrh (by rw [length_encodeU64]; decide)

/-- A written row is a fitting prefix by itself. -/
theorem fittingPrefix_single (h : e.Sound S target) (hrh : rh.length ≤ MAX_KEY_BYTES)
    (hobserved : IsWatermark observed) (t : Partition) :
    fittingPrefix (bumped t ⟨[guardOf rh observed], []⟩) rh [(e.seq, e.row)] = 1 := by
  have hops := h.ops
  have hbump := length_bumpWrites_le t
  have hlen := length_writes e.row
  have hvalid : (Batch.mk [guardOf rh observed] (bumpWrites t ++ e.row.writes ++
      [.put rh (encodeU64 e.seq)])).validate .full = .ok () := by
    refine (validate_eq_ok_iff ⟨rfl, rfl⟩ (slight_watermark hrh hobserved) (slight_bumpWrites t)
      (slight_put_watermark hrh e.seq) h.keys h.sum_le).2 ?_
    change [guardOf rh observed].length + _ ≤ 100 - 0
    rw [MAX_RELAY_PUTS] at hops
    simp only [List.length_append, List.length_singleton]
    omega
  have hcount : ¬ MAX_RELAY_PUTS <
      (bumpWrites t ++ e.row.writes).length - (bumpWrites t).length := by
    rw [List.length_append]
    omega
  rw [fittingPrefix, bumped_eq, List.nil_append, fittingFrom]
  dsimp only
  rw [hvalid, decide_eq_false hcount]
  rfl

end Row

/-! ### A batch of one row -/

section Single

variable {B : Blake3} {caps : StoreCapabilities} {target : Partition} {rh : Key}
  {observed : Option Value} {observations : List (Key × Option Value)} {e : Emission}

/-- The guards and writes of a row before counting. -/
def rowPlan (target : Partition) (rh : Key) (observed : Option Value) (e : Emission) : Plan :=
  ⟨[guardOf rh observed], e.row.writes ++ [.put rh (encodeU64 e.seq)] ++ bumpWrites target⟩

theorem prepareGroup_single : prepareGroup S B NoHook caps target rh observed observations
    [(e.seq, e.row)] =
      match relayExtend S B target [(e.seq, e.row)] observations (rowPlan target rh observed e) with
      | .error _ => .fails
      | .ok plan =>
          match (Batch.mk plan.pre plan.writes).validate
              (targetCaps NoHook caps target [(e.seq, e.row)]) with
          | .error (.invalid _) => .tooLarge
          | .error _ => .fails
          | .ok () => .fits ⟨plan.pre, plan.writes⟩ := by
  have hplan : bumped target (targetBatch rh observed [(e.seq, e.row)]) =
      ⟨(rowPlan target rh observed e).pre, (rowPlan target rh observed e).writes⟩ := by
    rw [bumped_eq, targetBatch, List.flatMap_singleton]
    rfl
  rw [prepareGroup, hplan]
  rfl

/-- A row by itself is delivered when its markers can be counted and the batch that this gives is
valid. -/
theorem prepareTargetBatch_single
    (hfits : fittingPrefix (bumped target ⟨[guardOf rh observed], []⟩) rh [(e.seq, e.row)] = 1)
    {r : Batch × ℕ} :
    prepareTargetBatch S B NoHook caps target rh observed observations [(e.seq, e.row)] 0 =
        some r ↔
      ∃ plan, relayExtend S B target [(e.seq, e.row)] observations
          (rowPlan target rh observed e) = .ok plan ∧
        r = (⟨plan.pre, plan.writes⟩, 1) ∧
        r.1.validate (targetCaps NoHook caps target [(e.seq, e.row)]) = .ok () := by
  have hgroup := @prepareGroup_single S B caps target rh observed observations e
  rw [prepareTargetBatch, List.drop_zero, hfits, if_neg one_ne_zero, prepareShrinking,
    List.take_succ_cons, List.take_zero, hgroup]
  cases relayExtend S B target [(e.seq, e.row)] observations (rowPlan target rh observed e) with
  | error err => simp
  | ok plan =>
    cases hvalid : (Batch.mk plan.pre plan.writes).validate
        (targetCaps NoHook caps target [(e.seq, e.row)]) with
    | error err =>
      have hnot : ∀ r : Batch × ℕ, r = (⟨plan.pre, plan.writes⟩, 1) →
          r.1.validate (targetCaps NoHook caps target [(e.seq, e.row)]) ≠ .ok () := by
        rintro r rfl hok
        rw [hvalid] at hok
        cases hok
      cases err <;> simpa [hvalid] using hnot r
    | ok u =>
      have hok : ∀ r : Batch × ℕ, r = (⟨plan.pre, plan.writes⟩, 1) →
          r.1.validate (targetCaps NoHook caps target [(e.seq, e.row)]) = .ok () := by
        rintro r rfl
        exact hvalid
      simpa [hvalid, eq_comm] using hok r

/-- The operations of a target batch of one row that is not counted. -/
def deliveryOps (target : Partition) (e : Emission) : ℕ :=
  e.row.puts.length + e.row.deletes.length + 2 + (bumpWrites target).length

/-- Where nothing is counted a row by itself is delivered when its operations, the guard and the
write of the watermark and the stamp fit. -/
theorem prepareTargetBatch_uncounted (h : e.Sound S target) (hcaps : caps.Complete)
    (hrh : rh.length ≤ MAX_KEY_BYTES) (hobserved : IsWatermark observed)
    (hextend : relayExtend S B target [(e.seq, e.row)] observations
      (rowPlan target rh observed e) = .ok (rowPlan target rh observed e)) :
    (∃ batch, prepareTargetBatch S B NoHook caps target rh observed observations
        [(e.seq, e.row)] 0 = some (batch, 1) ∧
          batch.validate (targetCaps NoHook caps target [(e.seq, e.row)]) = .ok ()) ↔
      deliveryOps target e ≤ MAX_BATCH_OPS -
        (targetCaps NoHook caps target [(e.seq, e.row)]).reservedBatchOps := by
  have hvalid := @validate_eq_ok_iff (targetCaps NoHook caps target [(e.seq, e.row)]) hcaps
    [guardOf rh observed] [] e.row.writes ([.put rh (encodeU64 e.seq)] ++ bumpWrites target)
    (slight_watermark hrh hobserved) nofun (fun p hp => ?_) h.keys h.sum_le
  · rw [List.nil_append, ← List.append_assoc] at hvalid
    have hops : deliveryOps target e = [guardOf rh observed].length +
        (e.row.writes ++ [Write.put rh (encodeU64 e.seq)] ++ bumpWrites target).length := by
      simp only [deliveryOps, List.length_append, List.length_singleton, length_writes]
      omega
    rw [hops, ← hvalid]
    constructor
    · rintro ⟨batch, hprepared, hok⟩
      obtain ⟨plan, hplan, hr, -⟩ :=
        (prepareTargetBatch_single (fittingPrefix_single h hrh hobserved target)).1 hprepared
      rw [hextend] at hplan
      obtain rfl := Except.ok.inj hplan
      rwa [(Prod.mk.inj hr).1] at hok
    · intro hok
      exact ⟨_, (prepareTargetBatch_single (fittingPrefix_single h hrh hobserved target)).2
        ⟨_, hextend, rfl, hok⟩, hok⟩
  · rw [writeSizes, List.map_append] at hp
    rcases List.mem_append.1 hp with hp | hp
    · exact slight_put_watermark hrh e.seq p hp
    · exact slight_bumpWrites target p hp

end Single

end Mkit.Server
