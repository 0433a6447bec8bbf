import Mkit.Server.RepoStorage

/-!
# Target Batches of the Relay

A relay row is applied at its target in one batch with the watermark of its source: the guard that
the watermark is as it was read, the operations of a prefix of the rows, the new watermark, the
counting of relayed markers, and what the hook makes of it. A combined prefix that does not fit is
halved.
-/

namespace Mkit.Server

/-- The message of a hook that runs out of space for its audit entries. -/
def AUDIT_CAPACITY : String := "automatic audit combined batch capacity"

/-- Extends target batches. -/
structure RelayHook where
  /-- Additional raw observations, batched with the target watermark read. -/
  readKeys : Partition → List (UInt64 × RelayV1) → Except StoreError (List Key)
  /-- Extend the atomic target batch, or fail delivery for this target. -/
  beforeApplyObserved : Partition → List (UInt64 × RelayV1) → List (Key × Option Value) → Plan →
    Except StoreError Plan
  /-- Operations that target-local extensions reserve. -/
  reservedOps : Partition → List (UInt64 × RelayV1) → ℕ

/-- The default hook adds nothing. -/
def NoHook : RelayHook where
  readKeys := fun _ _ => .ok []
  beforeApplyObserved := fun _ _ _ plan => .ok plan
  reservedOps := fun _ _ => 0

/-- The operations of a row. -/
def RelayV1.writes (row : RelayV1) : List Write :=
  (row.puts.map fun p => .put p.1 p.2) ++ row.deletes.map .delete

/-- How many of the rows fit behind those of a batch, each with its watermark. -/
def fittingFrom (base : Batch) (rh : Key) : Batch → List (UInt64 × RelayV1) → ℕ
  | _, [] => 0
  | batch, (seq, row) :: rest =>
    let candidate : Batch := { batch with writes := batch.writes ++ row.writes }
    let sized : Batch :=
      { candidate with writes := candidate.writes ++ [.put rh (encodeU64 seq)] }
    if MAX_RELAY_PUTS < candidate.writes.length - base.writes.length ||
        !(sized.validate .full).isOk then 0
    else fittingFrom base rh candidate rest + 1

/-- How many of the rows fit one target batch. -/
def fittingPrefix (base : Batch) (rh : Key) (rows : List (UInt64 × RelayV1)) : ℕ :=
  fittingFrom base rh base rows

/-- The sequence of the last row. -/
def lastSeq (rows : List (UInt64 × RelayV1)) : UInt64 :=
  (rows.getLast?.map Prod.fst).getD 0

/-- The rows' operations under the watermark, which moves to the last of them. -/
def targetBatch (rh : Key) (observed : Option Value) (rows : List (UInt64 × RelayV1)) : Batch :=
  ⟨[guardOf rh observed],
    (rows.flatMap fun r => r.2.writes) ++ [.put rh (encodeU64 (lastSeq rows))]⟩

/-- Repository-index partitions carry a mutation stamp. -/
def indexPartition : Partition → Bool
  | .repoIndex .. => true
  | _ => false

/-- Append the mutation stamp of an index partition. -/
def bumped (target : Partition) (batch : Batch) : Batch :=
  if indexPartition target then
    { batch with writes := batch.writes ++ [.increment keys.forkIndexRevision] }
  else batch

section Prepare

variable (S : Serde) (B : Blake3) (hook : RelayHook) (caps : StoreCapabilities)
  (target : Partition) (rh : Key) (observed : Option Value)
  (observations : List (Key × Option Value))

/-- The capabilities a target batch must fit. -/
def targetCaps (rows : List (UInt64 × RelayV1)) : StoreCapabilities :=
  let reserved := match target with
    | .refIndex .. => caps.reservedBatchOps
    | _ => 0
  { caps with reservedBatchOps := reserved + hook.reservedOps target rows }

/-- What became of one attempt at a target batch. -/
inductive Prepared where
  | fits (batch : Batch)
  /-- A combined group is halved and tried again. -/
  | tooLarge
  | fails

/-- The batch of a group of rows. -/
def prepareGroup (rows : List (UInt64 × RelayV1)) : Prepared :=
  let batch := bumped target (targetBatch rh observed rows)
  match relayExtend S B target rows observations ⟨batch.preconditions, batch.writes⟩ with
  | .error _ => .fails
  | .ok plan =>
    match hook.beforeApplyObserved target rows observations plan with
    | .error e => if e = .invalid AUDIT_CAPACITY then .tooLarge else .fails
    | .ok plan =>
      let batch : Batch := ⟨plan.pre, plan.writes⟩
      match batch.validate (targetCaps hook caps target rows) with
      | .error (.invalid _) => .tooLarge
      | .error _ => .fails
      | .ok () => .fits batch

/-- Try the first `count` rows, and halve the group while it is too large. Every halving makes the
group smaller, so as many attempts as rows are enough. -/
def prepareShrinking (rows : List (UInt64 × RelayV1)) : ℕ → ℕ → Option (Batch × ℕ)
  | 0, _ => none
  | attempts + 1, count =>
    match prepareGroup S B hook caps target rh observed observations (rows.take count) with
    | .fits batch => some (batch, count)
    | .tooLarge => if 1 < count then prepareShrinking rows attempts (count / 2) else none
    | .fails => none

/-- The target batch of the rows from `start`, and where it ends. -/
def prepareTargetBatch (rows : List (UInt64 × RelayV1)) (start : ℕ) : Option (Batch × ℕ) :=
  let base := bumped target ⟨[guardOf rh observed], []⟩
  let count := fittingPrefix base rh (rows.drop start)
  if count = 0 then none
  else
    (prepareShrinking S B hook caps target rh observed observations (rows.drop start) count
      count).map fun p => (p.1, start + p.2)

end Prepare

/-- The key of a source's watermark. -/
theorem relayHighWater_spec {source : Partition} {rh : Key}
    (h : keys.relayHighWater source = .ok rh) :
    rh.length ≤ MAX_KEY_BYTES ∧ keys.ofClass keys.TAG_RELAY_HIGH_WATER rh = true := by
  obtain ⟨encoded, -, h⟩ := Wire.bind_eq_ok.1 h
  rw [keys.checkedKey] at h
  split at h
  case isTrue => cases h
  case isFalse hlen =>
    obtain rfl := Except.ok.inj h
    exact ⟨not_lt.1 hlen, keys.ofClass_key (by decide) (by decide) _⟩

end Mkit.Server
