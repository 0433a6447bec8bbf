import Mkit.Lib.Words
import Mkit.Server.Keys

/-!
# The Key-Value Store

One partition is an ordered map of rows. Its only write is a batch: preconditions, checked in
order against the rows as they are, then writes, applied in order. A batch commits as a whole or
changes nothing; one that commits found every precondition true and made every write
(`Batch.Commits.spec`).
-/

namespace Mkit.Server

/-- Most preconditions plus writes in one batch. -/
def MAX_BATCH_OPS : ℕ := 100

/-- Most key and value bytes, summed over a batch's preconditions and writes. -/
def MAX_BATCH_BYTES : ℕ := 1024 * 1024

/-- Longest value of a timer: a guarded retry must fit the batch bound. -/
def MAX_TIMER_VALUE_BYTES : ℕ := (MAX_BATCH_BYTES - 4 * MAX_KEY_BYTES) / 2

/-- The rows of a partition. -/
abbrev Rows := SortedMap Key Value

/-- A condition a batch checks before it writes. -/
inductive Precondition where
  /-- The key holds no value. -/
  | absent (k : Key)
  /-- The key holds a value. -/
  | present (k : Key)
  /-- The key holds exactly this value. -/
  | equals (k : Key) (v : Value)
  /-- The backend's clock has not passed the deadline. -/
  | notAfter (deadline : UInt64)
deriving DecidableEq

/-- A write in a batch. -/
inductive Write where
  /-- Set the key's value. -/
  | put (k : Key) (v : Value)
  /-- Remove the key; removing an absent key is not an error. -/
  | delete (k : Key)
  /-- Add one to a big-endian counter, treating absence as zero. -/
  | increment (k : Key)
deriving DecidableEq

/-- One atomic, declarative write. -/
structure Batch where
  preconditions : List Precondition
  writes : List Write
deriving DecidableEq

/-- The key a precondition is about. -/
def Precondition.key? : Precondition → Option Key
  | .absent k | .present k | .equals k _ => some k
  | .notAfter _ => none

/-- The key a write is about. -/
def Write.key : Write → Key
  | .put k _ | .delete k | .increment k => k

/-- Which key classes a store accepts. -/
inductive KeyClasses where
  | all
  | refsOnly
deriving DecidableEq

/-- What a store supports. -/
structure StoreCapabilities where
  atomicMultiKey : Bool
  reservedBatchOps : ℕ
  keyClasses : KeyClasses

/-- A full store: atomic multi-key batches over every class. -/
def StoreCapabilities.full : StoreCapabilities :=
  ⟨true, 0, .all⟩

/-- The keys of the preconditions, each with the value it names. -/
def guardSizes (pre : List Precondition) : List (Key × Option Value) :=
  pre.filterMap fun
    | .absent k | .present k => some (k, none)
    | .equals k v => some (k, some v)
    | .notAfter _ => none

/-- The keys of the writes, each with the value it names. -/
def writeSizes (writes : List Write) : List (Key × Option Value) :=
  writes.map fun
    | .put k v => (k, some v)
    | .delete k | .increment k => (k, none)

/-- Does a store that commits one key at a time take these preconditions and writes? -/
def oneKey : List (Key × Option Value) → List (Key × Option Value) → Bool
  | [], [] | [], [_] | [_], [] => true
  | [p], [w] => p.1 == w.1
  | _, _ => false

/-- Check one key and value of a batch. -/
def checkSized (caps : StoreCapabilities) : Key × Option Value → Except StoreError Unit
  | (k, v) => do
    if MAX_KEY_BYTES < k.length then throw (.invalid "key exceeds MAX_KEY_BYTES")
    if v.any (MAX_VALUE_BYTES < ·.length) then throw (.invalid "value exceeds MAX_VALUE_BYTES")
    if v.any (MAX_TIMER_VALUE_BYTES < ·.length) && keys.parsesAsTimer k then
      throw (.invalid "timer value exceeds retry batch allowance")
    if caps.keyClasses = .refsOnly && !keys.isRefKey k then
      throw (.unsupported "this store holds only ref keys")

/-- Check the batch against the size limits and a store's capabilities. -/
def Batch.validate (b : Batch) (caps : StoreCapabilities) : Except StoreError Unit := do
  if MAX_BATCH_OPS - caps.reservedBatchOps < b.preconditions.length + b.writes.length then
    throw (.invalid "batch exceeds MAX_BATCH_OPS")
  let guards := guardSizes b.preconditions
  let writes := writeSizes b.writes
  let incrementBytes := 8 * b.writes.countP fun w => match w with
    | .increment _ => true
    | _ => false
  let total := incrementBytes +
    ((guards ++ writes).map fun p => p.1.length + p.2.elim 0 List.length).sum
  if MAX_BATCH_BYTES < total then throw (.invalid "batch exceeds MAX_BATCH_BYTES")
  (guards ++ writes).forM (checkSized caps)
  if !caps.atomicMultiKey && !oneKey guards writes then
    throw (.unsupported "this store commits at most one key per batch")

/-- The result of applying a batch. -/
inductive BatchOutcome where
  /-- Every precondition held and every write is durable. -/
  | committed
  /-- A key precondition failed; nothing was written. -/
  | preconditionFailed (index : ℕ) (observed : Option Value)
  /-- A deadline had passed on the backend's clock; nothing was written. -/
  | deadlinePassed (backendNow : UInt64)
deriving DecidableEq

/-- Check one precondition. -/
def check (rows : Rows) (index : ℕ) (pre : Precondition) (now : UInt64) : Option BatchOutcome :=
  match pre with
  | .absent k =>
    if rows.containsKey k then some (.preconditionFailed index (rows.get k)) else none
  | .present k => if rows.containsKey k then none else some (.preconditionFailed index none)
  | .equals k v =>
    if rows.get k = some v then none else some (.preconditionFailed index (rows.get k))
  | .notAfter deadline => if deadline < now then some (.deadlinePassed now) else none

/-- The first failing precondition, counting from `index`. -/
def firstFailure (rows : Rows) (now : UInt64) : ℕ → List Precondition → Option BatchOutcome
  | _, [] => none
  | index, pre :: rest =>
    match check rows index pre now with
    | some failed => some failed
    | none => firstFailure rows now (index + 1) rest

/-- Apply one write; a malformed or overflowing counter fails the entire batch. -/
def Write.apply (rows : Rows) : Write → Except StoreError Rows
  | .put k v => .ok (rows.insert k v)
  | .delete k => .ok (rows.erase k)
  | .increment k =>
    match rows.get k with
    | none => .ok (rows.insert k (keys.be64 1))
    | some v =>
      if v.length ≠ 8 then .error (.corrupt "increment counter is not an 8-byte u64")
      else
        match Words.checkedAdd (UInt64.ofNat (Wire.ofLeBytes v.reverse)) 1 with
        | none => .error (.corrupt "increment counter overflow")
        | some next => .ok (rows.insert k (keys.be64 next))

/-- Apply the writes in order. -/
def applyWrites (rows : Rows) (writes : List Write) : Except StoreError Rows :=
  writes.foldlM Write.apply rows

/-- One atomic, all-or-nothing batch on a full store whose clock reads `now`. -/
def Batch.apply (b : Batch) (now : UInt64) (rows : Rows) :
    Except StoreError (BatchOutcome × Rows) := do
  b.validate .full
  match firstFailure rows now 0 b.preconditions with
  | some failed => pure (failed, rows)
  | none => do
    let rows' ← applyWrites rows b.writes
    pure (.committed, rows')

/-! ### What the writes leave alone -/

variable {rows' : Rows} {w : Write} {k : Key}

/-- Writes leave the keys they are not about as they are. -/
theorem Write.apply_get {rows : Rows} (h : w.apply rows = .ok rows')
    (hk : k ≠ w.key) : rows'.get k = rows.get k := by
  cases w with
  | put key v =>
    obtain rfl := Except.ok.inj h
    exact SortedMap.get_insert_of_ne rows v hk
  | delete key =>
    obtain rfl := Except.ok.inj h
    exact SortedMap.get_erase_of_ne rows hk
  | increment key =>
    rw [Write.apply] at h
    split at h
    · obtain rfl := Except.ok.inj h
      exact SortedMap.get_insert_of_ne rows _ hk
    · split at h
      · cases h
      · split at h
        · cases h
        · obtain rfl := Except.ok.inj h
          exact SortedMap.get_insert_of_ne rows _ hk

theorem applyWrites_append (rows : Rows) (ws ws' : List Write) :
    applyWrites rows (ws ++ ws') = applyWrites rows ws >>= fun rows' => applyWrites rows' ws' :=
  List.foldlM_append

variable {ws : List Write}

theorem applyWrites_append_eq_ok {rows rows'' : Rows} {ws' : List Write} :
    applyWrites rows (ws ++ ws') = .ok rows'' ↔
      ∃ rows', applyWrites rows ws = .ok rows' ∧ applyWrites rows' ws' = .ok rows'' := by
  rw [applyWrites_append, Wire.bind_eq_ok]

theorem applyWrites_cons_eq_ok {rows rows'' : Rows} : applyWrites rows (w :: ws) = .ok rows'' ↔
      ∃ rows', w.apply rows = .ok rows' ∧ applyWrites rows' ws = .ok rows'' := by
  rw [applyWrites, List.foldlM_cons, Wire.bind_eq_ok]
  rfl

/-- A key that no write is about keeps its value. -/
theorem applyWrites_get {rows : Rows} (h : applyWrites rows ws = .ok rows')
    (hk : ∀ w ∈ ws, k ≠ w.key) : rows'.get k = rows.get k := by
  induction ws generalizing rows with
  | nil =>
    obtain rfl := Except.ok.inj h
    rfl
  | cons w ws ih =>
    obtain ⟨mid, hw, hws⟩ := applyWrites_cons_eq_ok.1 h
    rw [List.forall_mem_cons] at hk
    rw [ih hws hk.2, Write.apply_get hw hk.1]

/-- What a put or a delete leaves under its key. -/
def Write.value? : Write → Option (Option Value)
  | .put _ v => some (some v)
  | .delete _ => some none
  | .increment _ => none

variable {o : Option Value}

theorem Write.apply_eq_update (h : w.value? = some o)
    (rows : Rows) : w.apply rows = .ok (rows.update w.key o) := by
  cases w with
  | put k v =>
    obtain rfl := Option.some.inj h
    rfl
  | delete k =>
    obtain rfl := Option.some.inj h
    rfl
  | increment k => cases h

/-- A write and an update of another key commute. -/
theorem Write.apply_update (hk : w.key ≠ k) (o : Option Value)
    (rows : Rows) : w.apply (rows.update k o) = (w.apply rows).map (·.update k o) := by
  cases w with
  | put key v => exact congrArg Except.ok (SortedMap.update_comm rows o (some v) (Ne.symm hk))
  | delete key => exact congrArg Except.ok (SortedMap.update_comm rows o none (Ne.symm hk))
  | increment key =>
    have hcomm : ∀ v : Value, (rows.update k o).insert key v = (rows.insert key v).update k o :=
      fun v => SortedMap.update_comm rows o (some v) (Ne.symm hk)
    have hget : (rows.update k o).get key = rows.get key := SortedMap.get_update_of_ne rows o hk
    simp only [Write.apply, hget, hcomm]
    cases rows.get key with
    | none => rfl
    | some v =>
      dsimp only
      split_ifs
      · rfl
      · cases Words.checkedAdd (UInt64.ofNat (Wire.ofLeBytes v.reverse)) 1 <;> rfl

/-- An update of a key the writes are not about may be made before or after them. -/
theorem applyWrites_update (hk : ∀ w ∈ ws, w.key ≠ k) (o : Option Value) (rows : Rows) :
    applyWrites (rows.update k o) ws = (applyWrites rows ws).map (·.update k o) := by
  induction ws generalizing rows with
  | nil => rfl
  | cons w ws ih =>
    rw [List.forall_mem_cons] at hk
    have hcons : ∀ rows : Rows,
        applyWrites rows (w :: ws) = w.apply rows >>= fun rows' => applyWrites rows' ws :=
      fun _ => List.foldlM_cons
    rw [hcons, hcons, Write.apply_update hk.1]
    cases w.apply rows with
    | error e => rfl
    | ok rows' => exact ih hk.2 rows'

/-- The last write to a key may be replaced. -/
theorem applyWrites_replace {rows : Rows} {before after : List Write} {w' : Write}
    {o' : Option Value} (h : applyWrites rows (before ++ w :: after) = .ok rows')
    (hw : w.value? = some o) (hw' : w'.value? = some o') (hkey : w'.key = w.key)
    (hafter : ∀ u ∈ after, u.key ≠ w.key) :
    applyWrites rows (before ++ w' :: after) = .ok (rows'.update w.key o') := by
  obtain ⟨mid, hbefore, h⟩ := applyWrites_append_eq_ok.1 h
  obtain ⟨mid', hmid, h⟩ := applyWrites_cons_eq_ok.1 h
  rw [Write.apply_eq_update hw] at hmid
  obtain rfl := Except.ok.inj hmid
  rw [applyWrites_update hafter] at h
  cases hrest : applyWrites mid after with
  | error e =>
    rw [hrest] at h
    cases h
  | ok last =>
    rw [hrest] at h
    obtain rfl := Except.ok.inj h
    refine applyWrites_append_eq_ok.2 ⟨mid, hbefore,
      applyWrites_cons_eq_ok.2 ⟨_, Write.apply_eq_update hw' mid, ?_⟩⟩
    rw [hkey, applyWrites_update hafter, hrest, SortedMap.update_update]
    rfl

/-- What the last write to a key leaves there. -/
theorem applyWrites_last {rows : Rows} {before after : List Write}
    (h : applyWrites rows (before ++ w :: after) = .ok rows')
    (hw : w.value? = some o) (hafter : ∀ u ∈ after, u.key ≠ w.key) : rows'.get w.key = o := by
  obtain ⟨mid, -, h⟩ := applyWrites_append_eq_ok.1 h
  obtain ⟨mid', hmid, h⟩ := applyWrites_cons_eq_ok.1 h
  rw [Write.apply_eq_update hw] at hmid
  obtain rfl := Except.ok.inj hmid
  rw [applyWrites_get h fun u hu => (hafter u hu).symm, SortedMap.get_update_self]

/-- A value the writes leave was there, was put, or is an incremented counter. -/
theorem applyWrites_origin {rows : Rows}
    (h : applyWrites rows ws = .ok rows') {v : Value} (hv : rows'.get k = some v) :
    rows.get k = some v ∨ .put k v ∈ ws ∨ .increment k ∈ ws ∧ v.length = 8 := by
  induction ws generalizing rows with
  | nil =>
    obtain rfl := Except.ok.inj h
    exact .inl hv
  | cons w ws ih =>
    obtain ⟨mid, hw, hws⟩ := applyWrites_cons_eq_ok.1 h
    rcases ih hws with hmid | hput | ⟨hinc, hlen⟩
    · by_cases hk : k = w.key
      · cases w with
        | put key v' =>
          obtain rfl := Except.ok.inj hw
          rw [show k = key from hk, SortedMap.get_insert_self] at hmid
          obtain rfl := Option.some.inj hmid
          rw [show k = key from hk]
          exact .inr (.inl List.mem_cons_self)
        | delete key =>
          obtain rfl := Except.ok.inj hw
          rw [show k = key from hk, SortedMap.get_erase_self] at hmid
          cases hmid
        | increment key =>
          have hcount : ∀ n : UInt64, mid = rows.insert key (keys.be64 n) → v.length = 8 := by
            rintro n rfl
            rw [show k = key from hk, SortedMap.get_insert_self] at hmid
            rw [← Option.some.inj hmid, keys.length_be64]
          have hhead : Write.increment k ∈ .increment key :: ws := by
            rw [show k = key from hk]
            exact List.mem_cons_self
          rw [Write.apply] at hw
          split at hw
          · exact .inr (.inr ⟨hhead, hcount _ (Except.ok.inj hw).symm⟩)
          · split at hw
            · cases hw
            · split at hw
              · cases hw
              · exact .inr (.inr ⟨hhead, hcount _ (Except.ok.inj hw).symm⟩)
      · exact .inl (Write.apply_get hw hk ▸ hmid)
    · exact .inr (.inl (List.mem_cons_of_mem w hput))
    · exact .inr (.inr ⟨List.mem_cons_of_mem w hinc, hlen⟩)

/-! ### What a committed batch has checked and done -/

variable {b : Batch}

/-- A value that a valid batch puts is within the bound on values. -/
theorem Batch.length_le_of_validate {caps : StoreCapabilities}
    (h : b.validate caps = .ok ()) {v : Value} (hput : .put k v ∈ b.writes) :
    v.length ≤ MAX_VALUE_BYTES := by
  rw [Batch.validate] at h
  obtain ⟨-, h⟩ := Wire.check_eq_ok.1 h
  obtain ⟨-, h⟩ := Wire.check_eq_ok.1 h
  obtain ⟨⟨⟩, hsizes, -⟩ := Wire.bind_eq_ok.1 h
  have hmem : (k, some v) ∈ guardSizes b.preconditions ++ writeSizes b.writes :=
    List.mem_append_right _ (List.mem_map.2 ⟨_, hput, rfl⟩)
  have hsized := Wire.forM_eq_ok hsizes _ hmem
  rw [checkSized] at hsized
  obtain ⟨-, hsized⟩ := Wire.check_eq_ok.1 hsized
  obtain ⟨hvalue, -⟩ := Wire.check_eq_ok.1 hsized
  simpa using hvalue

/-- The precondition holds. -/
def Precondition.Holds (rows : Rows) (now : UInt64) : Precondition → Prop
  | .absent k => rows.get k = none
  | .present k => (rows.get k).isSome = true
  | .equals k v => rows.get k = some v
  | .notAfter deadline => now ≤ deadline

/-- The batch commits, taking the rows to `rows'`. -/
def Batch.Commits (b : Batch) (now : UInt64) (rows rows' : Rows) : Prop :=
  b.apply now rows = .ok (.committed, rows')

theorem check_eq_none {rows : Rows} {index : ℕ} {pre : Precondition} {now : UInt64} :
    check rows index pre now = none ↔ pre.Holds rows now := by
  cases pre with
  | absent k => cases h : rows.get k <;> simp [check, Precondition.Holds, SortedMap.containsKey, h]
  | present k => cases h : rows.get k <;> simp [check, Precondition.Holds, SortedMap.containsKey, h]
  | equals k v => simp [check, Precondition.Holds]
  | notAfter deadline =>
    simp only [check, Precondition.Holds, ite_eq_right_iff, reduceCtorEq, imp_false]
    rw [UInt64.lt_iff_toNat_lt, UInt64.le_iff_toNat_le, not_lt]

theorem firstFailure_eq_none {rows : Rows} {now : UInt64} {index : ℕ} {pre : List Precondition} :
    firstFailure rows now index pre = none ↔ ∀ p ∈ pre, p.Holds rows now := by
  induction pre generalizing index with
  | nil => simp [firstFailure]
  | cons p rest ih =>
    rw [firstFailure, List.forall_mem_cons, ← @check_eq_none rows index]
    cases check rows index p now with
    | none => simpa using ih
    | some failed => simp

/-- A failure is not a commit. -/
theorem firstFailure_ne_committed {rows : Rows} {now : UInt64} {index : ℕ}
    {pre : List Precondition} : firstFailure rows now index pre ≠ some .committed := by
  induction pre generalizing index with
  | nil => simp [firstFailure]
  | cons p rest ih =>
    rw [firstFailure]
    cases hcheck : check rows index p now with
    | none => exact ih
    | some failed =>
      rintro ⟨⟩
      cases p <;> simp only [check] at hcheck <;> split at hcheck <;> cases hcheck

/-- A batch that commits is within the bounds. -/
theorem Batch.Commits.valid {now : UInt64} {rows : Rows}
    (h : b.Commits now rows rows') : b.validate .full = .ok () := by
  rw [Batch.Commits, Batch.apply] at h
  obtain ⟨⟨⟩, hvalid, -⟩ := Wire.bind_eq_ok.1 h
  exact hvalid

/-- A batch that commits found every precondition true and made every write. -/
theorem Batch.Commits.spec {now : UInt64} {rows : Rows} (h : b.Commits now rows rows') :
    (∀ p ∈ b.preconditions, p.Holds rows now) ∧ applyWrites rows b.writes = .ok rows' := by
  rw [Batch.Commits, Batch.apply] at h
  obtain ⟨-, -, h⟩ := Wire.bind_eq_ok.1 h
  cases hfail : firstFailure rows now 0 b.preconditions with
  | some failed =>
    rw [hfail] at h
    obtain ⟨rfl, -⟩ := Prod.mk.inj (Except.ok.inj h)
    exact absurd hfail firstFailure_ne_committed
  | none =>
    rw [hfail] at h
    obtain ⟨rows'', hwrites, h⟩ := Wire.bind_eq_ok.1 h
    rw [← (Prod.mk.inj (Except.ok.inj h)).2]
    exact ⟨firstFailure_eq_none.1 hfail, hwrites⟩

/-- A valid batch whose guards hold and whose writes apply commits. -/
theorem Batch.commits_of {now : UInt64} {rows : Rows}
    (hvalid : b.validate .full = .ok ()) (hguards : firstFailure rows now 0 b.preconditions = none)
    (happly : applyWrites rows b.writes = .ok rows') : b.Commits now rows rows' := by
  rw [Batch.Commits, Batch.apply, hvalid, hguards, happly]
  rfl

end Mkit.Server
