import Mkit.Lib.Spreading
import Mkit.Server.JsonText
import Mkit.Server.OutboxItems

/-!
# Relay Rows

How the operations for a target are spread over rows. The rows that close and the row that stays
open, each with the running estimate of its size, are a function of the operations (`spreadRows`);
the builder pushes exactly those, in order and under consecutive sequences
(`emits_planRelayRows`). Every operation is in one row, no row is empty, and no row is larger than
it was estimated.
-/

namespace Mkit.Server

open Effect Spreading

variable {S : Serde}

/-- A row and the running estimate of its size. -/
structure Sized where
  row : RelayV1
  encodedBytes : ℕ

/-! ### Spreading operations -/

namespace Sized

/-- What one upsert adds to the open row. -/
def putAddition (s : Sized) (p : Key × Value) : ℕ :=
  putSize p + if s.row.puts.isEmpty then 0 else 1

/-- What one delete adds to the open row. -/
def deleteAddition (s : Sized) (k : Key) : ℕ :=
  deleteSize k + if s.row.deletes.isEmpty then RELAY_DELETE_FIELD_BYTES else 1

def putFull (s : Sized) (p : Key × Value) : Bool :=
  OutboxBuilder.rowFull s.row s.encodedBytes (s.putAddition p)

def deleteFull (s : Sized) (k : Key) : Bool :=
  OutboxBuilder.rowFull s.row s.encodedBytes (s.deleteAddition k)

/-- A row that starts with an upsert. -/
def startPut (baseBytes : ℕ) (s : Sized) (p : Key × Value) : Sized :=
  ⟨{ s.row with puts := [p] }, baseBytes + putSize p⟩

/-- A row that starts with a delete. -/
def startDelete (baseBytes : ℕ) (s : Sized) (k : Key) : Sized :=
  ⟨{ s.row with puts := [], deletes := [k] }, baseBytes + deleteSize k + RELAY_DELETE_FIELD_BYTES⟩

def addPut (s : Sized) (p : Key × Value) : Sized :=
  ⟨{ s.row with puts := s.row.puts ++ [p] }, s.encodedBytes + s.putAddition p⟩

def addDelete (s : Sized) (k : Key) : Sized :=
  ⟨{ s.row with deletes := s.row.deletes ++ [k] }, s.encodedBytes + s.deleteAddition k⟩

end Sized

/-- The rows that close while upserts are spread, and the open one. -/
def spreadPuts (baseBytes : ℕ) : Sized → List (Key × Value) → List Sized × Sized :=
  spread Sized.putFull (Sized.startPut baseBytes) Sized.addPut

/-- The rows that close while deletes are spread, and the open one. -/
def spreadDeletes (baseBytes : ℕ) : Sized → List Key → List Sized × Sized :=
  spread Sized.deleteFull (Sized.startDelete baseBytes) Sized.addDelete

/-- The rows of a target: deletes follow the upserts, from the row that these leave open. -/
def spreadRows (atMs : UInt64) (target : Partition) (baseBytes : ℕ) (puts : List (Key × Value))
    (deletes : List Key) : List Sized :=
  let p := spreadPuts baseBytes ⟨⟨atMs, target, [], []⟩, baseBytes⟩ puts
  let d := spreadDeletes baseBytes p.2 deletes
  p.1 ++ d.1 ++ [d.2]

/-! ### What the builder pushes -/

/-- A row as it is written. -/
structure Emission where
  seq : UInt64
  sized : Sized
  value : Value

def Emission.row (e : Emission) : RelayV1 :=
  e.sized.row

def Emission.write (e : Emission) : Write :=
  .put (keys.relay e.seq) e.value

/-- The builder goes on by writing the rows under the next sequences. -/
structure Pushes (S : Serde) (b : OutboxBuilder) (es : List Emission) (b' : OutboxBuilder) :
    Prop where
  encoded : ∀ e ∈ es, encodeRelay S e.row = .ok e.value
  numbers : es.map (fun e => e.seq.toNat) = List.range' (b.seq.toNat + 1) es.length
  last : b'.seq.toNat = b.seq.toNat + es.length
  rest : ∃ seq sequenceTouched, b' =
    { b with seq, sequenceTouched, writes := b.writes ++ es.map Emission.write }

theorem Pushes.refl (b : OutboxBuilder) : Pushes S b [] b :=
  ⟨nofun, rfl, rfl, b.seq, b.sequenceTouched, by rw [List.map_nil, List.append_nil]⟩

theorem Pushes.trans {b b' b'' : OutboxBuilder} {es es' : List Emission} (h : Pushes S b es b')
    (h' : Pushes S b' es' b'') : Pushes S b (es ++ es') b'' := by
  obtain ⟨seq, touched, hb'⟩ := h.rest
  obtain ⟨seq', touched', hb''⟩ := h'.rest
  refine ⟨List.forall_mem_append.2 ⟨h.encoded, h'.encoded⟩, ?_, ?_, seq', touched', ?_⟩
  · rw [List.map_append, h.numbers, h'.numbers, h.last, List.length_append, ← List.range'_append_1]
    congr 2
    omega
  · rw [h'.last, h.last, List.length_append, Nat.add_assoc]
  · rw [hb'', hb', List.map_append, ← List.append_assoc]

namespace OutboxBuilder

theorem pushes_pushRelay {s : Sized} {b b' : OutboxBuilder} {u : PUnit}
    (h : Yields (pushRelay S s.row) b u b') : ∃ e : Emission, e.sized = s ∧ Pushes S b [e] b' := by
  obtain ⟨value, hvalue, h⟩ := yields_liftExcept_bind.1 h
  obtain ⟨r, -, h⟩ := yields_liftExcept_bind.1 h
  obtain ⟨seq, b₁, halloc, h⟩ := yields_bind.1 h
  obtain ⟨hseq, rfl⟩ := yields_allocate.1 halloc
  obtain rfl := yields_pushWrite.1 h
  refine ⟨⟨seq, s, value⟩, rfl, ?_, ?_, hseq, seq, true, rfl⟩
  · exact fun e he => List.mem_singleton.1 he ▸ hvalue
  · rw [List.map_singleton, hseq]
    rfl

/-- Can the upsert be in a row? -/
def PutFits (baseBytes : ℕ) (p : Key × Value) : Prop :=
  p.1.length ≤ MAX_KEY_BYTES ∧ baseBytes + putSize p ≤ MAX_VALUE_BYTES

/-- Can the delete be in a row? -/
def DeleteFits (baseBytes : ℕ) (k : Key) : Prop :=
  k.length ≤ MAX_KEY_BYTES ∧ baseBytes + RELAY_DELETE_FIELD_BYTES + deleteSize k ≤ MAX_VALUE_BYTES

/-- Spreading upserts pushes the rows that close. -/
theorem pushes_planPuts {baseBytes : ℕ} {puts : List (Key × Value)} {s : Sized}
    {b b' : OutboxBuilder} {r : RelayV1 × ℕ}
    (h : Yields (planPuts S baseBytes s.row s.encodedBytes puts) b r b') :
    (∀ p ∈ puts, PutFits baseBytes p) ∧ r.1 = (spreadPuts baseBytes s puts).2.row ∧
      r.2 = (spreadPuts baseBytes s puts).2.encodedBytes ∧
        ∃ es : List Emission, es.map Emission.sized = (spreadPuts baseBytes s puts).1 ∧
          Pushes S b es b' := by
  induction puts generalizing s b with
  | nil =>
    obtain ⟨rfl, rfl⟩ := yields_pure.1 h
    exact ⟨nofun, rfl, rfl, [], rfl, Pushes.refl b⟩
  | cons p rest ih =>
    obtain ⟨k, v⟩ := p
    rw [planPuts] at h
    dsimp only at h
    obtain ⟨hcheck, h⟩ := yields_check.1 h
    have hfits : PutFits baseBytes (k, v) := by
      simp only [Bool.or_eq_true, decide_eq_true_eq, not_or, not_lt] at hcheck
      exact ⟨hcheck.1.1, hcheck.2⟩
    change Yields (if s.putFull (k, v) = true then _ else _) b r b' at h
    rw [spreadPuts, spread]
    by_cases hfull : s.putFull (k, v) = true
    · rw [if_pos hfull] at h ⊢
      obtain ⟨⟨⟩, b₁, hpush, h⟩ := yields_bind.1 h
      obtain ⟨e, rfl, hpushes⟩ := pushes_pushRelay hpush
      obtain ⟨hrest, hrow, hbytes, es, hes, hmore⟩ :=
        @ih (e.sized.startPut baseBytes (k, v)) b₁ h
      refine ⟨List.forall_mem_cons.2 ⟨hfits, hrest⟩, hrow, hbytes, e :: es, ?_,
        hpushes.trans hmore⟩
      rw [List.map_cons, hes]
      rfl
    · rw [if_neg hfull] at h ⊢
      obtain ⟨hrest, hmore⟩ := @ih (s.addPut (k, v)) b h
      exact ⟨List.forall_mem_cons.2 ⟨hfits, hrest⟩, hmore⟩

/-- Spreading deletes pushes the rows that close. -/
theorem pushes_planDeletes {baseBytes : ℕ} {deletes : List Key} {s : Sized}
    {b b' : OutboxBuilder} {r : RelayV1}
    (h : Yields (planDeletes S baseBytes s.row s.encodedBytes deletes) b r b') :
    (∀ k ∈ deletes, DeleteFits baseBytes k) ∧ r = (spreadDeletes baseBytes s deletes).2.row ∧
      ∃ es : List Emission, es.map Emission.sized = (spreadDeletes baseBytes s deletes).1 ∧
        Pushes S b es b' := by
  induction deletes generalizing s b with
  | nil =>
    obtain ⟨rfl, rfl⟩ := yields_pure.1 h
    exact ⟨nofun, rfl, [], rfl, Pushes.refl b⟩
  | cons k rest ih =>
    rw [planDeletes] at h
    dsimp only at h
    obtain ⟨hcheck, h⟩ := yields_check.1 h
    have hfits : DeleteFits baseBytes k := by
      simp only [Bool.or_eq_true, decide_eq_true_eq, not_or, not_lt] at hcheck
      exact hcheck
    change Yields (if s.deleteFull k = true then _ else _) b r b' at h
    rw [spreadDeletes, spread]
    by_cases hfull : s.deleteFull k = true
    · rw [if_pos hfull] at h ⊢
      obtain ⟨⟨⟩, b₁, hpush, h⟩ := yields_bind.1 h
      obtain ⟨e, rfl, hpushes⟩ := pushes_pushRelay hpush
      obtain ⟨hrest, hrow, es, hes, hmore⟩ := @ih (e.sized.startDelete baseBytes k) b₁ h
      refine ⟨List.forall_mem_cons.2 ⟨hfits, hrest⟩, hrow, e :: es, ?_, hpushes.trans hmore⟩
      rw [List.map_cons, hes]
      rfl
    · rw [if_neg hfull] at h ⊢
      obtain ⟨hrest, hmore⟩ := @ih (s.addDelete k) b h
      exact ⟨List.forall_mem_cons.2 ⟨hfits, hrest⟩, hmore⟩

end OutboxBuilder

/-! ### What the rows are like -/

/-- The estimate is that of the row's operations, and within the bounds on rows. -/
structure Sized.Within (atMs : UInt64) (target : Partition) (baseBytes : ℕ) (s : Sized) :
    Prop where
  atMs : s.row.atMs = atMs
  target : s.row.target = target
  estimate : s.encodedBytes = baseBytes + opsEstimate s.row.puts s.row.deletes
  bytes : s.encodedBytes ≤ MAX_VALUE_BYTES
  ops : s.row.puts.length + s.row.deletes.length ≤ MAX_RELAY_PUTS

/-- The row holds an operation. -/
def Sized.Holds (s : Sized) : Prop :=
  s.row.puts ≠ [] ∨ s.row.deletes ≠ []

section Within

variable {atMs : UInt64} {target : Partition} {baseBytes : ℕ} {s : Sized}

theorem not_rowFull {row : RelayV1} {encodedBytes addition : ℕ}
    (h : OutboxBuilder.rowFull row encodedBytes addition = false) :
    row.puts.length + row.deletes.length ≠ MAX_RELAY_PUTS ∧
      encodedBytes + addition ≤ MAX_VALUE_BYTES := by
  simp only [OutboxBuilder.rowFull, Bool.or_eq_false_iff, beq_eq_false_iff_ne,
    decide_eq_false_iff_not, not_lt] at h
  exact ⟨h.1.1, h.1.2⟩

/-- An operation that fits a row of its own is not too much for an empty one. -/
theorem Sized.Within.holds_of_full (h : s.Within atMs target baseBytes) {addition : ℕ}
    (hfits : s.row.puts = [] → s.row.deletes = [] → baseBytes + addition ≤ MAX_VALUE_BYTES)
    (hfull : OutboxBuilder.rowFull s.row s.encodedBytes addition = true) : s.Holds := by
  by_contra hempty
  rw [Sized.Holds, not_or, not_not, not_not] at hempty
  have hle := hfits hempty.1 hempty.2
  have hbytes : s.encodedBytes = baseBytes := by
    rw [h.estimate, hempty.1, hempty.2]
    rfl
  simp only [OutboxBuilder.rowFull, hempty.1, hempty.2, hbytes, List.length_nil, MAX_RELAY_PUTS,
    MAX_VALUE_BYTES, MAX_BATCH_BYTES, MAX_KEY_BYTES, Bool.or_eq_true, decide_eq_true_eq,
    beq_iff_eq] at hfull hle
  omega

theorem opsEstimate_put (puts : List (Key × Value)) (p : Key × Value) (deletes : List Key) :
    opsEstimate (puts ++ [p]) deletes =
      opsEstimate puts deletes + (putSize p + if puts.isEmpty then 0 else 1) := by
  simp only [opsEstimate, List.map_append, List.sum_append, List.length_append, List.map_cons,
    List.map_nil, List.sum_singleton, List.length_singleton]
  cases puts with
  | nil =>
    simp only [List.map_nil, List.sum_nil, List.length_nil, List.isEmpty_nil, if_true]
    omega
  | cons q puts =>
    simp only [List.length_cons, List.isEmpty_cons, Bool.false_eq_true, if_false]
    omega

theorem opsEstimate_delete (puts : List (Key × Value)) (deletes : List Key) (k : Key) :
    opsEstimate puts (deletes ++ [k]) = opsEstimate puts deletes +
      (deleteSize k + if deletes.isEmpty then RELAY_DELETE_FIELD_BYTES else 1) := by
  cases deletes with
  | nil =>
    simp only [opsEstimate, List.nil_append, List.isEmpty_cons, List.isEmpty_nil, if_true,
      Bool.false_eq_true, if_false, List.map_cons, List.map_nil, List.sum_singleton,
      List.length_singleton]
    omega
  | cons q deletes =>
    simp only [opsEstimate, List.cons_append, List.isEmpty_cons, Bool.false_eq_true, if_false,
      List.map_cons, List.map_append, List.map_nil, List.sum_cons, List.sum_append, List.sum_nil,
      List.length_cons, List.length_append, List.length_nil]
    omega

/-- Rows of fitting upserts are within their bounds, and hold an operation when they close. -/
theorem within_spreadPuts (hs : s.Within atMs target baseBytes) (hnone : s.row.deletes = [])
    {puts : List (Key × Value)} (hputs : ∀ p ∈ puts, OutboxBuilder.PutFits baseBytes p) :
    (∀ c ∈ (spreadPuts baseBytes s puts).1, c.Within atMs target baseBytes ∧ c.Holds) ∧
      (spreadPuts baseBytes s puts).2.Within atMs target baseBytes := by
  suffices hall : (∀ c ∈ (spreadPuts baseBytes s puts).1,
      c.Within atMs target baseBytes ∧ c.Holds) ∧
        (spreadPuts baseBytes s puts).2.Within atMs target baseBytes ∧
          (spreadPuts baseBytes s puts).2.row.deletes = [] from ⟨hall.1, hall.2.1⟩
  refine spread_keeps (I := fun s : Sized => s.Within atMs target baseBytes ∧ s.row.deletes = [])
    (P := OutboxBuilder.PutFits baseBytes) ?_ ?_ ⟨hs, hnone⟩ hputs
  · rintro s p ⟨hs, hnone⟩ hp hfull
    refine ⟨⟨hs, hs.holds_of_full (fun hputs _ => ?_) hfull⟩, ?_, hnone⟩
    · rw [Sized.putAddition, hputs, List.isEmpty_nil, if_pos rfl, Nat.add_zero]
      exact hp.2
    · exact {
        atMs := hs.atMs
        target := hs.target
        estimate := by
          change baseBytes + putSize p = baseBytes + opsEstimate [p] s.row.deletes
          have hone := opsEstimate_put [] p []
          rw [List.nil_append, List.isEmpty_nil, if_pos rfl, Nat.add_zero] at hone
          rw [hnone, hone]
          exact congrArg _ (Nat.zero_add _).symm
        bytes := hp.2
        ops := by
          change 1 + s.row.deletes.length ≤ MAX_RELAY_PUTS
          rw [hnone]
          decide }
  · rintro s p ⟨hs, hnone⟩ hp hfull
    obtain ⟨hops, hbytes⟩ := not_rowFull hfull
    exact ⟨{
      atMs := hs.atMs
      target := hs.target
      estimate := by
        change s.encodedBytes + s.putAddition p =
          baseBytes + opsEstimate (s.row.puts ++ [p]) s.row.deletes
        rw [opsEstimate_put, hs.estimate, Nat.add_assoc]
        rfl
      bytes := hbytes
      ops := by
        have hle := hs.ops
        change (s.row.puts ++ [p]).length + s.row.deletes.length ≤ _
        rw [List.length_append, List.length_singleton]
        omega }, hnone⟩

/-- Rows of fitting deletes are within their bounds, and hold an operation when they close. -/
theorem within_spreadDeletes (hs : s.Within atMs target baseBytes) {deletes : List Key}
    (hdeletes : ∀ k ∈ deletes, OutboxBuilder.DeleteFits baseBytes k) :
    (∀ c ∈ (spreadDeletes baseBytes s deletes).1, c.Within atMs target baseBytes ∧ c.Holds) ∧
      (spreadDeletes baseBytes s deletes).2.Within atMs target baseBytes := by
  refine spread_keeps (P := OutboxBuilder.DeleteFits baseBytes) ?_ ?_ hs hdeletes
  · intro s k hs hk hfull
    have hle : baseBytes + (deleteSize k + RELAY_DELETE_FIELD_BYTES) ≤ MAX_VALUE_BYTES := by
      have hfits := hk.2
      omega
    refine ⟨⟨hs, hs.holds_of_full (fun _ hnone => ?_) hfull⟩, ?_⟩
    · rw [Sized.deleteAddition, hnone, List.isEmpty_nil, if_pos rfl]
      exact hle
    · exact {
        atMs := hs.atMs
        target := hs.target
        estimate := by
          change baseBytes + deleteSize k + RELAY_DELETE_FIELD_BYTES =
            baseBytes + opsEstimate [] [k]
          have hone := opsEstimate_delete [] [] k
          rw [List.nil_append, List.isEmpty_nil, if_pos rfl] at hone
          rw [hone, Nat.add_assoc]
          exact congrArg _ (Nat.zero_add _).symm
        bytes := by
          change baseBytes + deleteSize k + RELAY_DELETE_FIELD_BYTES ≤ _
          omega
        ops := by
          change 0 + 1 ≤ MAX_RELAY_PUTS
          decide }
  · intro s k hs hk hfull
    obtain ⟨hops, hbytes⟩ := not_rowFull hfull
    exact {
      atMs := hs.atMs
      target := hs.target
      estimate := by
        change s.encodedBytes + s.deleteAddition k =
          baseBytes + opsEstimate s.row.puts (s.row.deletes ++ [k])
        rw [opsEstimate_delete, hs.estimate, Nat.add_assoc]
        rfl
      bytes := hbytes
      ops := by
        have hle := hs.ops
        change s.row.puts.length + (s.row.deletes ++ [k]).length ≤ _
        rw [List.length_append, List.length_singleton]
        omega }

end Within

/-! ### What is written for a target -/

/-- The upserts collected for a target. -/
def putsOf (operations : SortedMap Key (Option Value)) : List (Key × Value) :=
  operations.entries.filterMap fun p => p.2.map fun v => (p.1, v)

/-- The deletes collected for a target. -/
def deletesOf (operations : SortedMap Key (Option Value)) : List Key :=
  (operations.entries.filter fun p => p.2.isNone).map Prod.fst

/-- A written row: its operations fit one row, and its encoding is no larger than estimated. -/
structure Emission.Sound (S : Serde) (target : Partition) (e : Emission) : Prop where
  encoded : encodeRelay S e.row = .ok e.value
  target : e.row.target = target
  holds : e.row.puts ≠ [] ∨ e.row.deletes ≠ []
  ops : e.row.puts.length + e.row.deletes.length ≤ MAX_RELAY_PUTS
  size : e.value.length ≤ e.sized.encodedBytes
  bytes : e.sized.encodedBytes ≤ MAX_VALUE_BYTES
  /-- Byte strings take twice their length. -/
  half : 2 * ((e.row.puts.map fun p => p.1.length + p.2.length).sum +
    (e.row.deletes.map List.length).sum) ≤ MAX_VALUE_BYTES

/-- The rows written for the operations of a target. -/
structure Emits (S : Serde) (atMs : UInt64) (t : Partition × SortedMap Key (Option Value))
    (es : List Emission) : Prop where
  /-- The rows, and what they were estimated at, are those of spreading the operations. -/
  spread : ∃ base, encodeRelay S ⟨atMs, t.1, [], []⟩ = .ok base ∧
    es.map Emission.sized = spreadRows atMs t.1 base.length (putsOf t.2) (deletesOf t.2)
  /-- Every upsert is in one row. -/
  puts : es.flatMap (fun e => e.row.puts) = putsOf t.2
  /-- Every delete is in one row. -/
  deletes : es.flatMap (fun e => e.row.deletes) = deletesOf t.2
  sound : ∀ e ∈ es, e.Sound S t.1

section Rows

variable {atMs : UInt64} {target : Partition} {baseBytes : ℕ}

theorem flatMap_spreadPuts (s : Sized) (puts : List (Key × Value)) :
    (spreadPuts baseBytes s puts).1.flatMap (fun c => c.row.puts) ++
      (spreadPuts baseBytes s puts).2.row.puts = s.row.puts ++ puts := by
  have h := @spread_flatMap _ _ _ Sized.putFull (Sized.startPut baseBytes) Sized.addPut s puts
    (fun c => c.row.puts) (fun p => [p]) (fun _ _ => rfl) fun _ _ => rfl
  rwa [List.flatMap_singleton'] at h

theorem flatMap_spreadPuts_deletes (s : Sized) (hs : s.row.deletes = [])
    (puts : List (Key × Value)) :
    (spreadPuts baseBytes s puts).1.flatMap (fun c => c.row.deletes) = [] ∧
      (spreadPuts baseBytes s puts).2.row.deletes = [] := by
  have hkeep : (∀ c ∈ (spreadPuts baseBytes s puts).1, c.row.deletes = []) ∧
      (spreadPuts baseBytes s puts).2.row.deletes = [] :=
    spread_keeps (I := fun c : Sized => c.row.deletes = []) (P := fun _ => True)
      (fun _ _ hc _ _ => ⟨hc, hc⟩) (fun _ _ hc _ _ => hc) hs fun _ _ => trivial
  exact ⟨List.flatMap_eq_nil_iff.2 hkeep.1, hkeep.2⟩

theorem flatMap_spreadDeletes (s : Sized) (deletes : List Key) :
    (spreadDeletes baseBytes s deletes).1.flatMap (fun c => c.row.deletes) ++
      (spreadDeletes baseBytes s deletes).2.row.deletes = s.row.deletes ++ deletes := by
  have h := @spread_flatMap _ _ _ Sized.deleteFull (Sized.startDelete baseBytes) Sized.addDelete s
    deletes (fun c => c.row.deletes) (fun k => [k]) (fun _ _ => rfl) fun _ _ => rfl
  rwa [List.flatMap_singleton'] at h

theorem flatMap_spreadDeletes_puts (s : Sized) (deletes : List Key) :
    (spreadDeletes baseBytes s deletes).1.flatMap (fun c => c.row.puts) ++
      (spreadDeletes baseBytes s deletes).2.row.puts = s.row.puts := by
  have h := @spread_flatMap _ _ _ Sized.deleteFull (Sized.startDelete baseBytes) Sized.addDelete s
    deletes (fun c => c.row.puts) (fun _ => []) (fun _ _ => rfl)
    fun _ _ => (List.append_nil _).symm
  rwa [List.flatMap_eq_nil_iff.2 fun _ _ => rfl, List.append_nil] at h

/-- The rows of a target hold its operations in their order. -/
theorem flatMap_spreadRows (puts : List (Key × Value)) (deletes : List Key) :
    (spreadRows atMs target baseBytes puts deletes).flatMap (fun c => c.row.puts) = puts ∧
      (spreadRows atMs target baseBytes puts deletes).flatMap (fun c => c.row.deletes) =
        deletes := by
  have hputs := @flatMap_spreadPuts baseBytes ⟨⟨atMs, target, [], []⟩, baseBytes⟩ puts
  obtain ⟨hnone, hopen⟩ :=
    @flatMap_spreadPuts_deletes baseBytes ⟨⟨atMs, target, [], []⟩, baseBytes⟩ rfl puts
  have hdeletes := @flatMap_spreadDeletes baseBytes
    (spreadPuts baseBytes ⟨⟨atMs, target, [], []⟩, baseBytes⟩ puts).2 deletes
  have hkept := @flatMap_spreadDeletes_puts baseBytes
    (spreadPuts baseBytes ⟨⟨atMs, target, [], []⟩, baseBytes⟩ puts).2 deletes
  simp only [spreadRows, List.flatMap_append, List.flatMap_singleton]
  constructor
  · rw [List.append_assoc, hkept, hputs, List.nil_append]
  · rw [hnone, List.nil_append, hdeletes, hopen, List.nil_append]

/-- Every row of a target is within its bounds and holds an operation. -/
theorem within_spreadRows {puts : List (Key × Value)} {deletes : List Key}
    (hbase : baseBytes ≤ MAX_VALUE_BYTES) (hputs : ∀ p ∈ puts, OutboxBuilder.PutFits baseBytes p)
    (hdeletes : ∀ k ∈ deletes, OutboxBuilder.DeleteFits baseBytes k)
    (hne : puts ≠ [] ∨ deletes ≠ []) : ∀ c ∈ spreadRows atMs target baseBytes puts deletes,
      c.Within atMs target baseBytes ∧ c.Holds := by
  have hfirst : Sized.Within atMs target baseBytes ⟨⟨atMs, target, [], []⟩, baseBytes⟩ :=
    ⟨rfl, rfl, rfl, hbase, Nat.zero_le _⟩
  obtain ⟨hclosed, hopen⟩ := within_spreadPuts hfirst rfl hputs
  obtain ⟨hclosed', hlast⟩ := within_spreadDeletes hopen hdeletes
  have hholds : (spreadDeletes baseBytes
      (spreadPuts baseBytes ⟨⟨atMs, target, [], []⟩, baseBytes⟩ puts).2 deletes).2.Holds := by
    refine spread_last (fun _ _ => .inr (List.cons_ne_nil _ _))
      (fun _ _ => .inr (List.append_ne_nil_of_right_ne_nil _ (List.cons_ne_nil _ _)))
      (hne.imp_left fun hputs => ?_)
    exact spread_last (C := Sized.Holds) (fun _ _ => .inl (List.cons_ne_nil _ _))
      (fun _ _ => .inl (List.append_ne_nil_of_right_ne_nil _ (List.cons_ne_nil _ _)))
      (.inr hputs)
  intro c hc
  simp only [spreadRows, List.mem_append, List.mem_singleton] at hc
  rcases hc with (hc | hc) | rfl
  · exact hclosed c hc
  · exact hclosed' c hc
  · exact ⟨hlast, hholds⟩

end Rows

/-- What the operations of a row take in their own bytes. -/
theorem two_mul_bytes_le (puts : List (Key × Value)) (deletes : List Key) :
    2 * ((puts.map fun p => p.1.length + p.2.length).sum + (deletes.map List.length).sum) +
      deletes.length ≤ opsEstimate puts deletes := by
  have hputs : 2 * (puts.map fun p => p.1.length + p.2.length).sum ≤ (puts.map putSize).sum := by
    induction puts with
    | nil => exact le_rfl
    | cons p puts ih =>
      simp only [List.map_cons, List.sum_cons, putSize]
      omega
  have hdeletes : 2 * (deletes.map List.length).sum + deletes.length ≤
      (deletes.map deleteSize).sum := by
    induction deletes with
    | nil => exact le_rfl
    | cons k deletes ih =>
      simp only [List.map_cons, List.sum_cons, List.length_cons, deleteSize]
      omega
  rw [opsEstimate]
  split
  case isTrue hempty =>
    rw [List.isEmpty_iff.1 hempty, List.map_nil, List.sum_nil, List.length_nil]
    omega
  case isFalse => omega

theorem length_le_of_encodeRelay {row : RelayV1} {value : Value}
    (h : encodeRelay S row = .ok value) : value.length ≤ MAX_VALUE_BYTES := by
  rw [encodeRelay] at h
  obtain ⟨-, h⟩ := Wire.check_eq_ok.1 h
  obtain ⟨target, -, h⟩ := Wire.bind_eq_ok.1 h
  obtain ⟨hlen, h⟩ := Wire.check_eq_ok.1 h
  obtain ⟨-, h⟩ := Wire.check_eq_ok.1 h
  rw [← Except.ok.inj h]
  exact not_lt.1 hlen

/-- A row within its bounds that is written is no larger than estimated. -/
theorem Sized.Within.sound (hS : S.WritesJson) {atMs : UInt64} {target : Partition} {base : Value}
    {e : Emission} (hbase : encodeRelay S ⟨atMs, target, [], []⟩ = .ok base)
    (h : e.sized.Within atMs target base.length) (hholds : e.sized.Holds)
    (hencoded : encodeRelay S e.row = .ok e.value) : e.Sound S target := by
  have hrow : encodeRelay S ⟨atMs, target, e.row.puts, e.row.deletes⟩ = .ok e.value := by
    rw [← h.atMs, ← h.target]
    exact hencoded
  have hlen := length_encodeRelay hS hbase hrow
  have hestimate : e.sized.encodedBytes = base.length + opsEstimate e.row.puts e.row.deletes :=
    h.estimate
  have hbytes := h.bytes
  have htwo := two_mul_bytes_le e.row.puts e.row.deletes
  exact {
    encoded := hencoded
    target := h.target
    holds := hholds
    ops := h.ops
    size := by omega
    bytes := hbytes
    half := by omega }

namespace OutboxBuilder

/-- The rows of a target. -/
theorem emits_planRelayRows (hS : S.WritesJson) {target : Partition}
    {operations : SortedMap Key (Option Value)} {due : UInt64} {b b' : OutboxBuilder}
    (hne : operations.entries ≠ []) (h : Yields (planRelayRows S target operations) b due b') :
    ∃ es, Pushes S b es b' ∧ b.relayAtMs = some due ∧ Emits S due (target, operations) es := by
  rw [planRelayRows, yields_get_bind] at h
  split at h
  · simp at h
  · rename_i atMs hat
    obtain ⟨base, hbase, h⟩ := yields_liftExcept_bind.1 h
    obtain ⟨r, b₁, hputs, h⟩ := yields_bind.1 h
    obtain ⟨row, b₂, hdeletes, h⟩ := yields_bind.1 h
    obtain ⟨⟨⟩, b₃, hlast, h⟩ := yields_bind.1 h
    obtain ⟨rfl, rfl⟩ := yields_pure.1 h
    obtain ⟨hfits, hrow, hbytes, es, hes, hpushes⟩ :=
      @pushes_planPuts S base.length (putsOf operations) ⟨⟨atMs, target, [], []⟩, base.length⟩ _ _ _
        hputs
    rw [hrow, hbytes] at hdeletes
    obtain ⟨hfits', rfl, es', hes', hpushes'⟩ := pushes_planDeletes hdeletes
    obtain ⟨e, he, hpush⟩ := pushes_pushRelay hlast
    have hall := (hpushes.trans hpushes').trans hpush
    have hspread : (es ++ es' ++ [e]).map Emission.sized =
        spreadRows atMs target base.length (putsOf operations) (deletesOf operations) := by
      rw [List.map_append, List.map_append, hes, hes', List.map_singleton, he]
      rfl
    have hsome : putsOf operations ≠ [] ∨ deletesOf operations ≠ [] := by
      obtain ⟨⟨k, op⟩, rest, hentries⟩ := List.exists_cons_of_ne_nil hne
      cases op with
      | some v =>
        left
        simp [putsOf, hentries]
      | none =>
        right
        simp [deletesOf, hentries]
    obtain ⟨hp, hd⟩ := @flatMap_spreadRows atMs target base.length (putsOf operations)
      (deletesOf operations)
    have hwithin := @within_spreadRows atMs target base.length _ _
      (length_le_of_encodeRelay hbase) hfits hfits' hsome
    refine ⟨es ++ es' ++ [e], hall, hat, ⟨base, hbase, hspread⟩, ?_, ?_, fun i hi => ?_⟩
    · rw [← hspread, List.flatMap_map] at hp
      exact hp
    · rw [← hspread, List.flatMap_map] at hd
      exact hd
    · have hmem : i.sized ∈ spreadRows atMs target base.length (putsOf operations)
          (deletesOf operations) := by
        rw [← hspread]
        exact List.mem_map_of_mem hi
      obtain ⟨hin, hholds⟩ := hwithin _ hmem
      exact hin.sound hS hbase hholds (hall.encoded i hi)

/-- The rows of every target. -/
theorem emits_planRelays (hS : S.WritesJson)
    {targets : List (Partition × SortedMap Key (Option Value))} {due due' : Option UInt64}
    {b b' : OutboxBuilder} (h : Yields (planRelays S due targets) b due' b') :
    ∃ ess : List (List Emission), Pushes S b ess.flatten b' ∧
      List.Forall₂ (fun t es => ∃ atMs, b.relayAtMs = some atMs ∧ Emits S atMs t es)
        (targets.filter fun t => !t.2.entries.isEmpty) ess := by
  induction targets generalizing due b with
  | nil =>
    obtain ⟨-, rfl⟩ := yields_pure.1 h
    exact ⟨[], Pushes.refl b, .nil⟩
  | cons t rest ih =>
    obtain ⟨target, operations⟩ := t
    rw [planRelays] at h
    cases hempty : operations.entries.isEmpty with
    | true =>
      rw [hempty, if_pos rfl] at h
      rw [List.filter_cons_of_neg (by simp [hempty])]
      exact ih h
    | false =>
      rw [hempty, if_neg (by decide)] at h
      obtain ⟨atMs, b₁, hrows, h⟩ := yields_bind.1 h
      obtain ⟨es, hpushes, hat, hemits⟩ := emits_planRelayRows hS
        (List.isEmpty_eq_false_iff.1 hempty) hrows
      obtain ⟨ess, hmore, hess⟩ := ih h
      obtain ⟨seq, touched, rfl⟩ := hpushes.rest
      rw [List.filter_cons_of_pos (by simp [hempty])]
      exact ⟨es :: ess, hpushes.trans hmore, .cons ⟨atMs, hat, hemits⟩ hess⟩

/-- What a finishing builder writes for its targets: the rows of each, in order, and nothing else
of the relay's. -/
theorem emits_tryFinish (hS : S.WritesJson) {b : OutboxBuilder} {plan plan' : Plan} {u : Unit}
    (h : exec (b.tryFinish S) plan = (.ok u, plan')) : ∃ ess : List (List Emission), List.Forall₂
        (fun t es => ∃ atMs, b.relayAtMs = some atMs ∧ Emits S atMs t es)
        (b.relays.entries.filter fun t => !t.2.entries.isEmpty) ess ∧
      (ess.flatten.map fun e => e.seq.toNat) = List.range' (b.seq.toNat + 1) ess.flatten.length ∧
      ∃ rest, plan'.writes =
          plan.writes ++ (b.writes ++ ess.flatten.map Emission.write ++ rest) ∧
        ∀ w ∈ rest, keys.ofClass keys.TAG_RELAY w.key = false := by
  obtain ⟨batch, hbatch, rfl⟩ := tryFinish_eq_ok.1 h
  obtain ⟨-, -, due, b', hrelays, -, -, rfl, -⟩ := assemble_eq_ok.1 hbatch
  obtain ⟨ess, hpushes, hess⟩ := emits_planRelays hS hrelays
  obtain ⟨seq, touched, rfl⟩ := hpushes.rest
  refine ⟨ess, hess, hpushes.numbers, (kickTimers RELAY due).map (fun k => .put k []) ++
    (rowWrite touched keys.outboxSequence (encodeU64 seq) ++
      (rowWrite b.backlogTouched keys.outcomeBacklog (encodeBacklog S b.backlog) ++
        (kickTimers OUTCOME_DELIVERY b.kickAtMs).map fun k => .put k [])), ?_, fun w hw => ?_⟩
  · simp only [finished, List.append_assoc]
  · have htimer : ∀ kind due, ∀ k ∈ kickTimers kind due, keys.ofClass keys.TAG_RELAY k = false :=
      fun kind due k hk =>
        (keys.ofClass_of_class (by decide) (by decide) (ofClass_kickTimers k hk)).trans (by decide)
    simp only [rowWrite, List.mem_append, List.mem_ite_nil_right, List.mem_singleton,
      List.mem_map] at hw
    rcases hw with ⟨k, hk, rfl⟩ | ⟨-, rfl⟩ | ⟨-, rfl⟩ | ⟨k, hk, rfl⟩
    · exact htimer _ _ k hk
    · exact (by decide : keys.ofClass keys.TAG_RELAY keys.outboxSequence = false)
    · exact (by decide : keys.ofClass keys.TAG_RELAY keys.outcomeBacklog = false)
    · exact htimer _ _ k hk

end OutboxBuilder

end Mkit.Server
