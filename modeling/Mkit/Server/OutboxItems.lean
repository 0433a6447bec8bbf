import Mkit.Server.Outbox

/-!
# What a Builder Plans

A builder without an error is the list of the entries it has planned, in order (`Shape`): rows
that hold a reservation, terminal rows with their index, relay rows and timers. No reservation id
occurs twice, the sequences ascend from the snapshot's, and the backlog is the snapshot's plus
the terminal rows. Every method keeps this (`Built.shape`), and a finished builder's fragment is
its entries followed by the rows of the sequence and the backlog (`assemble_spec`).
-/

namespace Mkit.Server

open Effect

variable {S : Serde}

/-- `o 00 <rid>`. -/
def rowKey (rid : Bytes) : Key :=
  keys.key keys.TAG_RESERVATION [rid]

/-- `oq 00 <seq> <rid>`. -/
def indexKey (seq : UInt64) (rid : Bytes) : Key :=
  keys.key keys.TAG_OUTCOME_PENDING [keys.be64 seq, rid]

/-! ### Classes of the keys -/

theorem ofClass_rowKey (rid : Bytes) : keys.ofClass keys.TAG_RESERVATION (rowKey rid) = true :=
  keys.ofClass_key (by decide) (by decide) _

theorem not_index_rowKey (rid : Bytes) :
    keys.ofClass keys.TAG_OUTCOME_PENDING (rowKey rid) = false :=
  keys.ofClass_key (by decide) (by decide) _

theorem ofClass_indexKey (seq : UInt64) (rid : Bytes) :
    keys.ofClass keys.TAG_OUTCOME_PENDING (indexKey seq rid) = true :=
  keys.ofClass_key (by decide) (by decide) _

theorem not_row_indexKey (seq : UInt64) (rid : Bytes) :
    keys.ofClass keys.TAG_RESERVATION (indexKey seq rid) = false :=
  keys.ofClass_key (by decide) (by decide) _

variable {k : Key}

/-- Every key of the reservation class is a row key. -/
theorem eq_rowKey_of_class (h : keys.ofClass keys.TAG_RESERVATION k = true) :
    ∃ rid, k = rowKey rid := by
  obtain ⟨rest, rfl⟩ := List.isPrefixOf_iff_prefix.1 h
  exact ⟨rest, by simp [rowKey, keys.key]⟩

theorem rowKey_injective : Function.Injective rowKey := fun _ _ h =>
  keys.reservation_key_inj h

theorem indexKey_inj {seq seq' : UInt64} {rid rid' : Bytes}
    (h : indexKey seq rid = indexKey seq' rid') : seq = seq' ∧ rid = rid' :=
  keys.pending_key_inj h

theorem rowKey_ne_indexKey (rid rid' : Bytes) (seq : UInt64) : rowKey rid ≠ indexKey seq rid' :=
  fun h => by
    have hclass := ofClass_rowKey rid
    rw [h, not_row_indexKey] at hclass
    cases hclass

/-- A key of neither the reservations nor their index. -/
def Outside (k : Key) : Prop :=
  keys.ofClass keys.TAG_RESERVATION k = false ∧ keys.ofClass keys.TAG_OUTCOME_PENDING k = false

theorem Outside.ne_rowKey (h : Outside k) (rid : Bytes) : rowKey rid ≠ k := by
  rintro rfl
  rw [Outside, ofClass_rowKey] at h
  cases h.1

theorem Outside.ne_indexKey (h : Outside k) (seq : UInt64) (rid : Bytes) :
    indexKey seq rid ≠ k := by
  rintro rfl
  rw [Outside, ofClass_indexKey] at h
  cases h.2

theorem outside_sequence : Outside keys.outboxSequence := ⟨by decide, by decide⟩

theorem outside_backlog : Outside keys.outcomeBacklog := ⟨by decide, by decide⟩

theorem outside_relay (seq : UInt64) : Outside (keys.relay seq) :=
  ⟨keys.ofClass_key (by decide) (by decide) _, keys.ofClass_key (by decide) (by decide) _⟩

/-- A key of another class is outside. -/
theorem outside_of_class {tag : Bytes} (htag : 0 ∉ tag)
    (hrow : tag ≠ keys.TAG_RESERVATION) (hindex : tag ≠ keys.TAG_OUTCOME_PENDING)
    (h : keys.ofClass tag k = true) : Outside k := by
  rw [Outside, keys.ofClass_of_class (by decide) htag h, keys.ofClass_of_class (by decide) htag h]
  exact ⟨decide_eq_false hrow.symm, decide_eq_false hindex.symm⟩

theorem outside_timer (h : keys.ofClass keys.TAG_TIMER k = true) : Outside k :=
  outside_of_class (by decide) (by decide) (by decide) h

theorem ofClass_timer (dueAtMs : UInt64) (kind : UInt8) (reference : Bytes) :
    keys.ofClass keys.TAG_TIMER (keys.timer dueAtMs kind reference) = true :=
  keys.ofClass_key (by decide) (by decide) _

/-! ### Entries -/

/-- Is the value a terminal row? -/
def terminalValue (S : Serde) (value : Value) : Bool :=
  match decodeReservation S value with
  | .ok record => record.isTerminal
  | .error _ => false

/-- The sequence a row of `os` stands for. -/
def sequenceOf (os : Option Value) : UInt64 :=
  match decodeOr decodeU64 0 os with
  | .ok seq => seq
  | .error _ => 0

/-- The backlog a row of `oc` stands for. -/
def counterOf (S : Serde) (oc : Option Value) : Except StoreError Backlog :=
  decodeOr (decodeBacklog S) .zero oc

/-- What a builder plans, one entry at a time. -/
inductive Item where
  /-- A ticketed or pending row in the place of a prior one. -/
  | held (rid : Bytes) (prior : Option Value) (value : Value)
  /-- A terminal row in the place of a prior one, with its index. -/
  | queued (rid : Bytes) (prior : Option Value) (value : Value) (seq : UInt64)
  /-- A relay row. -/
  | relayed (seq : UInt64) (value : Value)
  /-- A timer. -/
  | woken (k : Key)

namespace Item

def pre : Item → List Precondition
  | .held rid prior _ | .queued rid prior _ _ => [guardOf (rowKey rid) prior]
  | .relayed .. | .woken _ => []

def writes : Item → List Write
  | .held rid _ value => [.put (rowKey rid) value]
  | .queued rid _ value seq => [.put (rowKey rid) value, .put (indexKey seq rid) []]
  | .relayed seq value => [.put (keys.relay seq) value]
  | .woken k => [.put k []]

/-- The reservation id the entry writes. -/
def rid? : Item → Option Bytes
  | .held rid _ _ | .queued rid _ _ _ => some rid
  | .relayed .. | .woken _ => none

/-- The sequence the entry takes. -/
def seq? : Item → Option UInt64
  | .queued _ _ _ seq | .relayed seq _ => some seq
  | .held .. | .woken _ => none

/-- The terminal rows the entry adds: one or none. -/
def rows : Item → ℕ
  | .queued .. => 1
  | _ => 0

/-- The bytes of the terminal row the entry adds. -/
def bytes : Item → ℕ
  | .queued rid _ value _ => (rowKey rid).length + value.length
  | _ => 0

/-- The entry replaces no terminal row, and writes one exactly when it is queued. -/
def Sound (S : Serde) : Item → Prop
  | .held _ prior value => prior.all (!terminalValue S ·) = true ∧ terminalValue S value = false
  | .queued _ prior value _ => prior.all (!terminalValue S ·) = true ∧ terminalValue S value = true
  | .relayed .. => True
  | .woken k => keys.ofClass keys.TAG_TIMER k = true

end Item

/-- Is the entry a relay row? -/
def Item.isRelayed : Item → Bool
  | .relayed .. => true
  | _ => false

/-- A storage change that an outcome reports. -/
structure StorageChange where
  repository : Str
  storedBytes : UInt64
  version : UInt64
deriving DecidableEq

/-- The storage change a row reports, if it reports one. -/
def changeOf (S : Serde) (value : Value) : Option StorageChange :=
  match decodeReservation S value with
  | .ok (.repoStorageChanged repository _ storedBytes version) =>
    some ⟨repository, storedBytes, version⟩
  | _ => none

/-- The storage changes that a batch reports, in the order of its writes. -/
def changesOf (S : Serde) (writes : List Write) : List StorageChange :=
  writes.filterMap fun w => match w with
    | .put k v => if keys.ofClass keys.TAG_RESERVATION k then changeOf S v else none
    | _ => none

/-- The reservation ids of a list of entries. -/
def ridsOf (items : List Item) : List Bytes :=
  items.filterMap Item.rid?

/-- The sequences of a list of entries. -/
def seqsOf (items : List Item) : List UInt64 :=
  items.filterMap Item.seq?

theorem mem_filterMap_singleton {α β : Type} {f : α → Option β} {a : α} {b : β} :
    b ∈ [a].filterMap f ↔ f a = some b := by
  simp [List.mem_filterMap]

theorem changesOf_append (ws ws' : List Write) :
    changesOf S (ws ++ ws') = changesOf S ws ++ changesOf S ws' :=
  List.filterMap_append

/-- Writes outside the reservations report nothing. -/
theorem changesOf_eq_nil {ws : List Write}
    (h : ∀ w ∈ ws, keys.ofClass keys.TAG_RESERVATION w.key = false) : changesOf S ws = [] := by
  refine List.filterMap_eq_nil_iff.2 fun w hw => ?_
  cases w with
  | put k v => exact if_neg (by simpa [Write.key] using h _ hw)
  | delete => rfl
  | increment => rfl

theorem changesOf_row (rid : Bytes) (value : Value) :
    changesOf S [.put (rowKey rid) value] = (changeOf S value).toList := by
  simp only [changesOf, List.filterMap_cons, List.filterMap_nil, ofClass_rowKey, if_true]
  cases changeOf S value <;> rfl

theorem changesOf_queued (rid : Bytes) (prior : Option Value) (value : Value) (seq : UInt64) :
    changesOf S (Item.queued rid prior value seq).writes = (changeOf S value).toList := by
  have hwrites : (Item.queued rid prior value seq).writes =
      [.put (rowKey rid) value] ++ [.put (indexKey seq rid) []] := rfl
  have hindex : changesOf S [Write.put (indexKey seq rid) []] = [] :=
    changesOf_eq_nil fun w hw => by
      rw [List.mem_singleton.1 hw]
      exact not_row_indexKey seq rid
  rw [hwrites, changesOf_append, changesOf_row, hindex, List.append_nil]

/-- A builder that plans the entries. -/
structure Shape (S : Serde) (b : OutboxBuilder) (items : List Item) : Prop where
  pre : b.pre = items.flatMap Item.pre
  writes : b.writes = items.flatMap Item.writes
  sound : ∀ i ∈ items, i.Sound S
  rids : (ridsOf items).Nodup
  claimed : ∀ rid ∈ ridsOf items, rid ∈ b.reservations
  ascending : (seqsOf items).Pairwise fun s s' => s.toNat < s'.toNat
  above : ∀ s ∈ seqsOf items, (sequenceOf b.os).toNat < s.toNat ∧ s.toNat ≤ b.seq.toNat
  start : (sequenceOf b.os).toNat ≤ b.seq.toNat
  sequence : seqsOf items ≠ [] → b.sequenceTouched = true
  counted : ∃ start, counterOf S b.oc = .ok start ∧
    b.backlog.rows.toNat = start.rows.toNat + (items.map Item.rows).sum ∧
    b.backlog.bytes.toNat = start.bytes.toNat + (items.map Item.bytes).sum
  touched : (items.map Item.rows).sum ≠ 0 → b.backlogTouched = true

/-- How a builder changes when it plans one more entry. -/
structure Extends (b : OutboxBuilder) (i : Item) (b' : OutboxBuilder) : Prop where
  os : b'.os = b.os
  oc : b'.oc = b.oc
  pre : b'.pre = b.pre ++ i.pre
  writes : b'.writes = b.writes ++ i.writes
  rid : ∀ rid ∈ i.rid?, rid ∉ b.reservations ∧ rid ∈ b'.reservations
  reservations : ∀ rid ∈ b.reservations, rid ∈ b'.reservations
  seq : ∀ s ∈ i.seq?, b.seq.toNat < s.toNat ∧ s.toNat ≤ b'.seq.toNat ∧ b'.sequenceTouched = true
  seqMono : b.seq.toNat ≤ b'.seq.toNat
  sequenceMono : b.sequenceTouched = true → b'.sequenceTouched = true
  rows : b'.backlog.rows.toNat = b.backlog.rows.toNat + i.rows
  bytes : b'.backlog.bytes.toNat = b.backlog.bytes.toNat + i.bytes
  backlogTouched : b.backlogTouched = true ∨ i.rows ≠ 0 → b'.backlogTouched = true

variable {b b' : OutboxBuilder}

theorem Shape.extend {items : List Item} {i : Item} (h : Shape S b items)
    (he : Extends b i b') (hi : i.Sound S) : Shape S b' (items ++ [i]) where
  pre := by simp [he.pre, h.pre]
  writes := by simp [he.writes, h.writes]
  sound := by
    intro j hj
    rcases List.mem_append.1 hj with hj | hj
    · exact h.sound j hj
    · rwa [List.mem_singleton.1 hj]
  rids := by
    rw [ridsOf, List.filterMap_append, List.nodup_append]
    refine ⟨h.rids, ?_, fun rid hrid rid' hrid' => ?_⟩
    · cases hr : i.rid? <;> simp [hr]
    · have hnew := (he.rid rid' (mem_filterMap_singleton.1 hrid')).1
      rintro rfl
      exact hnew (h.claimed rid hrid)
  claimed := by
    intro rid hrid
    rw [ridsOf, List.filterMap_append] at hrid
    rcases List.mem_append.1 hrid with hrid | hrid
    · exact he.reservations rid (h.claimed rid hrid)
    · exact (he.rid rid (mem_filterMap_singleton.1 hrid)).2
  ascending := by
    rw [seqsOf, List.filterMap_append, List.pairwise_append]
    refine ⟨h.ascending, ?_, fun s hs s' hs' => ?_⟩
    · cases hs : i.seq? <;> simp [hs]
    · have hnew := (he.seq s' (mem_filterMap_singleton.1 hs')).1
      have hold := (h.above s hs).2
      omega
  above := by
    intro s hs
    rw [he.os]
    rw [seqsOf, List.filterMap_append] at hs
    rcases List.mem_append.1 hs with hs | hs
    · have hold := h.above s hs
      have hmono := he.seqMono
      omega
    · have hnew := he.seq s (mem_filterMap_singleton.1 hs)
      have hstart := h.start
      omega
  start := by
    rw [he.os]
    exact h.start.trans he.seqMono
  sequence := by
    intro hne
    by_cases hold : seqsOf items = []
    · cases hs : i.seq? with
      | none => exact absurd (by simp [seqsOf, ← hold, hs]) hne
      | some s => exact (he.seq s hs).2.2
    · exact he.sequenceMono (h.sequence hold)
  counted := by
    obtain ⟨start, hstart, hrows, hbytes⟩ := h.counted
    refine ⟨start, he.oc ▸ hstart, ?_, ?_⟩
    · rw [he.rows, hrows]
      simp [Nat.add_assoc]
    · rw [he.bytes, hbytes]
      simp [Nat.add_assoc]
  touched := by
    intro hne
    refine he.backlogTouched ?_
    by_cases hold : (items.map Item.rows).sum = 0
    · right
      intro hi
      exact hne (by simp [hold, hi])
    · exact .inl (h.touched hold)

namespace OutboxBuilder

/-! ### The steps of a method -/

variable {b b' : OutboxBuilder} {u : PUnit}

@[simp] theorem yields_pushPre {p : Precondition} :
    Yields (pushPre p) b u b' ↔ b' = { b with pre := b.pre ++ [p] } := by
  simp [pushPre, yields_bind, eq_comm]

@[simp] theorem yields_pushWrite {w : Write} :
    Yields (pushWrite w) b u b' ↔ b' = { b with writes := b.writes ++ [w] } := by
  simp [pushWrite, yields_bind, eq_comm]

theorem yields_allocate {seq : UInt64} : Yields allocate b seq b' ↔
      seq.toNat = b.seq.toNat + 1 ∧ b' = { b with seq, sequenceTouched := true } := by
  have hone : (1 : UInt64).toNat = 1 := rfl
  rw [allocate, yields_get_bind]
  cases hadd : Words.checkedAdd b.seq 1 with
  | none =>
    have hnone : ∀ seq : UInt64, seq.toNat ≠ b.seq.toNat + 1 := fun seq h => by
      rw [← hone, ← Words.checkedAdd_eq_some, hadd] at h
      cases h
    simp [hnone]
  | some next =>
    have hnext := Words.checkedAdd_eq_some.1 hadd
    rw [hone] at hnext
    rw [yields_set_bind, yields_pure]
    constructor
    · rintro ⟨rfl, rfl⟩
      exact ⟨hnext, rfl⟩
    · rintro ⟨hseq, rfl⟩
      obtain rfl : seq = next := UInt64.toNat_inj.1 (hseq.trans hnext.symm)
      exact ⟨rfl, rfl⟩

theorem yields_claim {rid : Bytes} : Yields (claim rid) b u b' ↔
      rid ∉ b.reservations ∧ b' = { b with reservations := b.reservations.insert rid } := by
  rw [claim, yields_bind]
  by_cases h : rid ∈ b.reservations
  · simp [h]
  · simp [h, eq_comm]

theorem yields_countRow {size : UInt64} : Yields (countRow size) b u b' ↔
      ∃ backlog : Backlog, backlog.rows.toNat = b.backlog.rows.toNat + 1 ∧
        backlog.bytes.toNat = b.backlog.bytes.toNat + size.toNat ∧ b' = { b with backlog } := by
  rw [OutboxBuilder.countRow, yields_get_bind]
  constructor
  · intro h
    cases hrows : Words.checkedAdd b.backlog.rows 1 with
    | none => simp [hrows] at h
    | some rows =>
      rw [hrows, yields_set_bind, yields_get_bind] at h
      cases hbytes : Words.checkedAdd b.backlog.bytes size with
      | none => simp [hbytes] at h
      | some bytes =>
        rw [hbytes, yields_set] at h
        exact ⟨⟨rows, bytes⟩, Words.checkedAdd_eq_some.1 hrows,
          Words.checkedAdd_eq_some.1 hbytes, h.symm⟩
  · rintro ⟨backlog, hrows, hbytes, rfl⟩
    have hrows : Words.checkedAdd b.backlog.rows 1 = some backlog.rows :=
      Words.checkedAdd_eq_some.2 hrows
    rw [hrows, yields_set_bind, yields_get_bind, Words.checkedAdd_eq_some.2 hbytes, yields_set]

theorem yields_touchBacklog {occurredAtMs : UInt64} : Yields (touchBacklog occurredAtMs) b u b' ↔
      b' = { b with
        kickAtMs := if b.oc.isNone && b.kickAtMs.isNone then some occurredAtMs else b.kickAtMs
        backlogTouched := true } := by
  rw [touchBacklog, yields_get_bind, yields_set, eq_comm]

end OutboxBuilder

/-! ### Entries of the methods -/

variable {r : ReservationV1}

theorem length_le_of_decodeReservation {value : Value}
    (h : decodeReservation S value = .ok r) : value.length ≤ MAX_VALUE_BYTES := by
  obtain ⟨⟨⟩, hlimit, -⟩ := Wire.bind_eq_ok.1 h
  rw [checkValueLimit] at hlimit
  split at hlimit
  · cases hlimit
  · omega

theorem terminalValue_of_decode {value : Value}
    (h : decodeReservation S value = .ok r) : terminalValue S value = r.isTerminal := by
  rw [terminalValue, h]

/-- What is written for a record is a terminal row at most when the record is terminal. -/
theorem terminalValue_encodeReservation (h : r.isTerminal = false) :
    terminalValue S (encodeReservation S r) = false := by
  rw [terminalValue]
  split
  case h_1 r' hr' => rw [decodeReservation_encodeReservation hr', h]
  case h_2 => rfl

/-- Does the record report a storage change? -/
def ReservationV1.isStorageChange : ReservationV1 → Bool
  | .repoStorageChanged .. => true
  | _ => false

/-- What is written for any other record reports no storage change. -/
theorem changeOf_encodeReservation (h : r.isStorageChange = false) :
    (changeOf S (encodeReservation S r)).toList = [] := by
  rw [changeOf]
  split
  case h_1 repository at_ stored version hr =>
    rw [← decodeReservation_encodeReservation hr] at h
    cases h
  case h_2 => rfl

theorem Terminal.terminalValue (t : Terminal S) :
    terminalValue S (encodeReservation S t.record) = true := by
  obtain ⟨r, hr⟩ := t.decodes
  rw [terminalValue_of_decode hr, decodeReservation_encodeReservation hr, t.terminal]

theorem length_rowKey_le {rid : Bytes} (h : keys.validateReservationId rid = true) :
    (rowKey rid).length ≤ MAX_KEY_BYTES := by
  simp only [keys.validateReservationId, Bool.and_eq_true, decide_eq_true_eq] at h
  simp only [rowKey, keys.key, keys.TAG_RESERVATION, ascii, MAX_KEY_BYTES, List.length_append,
    List.length_cons, List.map_cons, List.map_nil, List.length_nil, List.flatten_cons,
    List.flatten_nil]
  omega

/-- A prior row that a new reservation may replace is not terminal. -/
theorem prior_of_checkPrior {prior : Option Value} (h : OutboxBuilder.checkPrior S prior = .ok ()) :
    prior.all (!terminalValue S ·) = true := by
  cases prior with
  | none => rfl
  | some value =>
    obtain ⟨r, hr, h⟩ := Wire.bind_eq_ok.1 h
    rw [Option.all_some, terminalValue_of_decode hr]
    cases r with
    | pending => rfl
    | ticketed => rfl
    | _ => cases h

/-- No storage change follows a reservation. -/
theorem not_change_of_permitted {before after : ReservationV1}
    (h : OutboxBuilder.permitted before after = true) : after.isStorageChange = false := by
  cases after with
  | repoStorageChanged repository at_ stored version =>
    cases before with
    | pending _ _ _ op _ => cases op <;> cases h
    | _ => cases h
  | _ => rfl

/-- A prior row that an outcome may replace is not terminal. -/
theorem not_terminal_of_permitted {before after : ReservationV1}
    (h : OutboxBuilder.permitted before after = true) : before.isTerminal = false := by
  cases before with
  | pending => rfl
  | ticketed => rfl
  | _ => cases after <;> cases h

namespace OutboxBuilder

theorem extends_held {b : OutboxBuilder} {rid : Bytes} {prior : Option Value} {value : Value}
    (h : rid ∉ b.reservations) : Extends b (.held rid prior value)
      { b with
        reservations := b.reservations.insert rid
        pre := b.pre ++ [guardOf (rowKey rid) prior]
        writes := b.writes ++ [.put (rowKey rid) value] } where
  os := rfl
  oc := rfl
  pre := rfl
  writes := rfl
  rid := by
    rintro rid' ⟨⟩
    exact ⟨h, SortedSet.mem_insert.2 (.inl rfl)⟩
  reservations := fun rid' h => SortedSet.mem_insert.2 (.inr h)
  seq := by rintro s ⟨⟩
  seqMono := le_rfl
  sequenceMono := id
  rows := rfl
  bytes := rfl
  backlogTouched := by
    rintro (h | h)
    · exact h
    · exact absurd rfl h

variable {b : OutboxBuilder} {k : Key}

theorem extends_woken : Extends b (.woken k) { b with writes := b.writes ++ [.put k []] } where
  os := rfl
  oc := rfl
  pre := (List.append_nil _).symm
  writes := rfl
  rid := by rintro rid ⟨⟩
  reservations := fun _ h => h
  seq := by rintro s ⟨⟩
  seqMono := le_rfl
  sequenceMono := id
  rows := rfl
  bytes := rfl
  backlogTouched := by
    rintro (h | h)
    · exact h
    · exact absurd rfl h

theorem extends_relayed {seq : UInt64} {value : Value} (h : seq.toNat = b.seq.toNat + 1) :
    Extends b (.relayed seq value)
      { b with seq, sequenceTouched := true, writes := b.writes ++ [.put (keys.relay seq) value] } where
  os := rfl
  oc := rfl
  pre := (List.append_nil _).symm
  writes := rfl
  rid := by rintro rid ⟨⟩
  reservations := fun _ h => h
  seq := by
    rintro s ⟨⟩
    exact ⟨by omega, le_rfl, rfl⟩
  seqMono := by
    change b.seq.toNat ≤ seq.toNat
    omega
  sequenceMono := fun _ => rfl
  rows := rfl
  bytes := rfl
  backlogTouched := by
    rintro (h | h)
    · exact h
    · exact absurd rfl h

variable {b' : OutboxBuilder} {u : PUnit}

/-- What is written for a terminal row under a guard. -/
theorem yields_enqueue {rid : Bytes} {guard : Precondition} {record : ReservationV1}
     : Yields (OutboxBuilder.enqueue S rid k guard record) b u b' ↔
      ∃ (backlog : Backlog) (seq : UInt64), backlog.rows.toNat = b.backlog.rows.toNat + 1 ∧
        backlog.bytes.toNat = b.backlog.bytes.toNat +
          (UInt64.ofNat (k.length + (encodeReservation S record).length)).toNat ∧
        seq.toNat = b.seq.toNat + 1 ∧ keys.validateReservationId rid = true ∧
        b' = { b with
          backlog, seq
          sequenceTouched := true
          kickAtMs := if b.oc.isNone && b.kickAtMs.isNone then some record.occurredAtMs
            else b.kickAtMs
          backlogTouched := true
          pre := b.pre ++ [guard]
          writes := b.writes ++ [.put k (encodeReservation S record)] ++
            [.put (indexKey seq rid) []] } := by
  rw [OutboxBuilder.enqueue]
  constructor
  · intro h
    obtain ⟨⟨⟩, b₁, hcount, h⟩ := yields_bind.1 h
    obtain ⟨backlog, hrows, hbytes, rfl⟩ := OutboxBuilder.yields_countRow.1 hcount
    obtain ⟨seq, b₂, halloc, h⟩ := yields_bind.1 h
    obtain ⟨hseq, rfl⟩ := yields_allocate.1 halloc
    obtain ⟨⟨⟩, b₃, htouch, h⟩ := yields_bind.1 h
    obtain rfl := yields_touchBacklog.1 htouch
    obtain ⟨⟨⟩, b₄, hpre, h⟩ := yields_bind.1 h
    obtain rfl := yields_pushPre.1 hpre
    obtain ⟨⟨⟩, b₅, hwrite, h⟩ := yields_bind.1 h
    obtain rfl := yields_pushWrite.1 hwrite
    obtain ⟨index, hindex, h⟩ := yields_liftExcept_bind.1 h
    obtain ⟨hrid, -, rfl⟩ := keys.outcomePending_eq_ok.1 hindex
    exact ⟨backlog, seq, hrows, hbytes, hseq, hrid, yields_pushWrite.1 h⟩
  · rintro ⟨backlog, seq, hrows, hbytes, hseq, hrid, rfl⟩
    have hne : seq ≠ 0 := by
      rintro rfl
      change 0 = _ at hseq
      omega
    exact yields_bind.2 ⟨⟨⟩, _, OutboxBuilder.yields_countRow.2 ⟨backlog, hrows, hbytes, rfl⟩,
      yields_bind.2 ⟨seq, _, yields_allocate.2 ⟨hseq, rfl⟩,
        yields_bind.2 ⟨⟨⟩, _, yields_touchBacklog.2 rfl,
          yields_bind.2 ⟨⟨⟩, _, yields_pushPre.2 rfl,
            yields_bind.2 ⟨⟨⟩, _, yields_pushWrite.2 rfl, yields_liftExcept_bind.2
              ⟨_, keys.outcomePending_eq_ok.2 ⟨hrid, hne, rfl⟩, yields_pushWrite.2 rfl⟩⟩⟩⟩⟩⟩

/-- What a terminal row takes of the backlog. -/
theorem toNat_size {rid : Bytes} (hrid : keys.validateReservationId rid = true) {value : Value}
    (hlen : value.length ≤ MAX_VALUE_BYTES) :
    (UInt64.ofNat ((rowKey rid).length + value.length)).toNat =
      (rowKey rid).length + value.length := by
  have hkey := length_rowKey_le hrid
  rw [UInt64.toNat_ofNat', Nat.mod_eq_of_lt]
  rw [MAX_KEY_BYTES] at hkey
  rw [MAX_VALUE_BYTES] at hlen
  omega

/-- A terminal row that is written counts, takes the next sequence and is indexed under it. -/
theorem Yields.enqueue {rid : Bytes} {prior : Option Value} {record : ReservationV1}
    {b b' : OutboxBuilder} {u : PUnit}
    (hlen : (encodeReservation S record).length ≤ MAX_VALUE_BYTES) (hnew : rid ∉ b.reservations)
    (h : Yields (OutboxBuilder.enqueue S rid (rowKey rid) (guardOf (rowKey rid) prior) record)
      { b with reservations := b.reservations.insert rid } u b') :
    ∃ seq, Extends b (.queued rid prior (encodeReservation S record) seq) b' ∧
      b'.error = b.error := by
  obtain ⟨backlog, seq, hrows, hbytes, hseq, hrid, rfl⟩ := yields_enqueue.1 h
  rw [toNat_size hrid hlen] at hbytes
  refine ⟨seq, ?_, rfl⟩
  exact {
    os := rfl
    oc := rfl
    pre := rfl
    writes := by simp [Item.writes]
    rid := by
      rintro rid' ⟨⟩
      exact ⟨hnew, SortedSet.mem_insert.2 (.inl rfl)⟩
    reservations := fun rid' h => SortedSet.mem_insert.2 (.inr h)
    seq := by
      rintro s ⟨⟩
      exact ⟨by simp only [hseq]; omega, le_rfl, rfl⟩
    seqMono := by
      change b.seq.toNat ≤ seq.toNat
      simp only [hseq]
      omega
    sequenceMono := fun _ => rfl
    rows := hrows
    bytes := hbytes
    backlogTouched := fun _ => rfl }

/-! ### Shapes of built builders -/

/-- The builder goes on by planning the entries. -/
def Grows (S : Serde) (b : OutboxBuilder) (items : List Item) (b' : OutboxBuilder) : Prop :=
  (∀ planned, Shape S b planned → Shape S b' (planned ++ items)) ∧ b'.error = b.error

theorem Grows.refl (b : OutboxBuilder) : Grows S b [] b :=
  ⟨fun planned h => (List.append_nil planned).symm ▸ h, rfl⟩

variable {b'' : OutboxBuilder}

theorem Grows.trans {items items' : List Item}
    (h : Grows S b items b') (h' : Grows S b' items' b'') : Grows S b (items ++ items') b'' :=
  ⟨fun planned hs => List.append_assoc planned items items' ▸ h'.1 _ (h.1 _ hs),
    h'.2.trans h.2⟩

theorem grows_of_extends {i : Item} (h : Extends b i b')
    (hi : i.Sound S) (herr : b'.error = b.error) : Grows S b [i] b' :=
  ⟨fun _ hs => hs.extend h hi, herr⟩

/-- The builder goes on by planning entries of which none is a relay row and that report the
storage changes. -/
def GrowsWith (S : Serde) (b : OutboxBuilder) (changes : List StorageChange)
    (b' : OutboxBuilder) : Prop :=
  ∃ items, Grows S b items b' ∧ (∀ i ∈ items, i.isRelayed = false) ∧
    changesOf S (items.flatMap Item.writes) = changes

theorem GrowsWith.trans {changes changes' : List StorageChange}
    (h : GrowsWith S b changes b') (h' : GrowsWith S b' changes' b'') :
    GrowsWith S b (changes ++ changes') b'' := by
  obtain ⟨items, hg, hnot, rfl⟩ := h
  obtain ⟨items', hg', hnot', rfl⟩ := h'
  refine ⟨items ++ items', hg.trans hg', List.forall_mem_append.2 ⟨hnot, hnot'⟩, ?_⟩
  rw [List.flatMap_append, changesOf_append]

theorem growsWith_of_extends {i : Item} {changes : List StorageChange}
    (h : Extends b i b') (hi : i.Sound S) (herr : b'.error = b.error)
    (hnot : i.isRelayed = false) (hchanges : changesOf S i.writes = changes) :
    GrowsWith S b changes b' := by
  refine ⟨[i], grows_of_extends h hi herr, fun j hj => ?_, ?_⟩
  · rwa [List.mem_singleton.1 hj]
  · rw [List.flatMap_singleton, hchanges]

/-- The operations collected for the relay are not entries yet. -/
theorem grows_relays (b : OutboxBuilder)
    (relays : SortedMap Partition (SortedMap Key (Option Value))) :
    Grows S b [] { b with relays } :=
  ⟨fun planned h => by
    rw [List.append_nil]
    exact ⟨h.pre, h.writes, h.sound, h.rids, h.claimed, h.ascending, h.above, h.start, h.sequence,
      h.counted, h.touched⟩, rfl⟩

theorem growsWith_relays (b : OutboxBuilder)
    (relays : SortedMap Partition (SortedMap Key (Option Value))) :
    GrowsWith S b [] { b with relays } :=
  ⟨[], grows_relays b relays, nofun, rfl⟩

variable {method : Build Unit}

/-- A method that left no error succeeded. -/
theorem yields_of_remember
    (h : (remember method b).error = none) : Yields method b () (remember method b) := by
  unfold remember at h ⊢
  cases hexec : exec method b with
  | mk r b' =>
    cases r with
    | ok u => exact hexec
    | error e =>
      rw [hexec] at h
      dsimp only at h
      split at h
      · cases h
      · rename_i hsome
        rw [h] at hsome
        exact absurd rfl hsome

/-- A method that succeeds is kept. -/
theorem remember_of_yields (h : Yields method b () b') : remember method b = b' := by
  rw [remember, show exec method b = (.ok (), b') from h]

/-- A method that left no error grew the builder as its steps did. -/
theorem grows_remember {changes : List StorageChange} (h : (remember method b).error = none)
    (hm : ∀ b', Yields method b () b' → GrowsWith S b changes b') :
    GrowsWith S b changes (remember method b) :=
  hm _ (yields_of_remember h)

theorem grows_reserve {rid : Bytes} {ticketId : Hash} {prior : Option Value}
    (h : (reserve S rid ticketId prior b).error = none) :
    GrowsWith S b [] (reserve S rid ticketId prior b) := by
  refine grows_remember h fun b' h => ?_
  obtain ⟨k, hk, h⟩ := yields_liftExcept_bind.1 h
  obtain ⟨-, rfl⟩ := keys.reservation_eq_ok.1 hk
  obtain ⟨⟨⟩, b₁, hclaim, h⟩ := yields_bind.1 h
  obtain ⟨hnew, rfl⟩ := yields_claim.1 hclaim
  obtain ⟨⟨⟩, hprior, h⟩ := yields_liftExcept_bind.1 h
  obtain ⟨⟨⟩, b₂, hpre, h⟩ := yields_bind.1 h
  obtain rfl := yields_pushPre.1 hpre
  obtain rfl := yields_pushWrite.1 h
  refine growsWith_of_extends (extends_held hnew)
    ⟨prior_of_checkPrior hprior, terminalValue_encodeReservation rfl⟩ rfl rfl ?_
  exact (changesOf_row rid _).trans (changeOf_encodeReservation rfl)

theorem grows_pending {rid : Bytes} {prior : Option Value} {record : ReservationV1}
    (h : (pending S rid prior record b).error = none) :
    GrowsWith S b [] (pending S rid prior record b) := by
  refine grows_remember h fun b' h => ?_
  obtain ⟨hprior, h⟩ := yields_check.1 h
  cases prior with
  | some value => exact absurd rfl hprior
  | none =>
    cases record with
    | pending repository createdAtMs reconcileAtMs op procedure =>
      obtain ⟨k, hk, h⟩ := yields_liftExcept_bind.1 h
      obtain ⟨-, rfl⟩ := keys.reservation_eq_ok.1 hk
      obtain ⟨⟨⟩, b₁, hclaim, h⟩ := yields_bind.1 h
      obtain ⟨hnew, rfl⟩ := yields_claim.1 hclaim
      obtain ⟨r, hr, h⟩ := yields_liftExcept_bind.1 h
      obtain ⟨⟨⟩, b₂, hpre, h⟩ := yields_bind.1 h
      obtain rfl := yields_pushPre.1 hpre
      obtain ⟨⟨⟩, b₃, hwrite, h⟩ := yields_bind.1 h
      obtain rfl := yields_pushWrite.1 hwrite
      obtain rfl := yields_pushWrite.1 h
      have htimer := ofClass_timer reconcileAtMs RESERVATION_RECONCILE rid
      have hheld := growsWith_of_extends (@extends_held b rid none (encodeReservation S
          (.pending repository createdAtMs reconcileAtMs op procedure)) hnew)
        ⟨rfl, terminalValue_encodeReservation rfl⟩ rfl rfl ((changesOf_row rid _).trans
          (changeOf_encodeReservation rfl))
      refine hheld.trans (growsWith_of_extends extends_woken htimer rfl rfl
        (changesOf_eq_nil fun w hw => ?_))
      rw [List.mem_singleton.1 hw]
      exact (outside_timer htimer).1
    | _ => simp at h

theorem grows_outcome {rid : Bytes} {prior : Value} {terminal : Terminal S}
    (h : (outcome S rid prior terminal b).error = none) :
    GrowsWith S b [] (outcome S rid prior terminal b) := by
  refine grows_remember h fun b' h => ?_
  obtain ⟨k, hk, h⟩ := yields_liftExcept_bind.1 h
  obtain ⟨-, rfl⟩ := keys.reservation_eq_ok.1 hk
  obtain ⟨before, hbefore, h⟩ := yields_liftExcept_bind.1 h
  obtain ⟨hpermitted, h⟩ := yields_check.1 h
  obtain ⟨⟨⟩, b₁, hclaim, h⟩ := yields_bind.1 h
  obtain ⟨hnew, rfl⟩ := yields_claim.1 hclaim
  obtain ⟨r, hr⟩ := terminal.decodes
  obtain ⟨seq, hext, herr⟩ := @Yields.enqueue S rid (some prior) _ _ _ _
    (length_le_of_decodeReservation hr) hnew h
  have hprior : terminalValue S prior = false := by
    rw [terminalValue_of_decode hbefore]
    exact not_terminal_of_permitted (by simpa using hpermitted)
  refine growsWith_of_extends hext ⟨by simp [hprior], terminal.terminalValue⟩ herr rfl ?_
  rw [changesOf_queued]
  exact changeOf_encodeReservation (not_change_of_permitted (by simpa using hpermitted))

/-- A terminal row without a prior state. -/
theorem grows_newTerminal {rid : Bytes} {terminal : Terminal S}
    (h : Yields (newTerminal S rid terminal.record) b u b') :
    GrowsWith S b (changeOf S (encodeReservation S terminal.record)).toList b' := by
  obtain ⟨k, hk, h⟩ := yields_liftExcept_bind.1 h
  obtain ⟨-, rfl⟩ := keys.reservation_eq_ok.1 hk
  obtain ⟨⟨⟩, b₁, hclaim, h⟩ := yields_bind.1 h
  obtain ⟨hnew, rfl⟩ := yields_claim.1 hclaim
  obtain ⟨r, hr⟩ := terminal.decodes
  obtain ⟨seq, hext, herr⟩ := @Yields.enqueue S rid none _ _ _ _
    (length_le_of_decodeReservation hr) hnew h
  exact growsWith_of_extends hext ⟨rfl, terminal.terminalValue⟩ herr rfl
    (changesOf_queued rid none _ seq)

theorem grows_abortDirect {rid : Bytes} {terminal : Terminal S}
    (h : (abortDirect S rid terminal b).error = none) :
    GrowsWith S b [] (abortDirect S rid terminal b) := by
  refine grows_remember h fun b' h => ?_
  split at h
  case h_1 hrecord =>
    have hgrows := grows_newTerminal h
    have hother : terminal.record.isStorageChange = false := by rw [hrecord]; rfl
    rwa [changeOf_encodeReservation hother] at hgrows
  case h_2 => simp at h

/-- A storage change is reported as it was planned. -/
theorem grows_storageChanged {rid : Bytes} {terminal : Terminal S}
    (h : (storageChanged S rid terminal b).error = none) :
    GrowsWith S b (changeOf S (encodeReservation S terminal.record)).toList
      (storageChanged S rid terminal b) := by
  refine grows_remember h fun b' h => ?_
  split at h
  · exact grows_newTerminal h
  · simp at h

/-- Collecting operations for a target plans no entry. -/
theorem grows_collect {α : Type} {target : Partition} {l : List α}
    {key : α → Key} {op : α → Option Value} {refuse : α → OutboxBuilder → Bool} {e : StoreError} 
    (h : Yields (l.forM fun a => do
      let b ← get
      if refuse a b then throw e
      putGroup target (key a) (op a)) b u b') : Grows S b [] b' := by
  refine Yields.forM (P := fun t => Grows S b [] t) h (Grows.refl b) fun a _ t t' ht hround => ?_
  rw [yields_get_bind] at hround
  obtain ⟨-, hround⟩ := yields_check.1 hround
  rw [putGroup, yields_get_bind, yields_set] at hround
  exact hround ▸ ht.trans (grows_relays t _)

theorem grows_relay {target : Partition} {puts : List (Key × Value)}
    (h : (relay target puts b).error = none) : GrowsWith S b [] (relay target puts b) := by
  refine grows_remember h fun b' h => ?_
  obtain ⟨encoded, -, h⟩ := yields_liftExcept_bind.1 h
  rw [yields_get_bind, yields_set_bind] at h
  exact (growsWith_relays b _).trans ⟨[], grows_collect h, nofun, rfl⟩

theorem grows_relayDelete {target : Partition} {deletes : List Key}
    (h : (relayDelete target deletes b).error = none) :
    GrowsWith S b [] (relayDelete target deletes b) := by
  refine grows_remember h fun b' h => ?_
  obtain ⟨encoded, -, h⟩ := yields_liftExcept_bind.1 h
  rw [yields_get_bind, yields_set_bind] at h
  exact (growsWith_relays b _).trans ⟨[], grows_collect h, nofun, rfl⟩

/-! ### The relay rows of a finished builder -/

/-- The builder goes on by planning relay rows that satisfy `Q`. -/
def GrowsRelays (S : Serde) (Q : RelayV1 → Prop) (b b' : OutboxBuilder) : Prop :=
  ∃ items, Grows S b items b' ∧ ∀ i ∈ items,
    ∃ seq value row, i = .relayed seq value ∧ encodeRelay S row = .ok value ∧ Q row

theorem GrowsRelays.refl (Q : RelayV1 → Prop) (b : OutboxBuilder) : GrowsRelays S Q b b :=
  ⟨[], Grows.refl b, nofun⟩

variable {Q : RelayV1 → Prop}

theorem GrowsRelays.trans
    (h : GrowsRelays S Q b b') (h' : GrowsRelays S Q b' b'') : GrowsRelays S Q b b'' := by
  obtain ⟨items, hg, hr⟩ := h
  obtain ⟨items', hg', hr'⟩ := h'
  exact ⟨items ++ items', hg.trans hg', List.forall_mem_append.2 ⟨hr, hr'⟩⟩

theorem GrowsRelays.mono {Q' : RelayV1 → Prop}
    (h : GrowsRelays S Q b b') (hQ : ∀ row, Q row → Q' row) : GrowsRelays S Q' b b' := by
  obtain ⟨items, hg, hr⟩ := h
  refine ⟨items, hg, fun i hi => ?_⟩
  obtain ⟨seq, value, row, rfl, hvalue, hrow⟩ := hr i hi
  exact ⟨seq, value, row, rfl, hvalue, hQ row hrow⟩

/-- The row's operations are among those collected for its target. -/
structure Drawn (target : Partition) (operations : SortedMap Key (Option Value))
    (row : RelayV1) : Prop where
  target : row.target = target
  puts : ∀ p ∈ row.puts, (p.1, some p.2) ∈ operations.entries
  deletes : ∀ k ∈ row.deletes, (k, none) ∈ operations.entries

theorem growsRelays_pushRelay {row : RelayV1}
    (hrow : Q row) (h : Yields (pushRelay S row) b u b') : GrowsRelays S Q b b' := by
  obtain ⟨value, hvalue, h⟩ := yields_liftExcept_bind.1 h
  obtain ⟨r, -, h⟩ := yields_liftExcept_bind.1 h
  obtain ⟨seq, b₁, halloc, h⟩ := yields_bind.1 h
  obtain ⟨hseq, rfl⟩ := yields_allocate.1 halloc
  obtain rfl := yields_pushWrite.1 h
  refine ⟨[.relayed seq value], grows_of_extends (extends_relayed hseq) trivial rfl,
    fun i hi => ?_⟩
  rw [List.mem_singleton.1 hi]
  exact ⟨seq, value, row, rfl, hvalue, hrow⟩

section Rows

variable {target : Partition} {operations : SortedMap Key (Option Value)}

variable {b b' : OutboxBuilder}

theorem growsRelays_planPuts {baseBytes : ℕ} {puts : List (Key × Value)} {row : RelayV1}
    {encodedBytes : ℕ} {r : RelayV1 × ℕ} (hrow : Drawn target operations row)
    (hputs : ∀ p ∈ puts, (p.1, some p.2) ∈ operations.entries)
    (h : Yields (planPuts S baseBytes row encodedBytes puts) b r b') :
    GrowsRelays S (Drawn target operations) b b' ∧ Drawn target operations r.1 := by
  induction puts generalizing row encodedBytes b with
  | nil =>
    obtain ⟨rfl, rfl⟩ := yields_pure.1 h
    exact ⟨GrowsRelays.refl _ _, hrow⟩
  | cons p rest ih =>
    rw [List.forall_mem_cons] at hputs
    rw [planPuts] at h
    obtain ⟨-, h⟩ := yields_check.1 h
    rcases yields_ite.1 h with ⟨-, h⟩ | ⟨-, h⟩
    · obtain ⟨⟨⟩, b₁, hpush, h⟩ := yields_bind.1 h
      have hopen : Drawn target operations { row with puts := [p] } :=
        ⟨hrow.target, fun q hq => List.mem_singleton.1 hq ▸ hputs.1, hrow.deletes⟩
      obtain ⟨hgrows, hlast⟩ := ih hopen hputs.2 h
      exact ⟨(growsRelays_pushRelay hrow hpush).trans hgrows, hlast⟩
    · have hopen : Drawn target operations { row with puts := row.puts ++ [p] } := by
        refine ⟨hrow.target, fun q hq => ?_, hrow.deletes⟩
        rcases List.mem_append.1 hq with hq | hq
        · exact hrow.puts q hq
        · exact List.mem_singleton.1 hq ▸ hputs.1
      exact ih hopen hputs.2 h

theorem growsRelays_planDeletes {baseBytes : ℕ} {deletes : List Key} {row : RelayV1}
    {encodedBytes : ℕ} {r : RelayV1} (hrow : Drawn target operations row)
    (hdeletes : ∀ k ∈ deletes, (k, none) ∈ operations.entries)
    (h : Yields (planDeletes S baseBytes row encodedBytes deletes) b r b') :
    GrowsRelays S (Drawn target operations) b b' ∧ Drawn target operations r := by
  induction deletes generalizing row encodedBytes b with
  | nil =>
    obtain ⟨rfl, rfl⟩ := yields_pure.1 h
    exact ⟨GrowsRelays.refl _ _, hrow⟩
  | cons k rest ih =>
    rw [List.forall_mem_cons] at hdeletes
    rw [planDeletes] at h
    obtain ⟨-, h⟩ := yields_check.1 h
    rcases yields_ite.1 h with ⟨-, h⟩ | ⟨-, h⟩
    · obtain ⟨⟨⟩, b₁, hpush, h⟩ := yields_bind.1 h
      have hopen : Drawn target operations { row with puts := [], deletes := [k] } :=
        ⟨hrow.target, nofun, fun q hq => List.mem_singleton.1 hq ▸ hdeletes.1⟩
      obtain ⟨hgrows, hlast⟩ := ih hopen hdeletes.2 h
      exact ⟨(growsRelays_pushRelay hrow hpush).trans hgrows, hlast⟩
    · have hopen : Drawn target operations { row with deletes := row.deletes ++ [k] } := by
        refine ⟨hrow.target, hrow.puts, fun q hq => ?_⟩
        rcases List.mem_append.1 hq with hq | hq
        · exact hrow.deletes q hq
        · exact List.mem_singleton.1 hq ▸ hdeletes.1
      exact ih hopen hdeletes.2 h

theorem growsRelays_planRelayRows {due : UInt64}
    (h : Yields (planRelayRows S target operations) b due b') :
    GrowsRelays S (Drawn target operations) b b' := by
  rw [planRelayRows, yields_get_bind] at h
  split at h
  · simp at h
  · rename_i atMs _
    obtain ⟨base, -, h⟩ := yields_liftExcept_bind.1 h
    obtain ⟨⟨row, encodedBytes⟩, b₁, hputs, h⟩ := yields_bind.1 h
    obtain ⟨row', b₂, hdeletes, h⟩ := yields_bind.1 h
    obtain ⟨⟨⟩, b₃, hpush, h⟩ := yields_bind.1 h
    obtain ⟨-, rfl⟩ := yields_pure.1 h
    have hputs' : ∀ p ∈ operations.entries.filterMap
        (fun p => p.2.map fun v => (p.1, v)), (p.1, some p.2) ∈ operations.entries := by
      intro p hp
      obtain ⟨q, hq, hqp⟩ := List.mem_filterMap.1 hp
      obtain ⟨v, hv, rfl⟩ := Option.map_eq_some_iff.1 hqp
      rwa [← hv]
    have hdeletes' : ∀ k ∈ (operations.entries.filter fun p => p.2.isNone).map Prod.fst,
        (k, none) ∈ operations.entries := by
      intro k hk
      obtain ⟨q, hq, rfl⟩ := List.mem_map.1 hk
      obtain ⟨hq, hnone⟩ := List.mem_filter.1 hq
      rwa [← Option.isNone_iff_eq_none.1 hnone]
    have hopen : Drawn target operations ⟨atMs, target, [], []⟩ :=
      ⟨rfl, fun _ hp => absurd hp List.not_mem_nil, fun _ hk => absurd hk List.not_mem_nil⟩
    obtain ⟨hgrows, hrow⟩ := growsRelays_planPuts hopen hputs' hputs
    obtain ⟨hgrows', hrow'⟩ := growsRelays_planDeletes hrow hdeletes' hdeletes
    exact (hgrows.trans hgrows').trans (growsRelays_pushRelay hrow' hpush)

end Rows

/-- The row's operations were collected for its target. -/
def Collected (relays : List (Partition × SortedMap Key (Option Value))) (row : RelayV1) : Prop :=
  ∃ t ∈ relays, Drawn t.1 t.2 row

theorem growsRelays_planRelays {targets : List (Partition × SortedMap Key (Option Value))}
    {due due' : Option UInt64} (h : Yields (planRelays S due targets) b due' b') :
    GrowsRelays S (Collected targets) b b' := by
  induction targets generalizing due b with
  | nil => exact (yields_pure.1 h).2 ▸ GrowsRelays.refl _ _
  | cons t rest ih =>
    have hrest : ∀ row, Collected rest row → Collected (t :: rest) row :=
      fun row ⟨t', ht', hrow⟩ => ⟨t', List.mem_cons_of_mem t ht', hrow⟩
    rw [planRelays] at h
    split at h
    · exact (ih h).mono hrest
    · obtain ⟨at_, b₁, hrows, h⟩ := yields_bind.1 h
      exact ((growsRelays_planRelayRows hrows).mono fun row hrow =>
        ⟨t, List.mem_cons_self, hrow⟩).trans ((ih h).mono hrest)

end OutboxBuilder

/-! ### Built builders -/

/-- The builders the methods build. -/
inductive Built (S : Serde) : OutboxBuilder → Prop
  | new {os oc : Option Value} {b : OutboxBuilder} (h : OutboxBuilder.new S os oc = .ok b) :
      Built S b
  | reserve {b : OutboxBuilder} (h : Built S b) (rid : Bytes) (ticketId : Hash)
      (prior : Option Value) : Built S (b.reserve S rid ticketId prior)
  | pending {b : OutboxBuilder} (h : Built S b) (rid : Bytes) (prior : Option Value)
      (record : ReservationV1) : Built S (b.pending S rid prior record)
  | outcome {b : OutboxBuilder} (h : Built S b) (rid : Bytes) (prior : Value)
      (terminal : Terminal S) : Built S (b.outcome S rid prior terminal)
  | abortDirect {b : OutboxBuilder} (h : Built S b) (rid : Bytes) (terminal : Terminal S) :
      Built S (b.abortDirect S rid terminal)
  | storageChanged {b : OutboxBuilder} (h : Built S b) (rid : Bytes) (terminal : Terminal S) :
      Built S (b.storageChanged S rid terminal)
  | relayAt {b : OutboxBuilder} (h : Built S b) (nowMs : UInt64) : Built S (b.relayAt nowMs)
  | relay {b : OutboxBuilder} (h : Built S b) (target : Partition) (puts : List (Key × Value)) :
      Built S (b.relay target puts)
  | relayDelete {b : OutboxBuilder} (h : Built S b) (target : Partition) (deletes : List Key) :
      Built S (b.relayDelete target deletes)

theorem shape_new {os oc : Option Value}
    (h : OutboxBuilder.new S os oc = .ok b) : Shape S b [] := by
  obtain ⟨seq, hseq, h⟩ := Wire.bind_eq_ok.1 h
  have hos : sequenceOf os = seq := by rw [sequenceOf, hseq]
  split at h
  · cases h
  · obtain ⟨backlog, hbacklog, h⟩ := Wire.bind_eq_ok.1 h
    obtain rfl := Except.ok.inj h
    exact {
      pre := rfl
      writes := rfl
      sound := by rintro i ⟨⟩
      rids := List.nodup_nil
      claimed := by rintro rid ⟨⟩
      ascending := List.Pairwise.nil
      above := by rintro s ⟨⟩
      start := by
        change (sequenceOf os).toNat ≤ seq.toNat
        rw [hos]
      sequence := fun hne => absurd rfl hne
      counted := ⟨backlog, hbacklog, rfl, rfl⟩
      touched := fun hne => absurd rfl hne }

theorem Shape.of_grows (hb : b.error = none → ∃ items, Shape S b items)
    {changes : List StorageChange} (h : OutboxBuilder.GrowsWith S b changes b')
    (herr : b'.error = none) : ∃ items, Shape S b' items := by
  obtain ⟨items, ⟨hgrows, herror⟩, -⟩ := h
  obtain ⟨planned, hs⟩ := hb (herror ▸ herr)
  exact ⟨planned ++ items, hgrows planned hs⟩

/-- A built builder without an error is the list of what it plans. -/
theorem Built.shape (h : Built S b) : b.error = none → ∃ items, Shape S b items := by
  induction h with
  | new h => exact fun _ => ⟨[], shape_new h⟩
  | reserve h rid ticketId prior ih =>
    exact fun herr => Shape.of_grows ih (OutboxBuilder.grows_reserve herr) herr
  | pending h rid prior record ih =>
    exact fun herr => Shape.of_grows ih (OutboxBuilder.grows_pending herr) herr
  | outcome h rid prior terminal ih =>
    exact fun herr => Shape.of_grows ih (OutboxBuilder.grows_outcome herr) herr
  | abortDirect h rid terminal ih =>
    exact fun herr => Shape.of_grows ih (OutboxBuilder.grows_abortDirect herr) herr
  | storageChanged h rid terminal ih =>
    exact fun herr => Shape.of_grows ih (OutboxBuilder.grows_storageChanged herr) herr
  | relayAt h nowMs ih =>
    intro herr
    obtain ⟨items, hs⟩ := ih herr
    exact ⟨items, hs.pre, hs.writes, hs.sound, hs.rids, hs.claimed, hs.ascending, hs.above,
      hs.start, hs.sequence, hs.counted, hs.touched⟩
  | relay h target puts ih =>
    exact fun herr => Shape.of_grows ih (OutboxBuilder.grows_relay herr) herr
  | relayDelete h target deletes ih =>
    exact fun herr => Shape.of_grows ih (OutboxBuilder.grows_relayDelete herr) herr

/-! ### The fragment of a finished builder -/

/-- The caller neither guards nor writes the key. -/
def Unplanned (plan : Plan) (k : Key) : Prop :=
  (∀ p ∈ plan.pre, p.key? ≠ some k) ∧ ∀ w ∈ plan.writes, w.key ≠ k

theorem requireUnplanned_eq_ok {plan : Plan} :
    OutboxBuilder.requireUnplanned k plan = .ok () ↔ Unplanned plan k := by
  rw [OutboxBuilder.requireUnplanned, Unplanned]
  split
  case isTrue h =>
    refine ⟨nofun, fun hfree => ?_⟩
    simp only [Bool.or_eq_true, List.any_eq_true, beq_iff_eq] at h
    rcases h with ⟨g, hg, hk⟩ | ⟨w, hw, hk⟩
    · exact absurd hk (hfree.1 g hg)
    · exact absurd hk (hfree.2 w hw)
  case isFalse h =>
    simp only [Bool.or_eq_true, List.any_eq_true, beq_iff_eq, not_or, not_exists, not_and] at h
    exact ⟨fun _ => h, fun _ => rfl⟩

/-- A guarded row of the outbox, if it is written. -/
def rowPre (touched : Bool) (k : Key) (prior : Option Value) : List Precondition :=
  if touched then [guardOf k prior] else []

def rowWrite (touched : Bool) (k : Key) (value : Value) : List Write :=
  if touched then [.put k value] else []

/-- The fragment of a builder that plans the entries: its entries, the rows of the sequence and
the backlog where they changed, and timers. -/
structure Fragment (S : Serde) (plan : Plan) (b : OutboxBuilder) (items : List Item)
    (batch : Batch) : Prop where
  shape : Shape S b items
  rows : ∀ rid ∈ ridsOf items, Unplanned plan (rowKey rid)
  sequence : b.sequenceTouched = true → Unplanned plan keys.outboxSequence
  backlog : b.backlogTouched = true → Unplanned plan keys.outcomeBacklog
  pre : batch.preconditions = b.pre ++ rowPre b.sequenceTouched keys.outboxSequence b.os ++
    rowPre b.backlogTouched keys.outcomeBacklog b.oc
  writes : ∃ timers : List Key, (∀ k ∈ timers, keys.ofClass keys.TAG_TIMER k = true) ∧
    batch.writes = b.writes ++ rowWrite b.sequenceTouched keys.outboxSequence (encodeU64 b.seq) ++
      rowWrite b.backlogTouched keys.outcomeBacklog (encodeBacklog S b.backlog) ++
        timers.map fun k => .put k []

variable {u : PUnit}

theorem yields_planRow {touched : Bool} {plan : Plan} {prior : Option Value} {value : Value} :
    Yields (OutboxBuilder.planRow touched plan k prior value) b u b' ↔
      (touched = true → Unplanned plan k) ∧
        b' = { b with
          pre := b.pre ++ rowPre touched k prior
          writes := b.writes ++ rowWrite touched k value } := by
  rw [OutboxBuilder.planRow]
  cases touched with
  | true =>
    rw [if_pos rfl, yields_liftExcept_bind]
    constructor
    · rintro ⟨⟨⟩, hfree, h⟩
      obtain ⟨⟨⟩, b₁, hpre, h⟩ := yields_bind.1 h
      obtain rfl := OutboxBuilder.yields_pushPre.1 hpre
      exact ⟨fun _ => requireUnplanned_eq_ok.1 hfree, OutboxBuilder.yields_pushWrite.1 h⟩
    · rintro ⟨hfree, rfl⟩
      exact ⟨(), requireUnplanned_eq_ok.2 (hfree rfl), yields_bind.2
        ⟨⟨⟩, _, OutboxBuilder.yields_pushPre.2 rfl, OutboxBuilder.yields_pushWrite.2 rfl⟩⟩
  | false =>
    have hsame : b = { b with
        pre := b.pre ++ rowPre false k prior
        writes := b.writes ++ rowWrite false k value } := by
      simp [rowPre, rowWrite]
    rw [← hsame, if_neg (by decide), yields_pure]
    exact ⟨fun h => ⟨nofun, h.2.symm⟩, fun h => ⟨rfl, h.2.symm⟩⟩

/-- The timer of a kind, if one is due. -/
def kickTimers (kind : UInt8) (due : Option UInt64) : List Key :=
  due.toList.map fun dueAtMs => keys.timer dueAtMs kind []

theorem ofClass_kickTimers {kind : UInt8} {due : Option UInt64} :
    ∀ k ∈ kickTimers kind due, keys.ofClass keys.TAG_TIMER k = true := by
  intro k hk
  obtain ⟨dueAtMs, -, rfl⟩ := List.mem_map.1 hk
  exact ofClass_timer dueAtMs kind []

theorem yields_kick {kind : UInt8} {due : Option UInt64} :
    Yields (OutboxBuilder.kick kind due) b u b' ↔
      b' = { b with writes := b.writes ++ (kickTimers kind due).map fun k => .put k [] } := by
  cases due with
  | some due => exact OutboxBuilder.yields_pushWrite
  | none =>
    have hsame : b = { b with
        writes := b.writes ++ (kickTimers kind none).map fun k => .put k [] } := by
      simp [kickTimers]
    rw [← hsame, OutboxBuilder.kick, yields_pure]
    exact ⟨fun h => h.2.symm, fun h => ⟨rfl, h.symm⟩⟩

/-- What a builder hands over that has written its relay rows. -/
def finished (S : Serde) (b : OutboxBuilder) (due : Option UInt64) : Batch :=
  ⟨b.pre ++ rowPre b.sequenceTouched keys.outboxSequence b.os ++
      rowPre b.backlogTouched keys.outcomeBacklog b.oc,
    b.writes ++ ((kickTimers RELAY due).map fun k => .put k []) ++
      rowWrite b.sequenceTouched keys.outboxSequence (encodeU64 b.seq) ++
        rowWrite b.backlogTouched keys.outcomeBacklog (encodeBacklog S b.backlog) ++
          (kickTimers OUTCOME_DELIVERY b.kickAtMs).map fun k => .put k []⟩

/-- Requiring that nothing is planned about rows leaves the builder as it is. -/
theorem yields_requireAll {plan : Plan} {rids : List Bytes} : Yields (rids.forM fun rid => (do
      let k ← liftM (keys.reservation rid)
      liftM (OutboxBuilder.requireUnplanned k plan) : Build PUnit)) b u b' ↔
        (∀ rid ∈ rids, keys.validateReservationId rid = true ∧ Unplanned plan (rowKey rid)) ∧
          b = b' := by
  induction rids with
  | nil => exact yields_pure.trans (by simp)
  | cons rid rids ih =>
    rw [List.forall_mem_cons]
    refine yields_bind.trans ⟨?_, ?_⟩
    · rintro ⟨⟨⟩, b₁, hone, hrest⟩
      obtain ⟨k, hk, hone⟩ := yields_liftExcept_bind.1 hone
      obtain ⟨hrid, rfl⟩ := keys.reservation_eq_ok.1 hk
      obtain ⟨hfree, rfl⟩ := yields_liftExcept.1 hone
      obtain ⟨hall, rfl⟩ := ih.1 hrest
      exact ⟨⟨⟨hrid, requireUnplanned_eq_ok.1 hfree⟩, hall⟩, rfl⟩
    · rintro ⟨⟨⟨hrid, hfree⟩, hall⟩, rfl⟩
      exact ⟨⟨⟩, b, yields_liftExcept_bind.2 ⟨_, keys.reservation_eq_ok.2 ⟨hrid, rfl⟩,
        yields_liftExcept.2 ⟨requireUnplanned_eq_ok.2 hfree, rfl⟩⟩, ih.2 ⟨hall, rfl⟩⟩

/-- When a builder finishes, and what it hands over. -/
theorem assemble_eq_ok {plan : Plan} {batch : Batch} :
    (exec (OutboxBuilder.assemble S plan) b).1 = .ok batch ↔
      b.error = none ∧
        (∀ rid ∈ b.reservations.elems,
          keys.validateReservationId rid = true ∧ Unplanned plan (rowKey rid)) ∧
        ∃ due b', Yields (OutboxBuilder.planRelays S none b.relays.entries) b due b' ∧
          (b'.sequenceTouched = true → Unplanned plan keys.outboxSequence) ∧
          (b'.backlogTouched = true → Unplanned plan keys.outcomeBacklog) ∧
          batch = finished S b' due ∧ batch.validate .full = .ok () := by
  have hyields : (exec (OutboxBuilder.assemble S plan) b).1 = .ok batch ↔
      ∃ b₁, Yields (OutboxBuilder.assemble S plan) b batch b₁ :=
    ⟨fun h => ⟨_, Prod.ext h rfl⟩, fun ⟨_, h⟩ => congrArg Prod.fst h⟩
  rw [hyields]
  simp only [OutboxBuilder.assemble, yields_get_bind]
  cases herr : b.error with
  | some error => simp
  | none =>
    constructor
    · rintro ⟨b₁, h⟩
      obtain ⟨⟨⟩, b₃, hall, h⟩ := yields_bind.1 h
      obtain ⟨hrids, rfl⟩ := yields_requireAll.1 hall
      obtain ⟨due, b₄, hrelays, h⟩ := yields_bind.1 h
      obtain ⟨⟨⟩, b₅, hkick, h⟩ := yields_bind.1 h
      obtain rfl := yields_kick.1 hkick
      rw [yields_get_bind] at h
      obtain ⟨⟨⟩, b₆, hsequence, h⟩ := yields_bind.1 h
      obtain ⟨hos, rfl⟩ := yields_planRow.1 hsequence
      obtain ⟨⟨⟩, b₇, hbacklog, h⟩ := yields_bind.1 h
      obtain ⟨hoc, rfl⟩ := yields_planRow.1 hbacklog
      obtain ⟨⟨⟩, b₈, hwake, h⟩ := yields_bind.1 h
      obtain rfl := yields_kick.1 hwake
      rw [yields_get_bind] at h
      obtain ⟨⟨⟩, hvalid, h⟩ := yields_liftExcept_bind.1 h
      obtain ⟨rfl, -⟩ := yields_pure.1 h
      exact ⟨rfl, hrids, due, b₄, hrelays, hos, hoc, rfl, hvalid⟩
    · rintro ⟨-, hrids, due, b', hrelays, hos, hoc, rfl, hvalid⟩
      refine ⟨_, yields_bind.2 ⟨⟨⟩, b, yields_requireAll.2 ⟨hrids, rfl⟩,
        yields_bind.2 ⟨due, b', hrelays, yields_bind.2 ⟨⟨⟩, _, yields_kick.2 rfl,
          yields_get_bind.2 (yields_bind.2 ⟨⟨⟩, _, yields_planRow.2 ⟨hos, rfl⟩,
            yields_bind.2 ⟨⟨⟩, _, yields_planRow.2 ⟨hoc, rfl⟩,
              yields_bind.2 ⟨⟨⟩, _, yields_kick.2 rfl, yields_get_bind.2
                (yields_liftExcept_bind.2 ⟨(), hvalid, yields_pure.2 ⟨rfl, rfl⟩⟩)⟩⟩⟩)⟩⟩⟩⟩

/-- Timers are entries too. -/
theorem Shape.timers {items : List Item} (h : Shape S b items)
    {timers : List Key} (ht : ∀ k ∈ timers, keys.ofClass keys.TAG_TIMER k = true) :
    Shape S { b with writes := b.writes ++ timers.map fun k => .put k [] }
      (items ++ timers.map Item.woken) := by
  induction timers generalizing b items with
  | nil => simpa using h
  | cons k rest ih =>
    rw [List.forall_mem_cons] at ht
    have hone := ih (h.extend OutboxBuilder.extends_woken (i := .woken k) ht.1) ht.2
    simpa [List.append_assoc] using hone

theorem ridsOf_append (items items' : List Item) :
    ridsOf (items ++ items') = ridsOf items ++ ridsOf items' := by
  rw [ridsOf, List.filterMap_append]
  rfl

/-- What a finishing builder plans on its own: relay rows of collected operations, and timers. -/
def Finishing (S : Serde) (b : OutboxBuilder) (i : Item) : Prop :=
  (∃ seq value row, i = .relayed seq value ∧ encodeRelay S row = .ok value ∧
    OutboxBuilder.Collected b.relays.entries row) ∨
      ∃ k, i = .woken k ∧ keys.ofClass keys.TAG_TIMER k = true

theorem ridsOf_finishing {items : List Item}
    (h : ∀ i ∈ items, Finishing S b i) : ridsOf items = [] := by
  rw [ridsOf, List.filterMap_eq_nil_iff]
  intro i hi
  rcases h i hi with ⟨seq, value, row, rfl, -⟩ | ⟨k, rfl, -⟩ <;> rfl

/-- A builder that finishes appends what it hands over. -/
theorem tryFinish_eq_ok {plan plan' : Plan} {u : Unit} :
    exec (b.tryFinish S) plan = (.ok u, plan') ↔
      ∃ batch, (exec (OutboxBuilder.assemble S plan) b).1 = .ok batch ∧
        plan' = ⟨plan.pre ++ batch.preconditions, plan.writes ++ batch.writes⟩ := by
  change Yields (b.tryFinish S) plan u plan' ↔ _
  rw [OutboxBuilder.tryFinish, yields_get_bind, yields_liftExcept_bind]
  simp only [yields_set, eq_comm]

/-- What a builder that finishes hands over is the fragment of what it planned. -/
theorem assemble_of_shape {b : OutboxBuilder} {items : List Item}
    (hs : b.error = none → Shape S b items) {plan : Plan} {batch : Batch}
    (h : (exec (OutboxBuilder.assemble S plan) b).1 = .ok batch) :
    b.error = none ∧ ∃ b' more, Fragment S plan b' (items ++ more) batch ∧
      ∀ i ∈ more, Finishing S b i := by
  obtain ⟨herr, hrids, due, b₁, hrelays, hos, hoc, rfl, -⟩ := assemble_eq_ok.1 h
  have hs := hs herr
  refine ⟨herr, ?_⟩
  obtain ⟨relays, hgrows, hcollected⟩ := OutboxBuilder.growsRelays_planRelays hrelays
  have htimers := @ofClass_kickTimers RELAY due
  have hmore : ∀ i ∈ relays ++ (kickTimers RELAY due).map Item.woken, Finishing S b i := by
    refine List.forall_mem_append.2 ⟨fun i hi => .inl (hcollected i hi), fun i hi => .inr ?_⟩
    obtain ⟨k, hk, rfl⟩ := List.mem_map.1 hi
    exact ⟨k, rfl, htimers k hk⟩
  have hshape := (hgrows.1 items hs).timers htimers
  rw [List.append_assoc] at hshape
  refine ⟨_, _, ⟨hshape, fun rid hrid => ?_, hos, hoc, rfl, _, ofClass_kickTimers, rfl⟩, hmore⟩
  rw [ridsOf_append, ridsOf_finishing hmore, List.append_nil] at hrid
  exact (hrids rid (hs.claimed rid hrid)).2

theorem assemble_spec (hb : Built S b) {plan : Plan} {batch : Batch}
    (h : (exec (OutboxBuilder.assemble S plan) b).1 = .ok batch) :
    ∃ b' items, Fragment S plan b' items batch := by
  by_cases herr : b.error = none
  · obtain ⟨items, hs⟩ := hb.shape herr
    obtain ⟨-, b', more, hf, -⟩ := assemble_of_shape (fun _ => hs) h
    exact ⟨b', _, hf⟩
  · obtain ⟨hnone, -⟩ := @assemble_of_shape S b [] (fun hnone => absurd hnone herr) plan batch h
    exact absurd hnone herr

end Mkit.Server
