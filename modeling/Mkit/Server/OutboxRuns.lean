import Mkit.Lib.Numbered
import Mkit.Lib.Run
import Mkit.Server.OutboxItems

/-!
# Runs of the Outbox

The rows of a shard under batches that builders and acknowledgements plan, committed in any order
their guards allow. `Queue` says that every terminal row is numbered by exactly one index row, and
`Accounted` adds that the backlog row counts them. One entry of a builder keeps the first
(`Queue.item`), a finished builder and an acknowledgement keep both (`Effects.fragment`,
`Effects.ack`), whatever snapshots they were planned on, because their guards name every row they
rely on.
-/

namespace Mkit.Server

open Effect

variable {S : Serde}

/-- Is the entry a terminal outcome that awaits delivery? -/
def awaiting (S : Serde) (p : Key × Value) : Bool :=
  keys.ofClass keys.TAG_RESERVATION p.1 && terminalValue S p.2

/-- The terminal outcomes that await delivery. -/
def outstanding (S : Serde) (rows : Rows) : List (Key × Value) :=
  rows.entries.filter (awaiting S)

/-- The terminal rows of an entry: one or none. -/
def rowWeight (S : Serde) (k : Key) (v : Value) : ℕ :=
  if awaiting S (k, v) then 1 else 0

/-- The bytes of the terminal row of an entry. -/
def byteWeight (S : Serde) (k : Key) (v : Value) : ℕ :=
  if awaiting S (k, v) then k.length + v.length else 0

/-- The number of outstanding outcomes. -/
def rowCount (S : Serde) (rows : Rows) : ℕ :=
  rows.total (rowWeight S)

/-- The bytes of the outstanding outcomes. -/
def byteCount (S : Serde) (rows : Rows) : ℕ :=
  rows.total (byteWeight S)

theorem sum_map_ite {α : Type} (p : α → Bool) (f : α → ℕ) (l : List α) :
    (l.map fun a => if p a then f a else 0).sum = ((l.filter p).map f).sum := by
  induction l with
  | nil => rfl
  | cons a l ih => cases hp : p a <;> simp [hp, ih]

theorem rowCount_eq (rows : Rows) : rowCount S rows = (outstanding S rows).length := by
  change (rows.entries.map fun p => if awaiting S p then 1 else 0).sum = _
  rw [sum_map_ite (awaiting S) fun _ => 1]
  simp [outstanding]

theorem byteCount_eq (rows : Rows) :
    byteCount S rows = ((outstanding S rows).map fun p => p.1.length + p.2.length).sum :=
  sum_map_ite (awaiting S) (fun p => p.1.length + p.2.length) rows.entries

/-! ### The queue -/

/-- The reservations whose row is terminal. -/
def terminals (S : Serde) (rows : Rows) : Set Bytes :=
  {rid | ∃ value, rows.get (rowKey rid) = some value ∧ terminalValue S value = true}

/-- The index has an entry for the reservation under the sequence. -/
def Indexed (rows : Rows) (seq : UInt64) (rid : Bytes) : Prop :=
  rows.get (indexKey seq rid) = some []

/-- The index numbers the terminal rows, with sequences up to `top`. -/
structure Queue (S : Serde) (rows : Rows) (top : ℕ) : Prop where
  wellFormed : ∀ k v, rows.get k = some v → keys.ofClass keys.TAG_OUTCOME_PENDING k = true →
    v = [] ∧ ∃ seq rid, k = indexKey seq rid
  numbered : Numbered UInt64.toNat (terminals S rows) (Indexed rows) top

variable {top : ℕ}

theorem Queue.mono {rows : Rows} {top' : ℕ} (h : Queue S rows top) (hle : top ≤ top') :
    Queue S rows top' :=
  ⟨h.wellFormed, h.numbered.mono hle⟩

/-- What the queue reads of the rows. -/
def SameQueue (rows rows' : Rows) : Prop :=
  (∀ rid, rows'.get (rowKey rid) = rows.get (rowKey rid)) ∧
    ∀ k, keys.ofClass keys.TAG_OUTCOME_PENDING k = true → rows'.get k = rows.get k

variable {rows' : Rows}

theorem terminals_congr {rows : Rows} (h : ∀ rid, rows'.get (rowKey rid) = rows.get (rowKey rid)) :
    terminals S rows' = terminals S rows := by
  simp only [terminals, h]

theorem Queue.congr {rows : Rows} (h : Queue S rows top)
    (hsame : SameQueue rows rows') : Queue S rows' top where
  wellFormed := fun k v hv hk => h.wellFormed k v (hsame.2 k hk ▸ hv) hk
  numbered := by
    have hindexed : Indexed rows' = Indexed rows := by
      funext seq rid
      rw [Indexed, hsame.2 _ (ofClass_indexKey seq rid), Indexed]
    rw [terminals_congr hsame.1, hindexed]
    exact h.numbered

variable {k : Key}

theorem awaiting_of_index (h : keys.ofClass keys.TAG_RESERVATION k = false) (v : Value) :
    awaiting S (k, v) = false := by
  rw [awaiting, h, Bool.false_and]

/-- An update of a key that holds no reservation leaves the counts alone. -/
theorem counts_update (rows : Rows)
    (h : keys.ofClass keys.TAG_RESERVATION k = false) (o : Option Value) :
    rowCount S (rows.update k o) = rowCount S rows ∧
      byteCount S (rows.update k o) = byteCount S rows := by
  have hweight : ∀ w : Key → Value → ℕ, (∀ v, w k v = 0) →
      (rows.update k o).total w = rows.total w := by
    intro w hw
    have htotal := SortedMap.total_update w rows k o
    have hold : SortedMap.weightAt w rows k = 0 := by
      rw [SortedMap.weightAt]
      cases rows.get k with
      | none => rfl
      | some v => exact hw v
    have hnew : o.elim 0 (w k) = 0 := by
      cases o with
      | none => rfl
      | some v => exact hw v
    omega
  refine ⟨hweight _ fun v => ?_, hweight _ fun v => ?_⟩
  · rw [rowWeight, awaiting_of_index h, if_neg (by decide)]
  · rw [byteWeight, awaiting_of_index h, if_neg (by decide)]

/-- What is counted of a row under a reservation. -/
theorem counts_update_row (rows : Rows) (rid : Bytes) (o : Option Value) :
    rowCount S (rows.update (rowKey rid) o) +
        (rows.get (rowKey rid)).elim 0 (rowWeight S (rowKey rid)) =
      rowCount S rows + o.elim 0 (rowWeight S (rowKey rid)) ∧
    byteCount S (rows.update (rowKey rid) o) +
        (rows.get (rowKey rid)).elim 0 (byteWeight S (rowKey rid)) =
      byteCount S rows + o.elim 0 (byteWeight S (rowKey rid)) :=
  ⟨SortedMap.total_update _ rows _ o, SortedMap.total_update _ rows _ o⟩

theorem awaiting_rowKey (rid : Bytes) (v : Value) :
    awaiting S (rowKey rid, v) = terminalValue S v := by
  rw [awaiting, ofClass_rowKey, Bool.true_and]

/-- A row that is not terminal weighs nothing. -/
theorem weight_of_not_terminal (rid : Bytes) {prior : Option Value}
    (h : prior.all (!terminalValue S ·) = true) : prior.elim 0 (rowWeight S (rowKey rid)) = 0 ∧
      prior.elim 0 (byteWeight S (rowKey rid)) = 0 := by
  cases prior with
  | none => exact ⟨rfl, rfl⟩
  | some v =>
    rw [Option.all_some, Bool.not_eq_true'] at h
    simp only [Option.elim_some, rowWeight, byteWeight, awaiting_rowKey, h]
    exact ⟨rfl, rfl⟩

theorem weight_of_terminal (rid : Bytes) {v : Value} (h : terminalValue S v = true) :
    rowWeight S (rowKey rid) v = 1 ∧
      byteWeight S (rowKey rid) v = (rowKey rid).length + v.length := by
  simp only [rowWeight, byteWeight, awaiting_rowKey, h]
  exact ⟨rfl, rfl⟩

/-! ### One entry of a builder -/

variable {w : Write}

/-- Writes outside the queue keep it and its counts. -/
theorem queue_of_outside {rows : Rows} (h : Queue S rows top)
    (hw : Outside w.key) (happly : w.apply rows = .ok rows') :
    Queue S rows' top ∧ rowCount S rows' = rowCount S rows ∧
      byteCount S rows' = byteCount S rows := by
  have hsame : SameQueue rows rows' :=
    ⟨fun rid => Write.apply_get happly (hw.ne_rowKey rid), fun k hk => by
      refine Write.apply_get happly fun heq => ?_
      rw [heq, hw.2] at hk
      cases hk⟩
  have hupdate : ∃ o, rows' = rows.update w.key o := by
    refine ⟨rows'.get w.key, SortedMap.eq_of_get fun k => ?_⟩
    by_cases hk : k = w.key
    · rw [hk, SortedMap.get_update_self]
    · rw [SortedMap.get_update_of_ne _ _ hk, Write.apply_get happly hk]
  obtain ⟨o, rfl⟩ := hupdate
  exact ⟨h.congr hsame, counts_update rows hw.1 o⟩

/-- The row of a reservation that is not terminal may be replaced by one that is not either. -/
theorem Queue.held {rows : Rows} {rid : Bytes} {prior : Option Value} {value : Value}
    (h : Queue S rows top) (hprior : rows.get (rowKey rid) = prior)
    (hsound : (Item.held rid prior value).Sound S) :
    Queue S (rows.insert (rowKey rid) value) top := by
  have hset : terminals S (rows.insert (rowKey rid) value) = terminals S rows := by
    ext rid'
    by_cases hrid : rid' = rid
    · subst hrid
      have hold : ∀ v, rows.get (rowKey rid') = some v → terminalValue S v = false := by
        intro v hv
        have hall := hsound.1
        rw [← hprior, hv, Option.all_some, Bool.not_eq_true'] at hall
        exact hall
      constructor
      · rintro ⟨v, hv, ht⟩
        rw [SortedMap.get_insert_self] at hv
        obtain rfl := Option.some.inj hv
        rw [hsound.2] at ht
        cases ht
      · rintro ⟨v, hv, ht⟩
        rw [hold v hv] at ht
        cases ht
    · have hne : rowKey rid' ≠ rowKey rid := fun heq => hrid (rowKey_injective heq)
      simp only [terminals, Set.mem_ofPred_eq, SortedMap.get_insert_of_ne rows value hne]
  have hindexed : Indexed (rows.insert (rowKey rid) value) = Indexed rows := by
    funext seq rid'
    rw [Indexed, SortedMap.get_insert_of_ne rows value (rowKey_ne_indexKey rid rid' seq).symm,
      Indexed]
  refine ⟨fun k v hv hk => h.wellFormed k v ?_ hk, ?_⟩
  · rwa [SortedMap.get_insert_of_ne] at hv
    rintro rfl
    rw [not_index_rowKey] at hk
    cases hk
  · rw [hset, hindexed]
    exact h.numbered

/-- A terminal row in the place of one that is not joins under a new sequence. -/
theorem Queue.queued {rows : Rows} {rid : Bytes} {prior : Option Value} {value : Value}
    {seq : UInt64} (h : Queue S rows top) (hprior : rows.get (rowKey rid) = prior)
    (hsound : (Item.queued rid prior value seq).Sound S) (hseq : top < seq.toNat) :
    Queue S ((rows.insert (rowKey rid) value).insert (indexKey seq rid) []) seq.toNat := by
  have hnot : rid ∉ terminals S rows := by
    rintro ⟨v, hv, ht⟩
    have hall := hsound.1
    rw [← hprior, hv, Option.all_some, ht] at hall
    cases hall
  have hset : terminals S ((rows.insert (rowKey rid) value).insert (indexKey seq rid) []) =
      insert rid (terminals S rows) := by
    ext rid'
    rw [Set.mem_insert_iff]
    simp only [terminals, Set.mem_ofPred_eq,
      SortedMap.get_insert_of_ne _ _ (rowKey_ne_indexKey rid' rid seq)]
    by_cases hrid : rid' = rid
    · subst hrid
      exact ⟨fun _ => .inl rfl, fun _ => ⟨value, SortedMap.get_insert_self _ _ _, hsound.2⟩⟩
    · rw [SortedMap.get_insert_of_ne _ _ fun heq => hrid (rowKey_injective heq)]
      exact (or_iff_right hrid).symm
  have hindexed : ∀ m rid',
      Indexed ((rows.insert (rowKey rid) value).insert (indexKey seq rid) []) m rid' ↔
        (m = seq ∧ rid' = rid) ∨ Indexed rows m rid' := by
    intro m rid'
    by_cases hk : indexKey m rid' = indexKey seq rid
    · obtain ⟨rfl, rfl⟩ := indexKey_inj hk
      simp [Indexed]
    · rw [Indexed, SortedMap.get_insert_of_ne _ _ hk,
        SortedMap.get_insert_of_ne _ _ (rowKey_ne_indexKey rid rid' m).symm]
      refine (or_iff_right ?_).symm
      rintro ⟨rfl, rfl⟩
      exact hk rfl
  refine ⟨fun k v hv hk => ?_, h.numbered.add hnot hseq hset hindexed⟩
  by_cases hkey : k = indexKey seq rid
  · subst hkey
    rw [SortedMap.get_insert_self] at hv
    exact ⟨(Option.some.inj hv).symm, seq, rid, rfl⟩
  · rw [SortedMap.get_insert_of_ne _ _ hkey, SortedMap.get_insert_of_ne] at hv
    · exact h.wellFormed k v hv hk
    · rintro rfl
      rw [not_index_rowKey] at hk
      cases hk

/-- A terminal row leaves together with its index. -/
theorem Queue.acked {rows : Rows} {top : ℕ} {rid : Bytes} {seq : UInt64}
    (h : Queue S rows top) (hindex : Indexed rows seq rid) :
    Queue S ((rows.erase (rowKey rid)).erase (indexKey seq rid)) top := by
  have hset : terminals S ((rows.erase (rowKey rid)).erase (indexKey seq rid)) =
      terminals S rows \ {rid} := by
    ext rid'
    rw [Set.mem_sdiff, Set.mem_singleton_iff]
    simp only [terminals, Set.mem_ofPred_eq,
      SortedMap.get_erase_of_ne _ (rowKey_ne_indexKey rid' rid seq)]
    by_cases hrid : rid' = rid
    · subst hrid
      rw [SortedMap.get_erase_self]
      simp
    · rw [SortedMap.get_erase_of_ne _ fun heq => hrid (rowKey_injective heq)]
      exact (and_iff_left hrid).symm
  have hindexed : ∀ m rid',
      Indexed ((rows.erase (rowKey rid)).erase (indexKey seq rid)) m rid' ↔
        Indexed rows m rid' ∧ ¬ (m = seq ∧ rid' = rid) := by
    intro m rid'
    by_cases hk : indexKey m rid' = indexKey seq rid
    · obtain ⟨rfl, rfl⟩ := indexKey_inj hk
      simp [Indexed]
    · rw [Indexed, SortedMap.get_erase_of_ne _ hk,
        SortedMap.get_erase_of_ne _ (rowKey_ne_indexKey rid rid' m).symm]
      refine (and_iff_left ?_).symm
      rintro ⟨rfl, rfl⟩
      exact hk rfl
  refine ⟨fun k v hv hk => ?_, h.numbered.remove hindex hset hindexed⟩
  by_cases hkey : k = indexKey seq rid
  · rw [hkey, SortedMap.get_erase_self] at hv
    cases hv
  · rw [SortedMap.get_erase_of_ne _ hkey, SortedMap.get_erase_of_ne] at hv
    · exact h.wellFormed k v hv hk
    · rintro rfl
      rw [not_index_rowKey] at hk
      cases hk

theorem holds_guardOf {prior : Option Value} {rows : Rows} {now : UInt64} :
    (guardOf k prior).Holds rows now ↔ rows.get k = prior := by
  cases prior <;> rfl

variable {i : Item}

/-- What an entry guards is the row of its reservation. -/
theorem Item.exists_of_mem_pre {p : Precondition} (h : p ∈ i.pre) :
    ∃ rid prior, i.rid? = some rid ∧ p = guardOf (rowKey rid) prior := by
  cases i with
  | held rid prior value => exact ⟨rid, prior, rfl, List.mem_singleton.1 h⟩
  | queued rid prior value seq => exact ⟨rid, prior, rfl, List.mem_singleton.1 h⟩
  | relayed => cases h
  | woken => cases h

/-- What an entry writes: the row of its reservation, its index, or a key outside. -/
theorem Item.key_of_mem_writes (hi : i.Sound S) (h : w ∈ i.writes) :
    (∃ rid, i.rid? = some rid ∧ (w.key = rowKey rid ∨
      ∃ seq, i.seq? = some seq ∧ w.key = indexKey seq rid)) ∨ Outside w.key := by
  cases i with
  | held rid prior value =>
    obtain rfl := List.mem_singleton.1 h
    exact .inl ⟨rid, rfl, .inl rfl⟩
  | queued rid prior value seq =>
    rcases List.mem_cons.1 h with rfl | h
    · exact .inl ⟨rid, rfl, .inl rfl⟩
    · obtain rfl := List.mem_singleton.1 h
      exact .inl ⟨rid, rfl, .inr ⟨seq, rfl, rfl⟩⟩
  | relayed seq value =>
    obtain rfl := List.mem_singleton.1 h
    exact .inr (outside_relay seq)
  | woken k =>
    obtain rfl := List.mem_singleton.1 h
    exact .inr (outside_timer hi)

/-- An entry leaves the rows of other reservations alone. -/
theorem Item.row_ne_key (hi : i.Sound S) {rid : Bytes} (hrid : i.rid? ≠ some rid) :
    ∀ w ∈ i.writes, rowKey rid ≠ w.key := by
  intro w hw heq
  rcases Item.key_of_mem_writes hi hw with ⟨rid', hrid', hkey | ⟨seq, -, hkey⟩⟩ | hout
  · rw [hkey] at heq
    exact hrid (rowKey_injective heq ▸ hrid')
  · exact rowKey_ne_indexKey rid rid' seq (heq.trans hkey)
  · exact hout.ne_rowKey rid heq

/-- One entry of a builder keeps the queue and counts what it adds. -/
theorem Queue.item {rows : Rows} {now : UInt64} (h : Queue S rows top)
    (hsound : i.Sound S) (hpre : ∀ p ∈ i.pre, p.Holds rows now)
    (hseq : ∀ s ∈ i.seq?, top < s.toNat) (happly : applyWrites rows i.writes = .ok rows') :
    Queue S rows' (i.seq?.elim top UInt64.toNat) ∧ rowCount S rows' = rowCount S rows + i.rows ∧
      byteCount S rows' = byteCount S rows + i.bytes := by
  cases i with
  | held rid prior value =>
    have hprior := holds_guardOf.1 (hpre _ (List.mem_singleton.2 rfl))
    obtain rfl := Except.ok.inj happly
    refine ⟨h.held hprior hsound, ?_⟩
    have hcounts := counts_update_row (S := S) rows rid (some value)
    have hold := weight_of_not_terminal rid hsound.1
    have hnew := @weight_of_not_terminal S rid (some value) (by simp [hsound.2])
    rw [hprior] at hcounts
    simp only [hold, hnew, Nat.add_zero] at hcounts
    exact hcounts
  | queued rid prior value seq =>
    have hprior := holds_guardOf.1 (hpre _ (List.mem_singleton.2 rfl))
    obtain rfl := Except.ok.inj happly
    refine ⟨h.queued hprior hsound (hseq seq rfl), ?_⟩
    have hcounts := counts_update_row (S := S) rows rid (some value)
    have hindex := counts_update (S := S) (rows.insert (rowKey rid) value)
      (not_row_indexKey seq rid) (some [])
    have hold := weight_of_not_terminal rid hsound.1
    have hnew := weight_of_terminal rid hsound.2
    rw [hprior] at hcounts
    simp only [hold, hnew, Nat.add_zero, Option.elim_some] at hcounts
    exact ⟨hindex.1.trans hcounts.1, hindex.2.trans hcounts.2⟩
  | relayed seq value =>
    obtain ⟨hq, hrows, hbytes⟩ := queue_of_outside h (outside_relay seq)
      (w := .put (keys.relay seq) value) happly
    exact ⟨hq.mono (hseq seq rfl).le, hrows, hbytes⟩
  | woken k => exact queue_of_outside h (outside_timer hsound) (w := .put k []) happly

/-- The entries of a builder keep the queue and count what they add. -/
theorem Queue.items {items : List Item} {rows : Rows} {T : ℕ} {now : UInt64}
    (h : Queue S rows top) (hsound : ∀ i ∈ items, i.Sound S)
    (hpre : ∀ i ∈ items, ∀ p ∈ i.pre, p.Holds rows now) (hrids : (ridsOf items).Nodup)
    (hascending : (seqsOf items).Pairwise fun s s' => s.toNat < s'.toNat)
    (habove : ∀ s ∈ seqsOf items, top < s.toNat ∧ s.toNat ≤ T) (hT : top ≤ T)
    (happly : applyWrites rows (items.flatMap Item.writes) = .ok rows') :
    Queue S rows' T ∧ rowCount S rows' = rowCount S rows + (items.map Item.rows).sum ∧
      byteCount S rows' = byteCount S rows + (items.map Item.bytes).sum := by
  induction items generalizing rows top with
  | nil =>
    obtain rfl := Except.ok.inj happly
    exact ⟨h.mono hT, rfl, rfl⟩
  | cons i rest ih =>
    rw [List.forall_mem_cons] at hsound hpre
    rw [List.flatMap_cons] at happly
    obtain ⟨mid, hmid, hrest⟩ := applyWrites_append_eq_ok.1 happly
    have hseq : ∀ s ∈ i.seq?, top < s.toNat := fun s hs =>
      (habove s (List.mem_filterMap.2 ⟨i, List.mem_cons_self, hs⟩)).1
    obtain ⟨hq, hrows, hbytes⟩ := h.item hsound.1 hpre.1 hseq hmid
    -- The guards of the rest name rows that this entry leaves alone.
    have hguards : ∀ j ∈ rest, ∀ p ∈ j.pre, p.Holds mid now := by
      intro j hj p hp
      obtain ⟨rid, prior, hrid, rfl⟩ := Item.exists_of_mem_pre hp
      have hother : i.rid? ≠ some rid := by
        intro hi
        rw [ridsOf, List.filterMap_cons_some hi, List.nodup_cons] at hrids
        exact hrids.1 (List.mem_filterMap.2 ⟨j, hj, hrid⟩)
      rw [holds_guardOf, applyWrites_get hmid (Item.row_ne_key hsound.1 hother)]
      exact holds_guardOf.1 (hpre.2 j hj _ hp)
    have hsub : (seqsOf rest).Sublist (seqsOf (i :: rest)) :=
      (List.sublist_cons_self i rest).filterMap _
    have hnext : ∀ s ∈ seqsOf rest, i.seq?.elim top UInt64.toNat < s.toNat ∧ s.toNat ≤ T := by
      intro s hs
      refine ⟨?_, (habove s (hsub.subset hs)).2⟩
      cases hi : i.seq? with
      | none => exact (habove s (hsub.subset hs)).1
      | some s₀ =>
        rw [seqsOf, List.filterMap_cons_some hi, List.pairwise_cons] at hascending
        exact hascending.1 s hs
    have hle : i.seq?.elim top UInt64.toNat ≤ T := by
      cases hi : i.seq? with
      | none => exact hT
      | some s₀ => exact (habove s₀ (List.mem_filterMap.2 ⟨i, List.mem_cons_self, hi⟩)).2
    obtain ⟨hq', hrows', hbytes'⟩ := ih hq hsound.2 hguards
      (hrids.sublist ((List.sublist_cons_self i rest).filterMap _))
      (hascending.sublist hsub) hnext hle hrest
    rw [List.map_cons, List.sum_cons, List.map_cons, List.sum_cons]
    refine ⟨hq', ?_, ?_⟩ <;> omega

/-! ### The accounts of a shard -/

/-- The backlog row stands for the counts; no row stands for nothing. -/
def Counter (S : Serde) (oc : Option Value) (rows bytes : ℕ) : Prop :=
  (oc = none ∧ rows = 0 ∧ bytes = 0) ∨
    ∃ backlog : Backlog, oc = some (encodeBacklog S backlog) ∧ backlog.rows.toNat = rows ∧
      backlog.bytes.toNat = bytes

/-- The index numbers the terminal rows up to the sequence, and the backlog row counts them. -/
structure Accounted (S : Serde) (rows : Rows) : Prop where
  queue : Queue S rows (sequenceOf (rows.get keys.outboxSequence)).toNat
  counter : Counter S (rows.get keys.outcomeBacklog) (rowCount S rows) (byteCount S rows)

/-- What decodes of an accounted backlog row are the counts. -/
theorem Counter.eq_of_decode {oc : Option Value} {rows bytes : ℕ} {backlog : Backlog}
    (h : Counter S oc rows bytes) (hd : counterOf S oc = .ok backlog) :
    backlog.rows.toNat = rows ∧ backlog.bytes.toNat = bytes := by
  rcases h with ⟨rfl, rfl, rfl⟩ | ⟨b, rfl, hrows, hbytes⟩
  · obtain rfl := Except.ok.inj hd
    exact ⟨rfl, rfl⟩
  · obtain rfl := decodeBacklog_encodeBacklog hd
    exact ⟨hrows, hbytes⟩

/-- The sequence a key of the index was written under. -/
def sequenceOfIndex (k : Key) : Option UInt64 :=
  if keys.ofClass keys.TAG_OUTCOME_PENDING k then
    (keys.splitBe64 (k.drop (keys.TAG_OUTCOME_PENDING.length + 1))).map Prod.fst
  else none

/-- The sequences under which a batch queues outcomes, in the order of its writes. -/
def queuedSeqs (writes : List Write) : List UInt64 :=
  writes.filterMap fun w => match w with
    | .put k _ => sequenceOfIndex k
    | _ => none

theorem sequenceOfIndex_indexKey (seq : UInt64) (rid : Bytes) :
    sequenceOfIndex (indexKey seq rid) = some seq := by
  rw [sequenceOfIndex, if_pos (ofClass_indexKey seq rid)]
  have hdrop : (indexKey seq rid).drop (keys.TAG_OUTCOME_PENDING.length + 1) =
      keys.be64 seq ++ rid := by
    simp [indexKey, keys.key, List.drop_append]
  rw [hdrop, keys.splitBe64, if_neg (by simp), List.take_left' (keys.length_be64 seq),
    ofNat_ofLeBytes_be64]
  rfl

theorem sequenceOfIndex_of_not_index
    (h : keys.ofClass keys.TAG_OUTCOME_PENDING k = false) : sequenceOfIndex k = none := by
  rw [sequenceOfIndex, if_neg (by simp [h])]

theorem queuedSeqs_append (ws ws' : List Write) :
    queuedSeqs (ws ++ ws') = queuedSeqs ws ++ queuedSeqs ws' :=
  List.filterMap_append

variable {ws : List Write}

/-- Writes outside the index queue nothing. -/
theorem queuedSeqs_eq_nil
    (h : ∀ w ∈ ws, keys.ofClass keys.TAG_OUTCOME_PENDING w.key = false) : queuedSeqs ws = [] := by
  refine List.filterMap_eq_nil_iff.2 fun w hw => ?_
  cases w with
  | put k v => exact sequenceOfIndex_of_not_index (h _ hw)
  | delete => rfl
  | increment => rfl

/-- The entries of a builder queue under sequences that they took. -/
theorem queuedSeqs_items {items : List Item} (hsound : ∀ i ∈ items, i.Sound S) :
    (queuedSeqs (items.flatMap Item.writes)).Sublist (seqsOf items) := by
  induction items with
  | nil => exact List.Sublist.slnil
  | cons i rest ih =>
    rw [List.forall_mem_cons] at hsound
    have hcons : seqsOf (i :: rest) = i.seq?.toList ++ seqsOf rest := by
      cases hi : i.seq? <;> simp [seqsOf, hi]
    rw [List.flatMap_cons, queuedSeqs_append, hcons]
    refine List.Sublist.append ?_ (ih hsound.2)
    cases i with
    | held rid prior value =>
      rw [queuedSeqs_eq_nil fun w hw => by
        obtain rfl := List.mem_singleton.1 hw
        exact not_index_rowKey rid]
      exact List.nil_sublist _
    | queued rid prior value seq =>
      have hq : queuedSeqs (Item.queued rid prior value seq).writes = [seq] := by
        simp only [Item.writes, queuedSeqs, List.filterMap_cons, List.filterMap_nil,
          sequenceOfIndex_of_not_index (not_index_rowKey rid), sequenceOfIndex_indexKey]
      rw [hq]
      exact List.Sublist.refl _
    | relayed seq value =>
      rw [queuedSeqs_eq_nil fun w hw => by
        obtain rfl := List.mem_singleton.1 hw
        exact (outside_relay seq).2]
      exact List.nil_sublist _
    | woken k =>
      rw [queuedSeqs_eq_nil fun w hw => by
        obtain rfl := List.mem_singleton.1 hw
        exact (outside_timer hsound.1).2]
      exact List.nil_sublist _

/-- What writes that a batch has planned so far make of the rows. -/
structure Effects (S : Serde) (rows : Rows) (writes : List Write) (rows' : Rows) : Prop where
  accounted : Accounted S rows'
  /-- Who writes an index row writes the row it points at. -/
  paired : ∀ w ∈ writes, ∀ seq rid, w.key = indexKey seq rid → ∃ w' ∈ writes, w'.key = rowKey rid
  /-- A terminal row stays as it is or leaves. -/
  kept : ∀ rid value, rows.get (rowKey rid) = some value → terminalValue S value = true →
    rows'.get (rowKey rid) = some value ∨ rows'.get (rowKey rid) = none
  ascending : (queuedSeqs writes).Pairwise fun s s' => s.toNat < s'.toNat
  fresh : ∀ s ∈ queuedSeqs writes,
    (sequenceOf (rows.get keys.outboxSequence)).toNat < s.toNat ∧
      s.toNat ≤ (sequenceOf (rows'.get keys.outboxSequence)).toNat
  monotone : (sequenceOf (rows.get keys.outboxSequence)).toNat ≤
    (sequenceOf (rows'.get keys.outboxSequence)).toNat

theorem Effects.nil {rows : Rows} (h : Accounted S rows) : Effects S rows [] rows where
  accounted := h
  paired := fun w hw => nomatch hw
  kept := fun rid value hv _ => .inl hv
  ascending := List.Pairwise.nil
  fresh := fun s hs => nomatch hs
  monotone := le_rfl

/-- A key of the outbox that only builders and acknowledgements write. -/
def isOutboxKey (k : Key) : Bool :=
  keys.ofClass keys.TAG_RESERVATION k || keys.ofClass keys.TAG_OUTCOME_PENDING k ||
    k == keys.outboxSequence || k == keys.outcomeBacklog

/-- Writes outside the outbox keep its queue and its counts. -/
theorem queue_of_writes_outside {rows : Rows} (h : Queue S rows top) (hws : ∀ w ∈ ws, Outside w.key)
    (happly : applyWrites rows ws = .ok rows') :
    Queue S rows' top ∧ rowCount S rows' = rowCount S rows ∧
      byteCount S rows' = byteCount S rows := by
  induction ws generalizing rows with
  | nil =>
    obtain rfl := Except.ok.inj happly
    exact ⟨h, rfl, rfl⟩
  | cons w ws ih =>
    rw [List.forall_mem_cons] at hws
    obtain ⟨mid, hw, hrest⟩ := applyWrites_cons_eq_ok.1 happly
    obtain ⟨hq, hrows, hbytes⟩ := queue_of_outside h hws.1 hw
    obtain ⟨hq', hrows', hbytes'⟩ := ih hq hws.2 hrest
    exact ⟨hq', hrows'.trans hrows, hbytes'.trans hbytes⟩

/-- What the caller writes beside the outbox. -/
theorem Effects.caller {rows mid : Rows} {writes : List Write}
    (h : Effects S rows writes mid) (hws : ∀ w ∈ ws, isOutboxKey w.key = false)
    (happly : applyWrites mid ws = .ok rows') : Effects S rows (writes ++ ws) rows' := by
  have hkeys : ∀ w ∈ ws, Outside w.key ∧ w.key ≠ keys.outboxSequence ∧
      w.key ≠ keys.outcomeBacklog := by
    intro w hw
    have hout := hws w hw
    simp only [isOutboxKey, Bool.or_eq_false_iff, beq_eq_false_iff_ne] at hout
    exact ⟨⟨hout.1.1.1, hout.1.1.2⟩, hout.1.2, hout.2⟩
  have hos : rows'.get keys.outboxSequence = mid.get keys.outboxSequence :=
    applyWrites_get happly fun w hw => (hkeys w hw).2.1.symm
  have hoc : rows'.get keys.outcomeBacklog = mid.get keys.outcomeBacklog :=
    applyWrites_get happly fun w hw => (hkeys w hw).2.2.symm
  have hrow : ∀ rid, rows'.get (rowKey rid) = mid.get (rowKey rid) := fun rid =>
    applyWrites_get happly fun w hw => (hkeys w hw).1.ne_rowKey rid
  have hseqs : queuedSeqs (writes ++ ws) = queuedSeqs writes := by
    rw [queuedSeqs_append, queuedSeqs_eq_nil fun w hw => (hkeys w hw).1.2, List.append_nil]
  obtain ⟨hq, hrows, hbytes⟩ :=
    queue_of_writes_outside h.accounted.queue (fun w hw => (hkeys w hw).1) happly
  refine ⟨⟨hos ▸ hq, ?_⟩, fun w hw seq rid hkey => ?_, fun rid value hv ht => ?_, hseqs ▸ h.ascending,
    ?_, hos ▸ h.monotone⟩
  · rw [hoc, hrows, hbytes]
    exact h.accounted.counter
  · rcases List.mem_append.1 hw with hw | hw
    · obtain ⟨w', hw', hkey'⟩ := h.paired w hw seq rid hkey
      exact ⟨w', List.mem_append_left _ hw', hkey'⟩
    · exact absurd hkey.symm ((hkeys w hw).1.ne_indexKey seq rid)
  · rw [hrow]
    exact h.kept rid value hv ht
  · rw [hseqs, hos]
    exact h.fresh

/-! ### A finished builder -/

/-- The row of a reservation that an entry writes was guarded not to be terminal. -/
theorem Item.prior_of_rid {rid : Bytes} (hi : i.Sound S) (hrid : i.rid? = some rid) :
    ∃ prior, guardOf (rowKey rid) prior ∈ i.pre ∧ prior.all (!terminalValue S ·) = true := by
  cases i with
  | held rid' prior value =>
    obtain rfl := Option.some.inj hrid
    exact ⟨prior, List.mem_singleton.2 rfl, hi.1⟩
  | queued rid' prior value seq =>
    obtain rfl := Option.some.inj hrid
    exact ⟨prior, List.mem_singleton.2 rfl, hi.1⟩
  | relayed => cases hrid
  | woken => cases hrid

/-- Entries without terminal rows have no bytes of terminal rows. -/
theorem bytes_eq_zero {items : List Item} (h : (items.map Item.rows).sum = 0) :
    (items.map Item.bytes).sum = 0 := by
  induction items with
  | nil => rfl
  | cons i rest ih =>
    rw [List.map_cons, List.sum_cons] at h ⊢
    have hrest := ih (by omega)
    cases i with
    | queued =>
      simp only [Item.rows] at h
      omega
    | _ => simpa [Item.bytes] using hrest

/-- Entries leave the keys outside alone. -/
theorem items_get {items : List Item} {rows : Rows} (hsound : ∀ i ∈ items, i.Sound S)
    (happly : applyWrites rows (items.flatMap Item.writes) = .ok rows')
    (hk : ∀ i ∈ items, ∀ w ∈ i.writes, k ≠ w.key) : rows'.get k = rows.get k :=
  applyWrites_get happly fun w hw => by
    obtain ⟨i, hi, hw⟩ := List.mem_flatMap.1 hw
    exact hk i hi w hw

/-- The row of the sequence is what a builder that took sequences wrote. -/
theorem rowWrite_apply {touched : Bool} {value : Value} {rows : Rows}
    (h : applyWrites rows (rowWrite touched k value) = .ok rows') :
    rows'.get k = (if touched then some value else rows.get k) ∧
      ∀ x, x ≠ k → rows'.get x = rows.get x := by
  cases touched with
  | true =>
    obtain rfl := Except.ok.inj h
    exact ⟨SortedMap.get_insert_self rows k value,
      fun x hx => SortedMap.get_insert_of_ne rows value hx⟩
  | false =>
    obtain rfl := Except.ok.inj h
    exact ⟨rfl, fun _ _ => rfl⟩

/-- An entry writes no key of another class. -/
theorem Item.ne_key_of_class (hi : i.Sound S) (hout : Outside k)
    (hrelay : keys.ofClass keys.TAG_RELAY k = false)
    (htimer : keys.ofClass keys.TAG_TIMER k = false) : ∀ w ∈ i.writes, k ≠ w.key := by
  rintro w hw rfl
  cases i with
  | held rid prior value =>
    obtain rfl := List.mem_singleton.1 hw
    exact hout.ne_rowKey rid rfl
  | queued rid prior value seq =>
    rcases List.mem_cons.1 hw with rfl | hw
    · exact hout.ne_rowKey rid rfl
    · obtain rfl := List.mem_singleton.1 hw
      exact hout.ne_indexKey seq rid rfl
  | relayed seq value =>
    obtain rfl := List.mem_singleton.1 hw
    have hclass : keys.ofClass keys.TAG_RELAY (keys.relay seq) = true :=
      keys.ofClass_key (by decide) (by decide) _
    rw [show (Write.put (keys.relay seq) value).key = keys.relay seq from rfl, hclass] at hrelay
    cases hrelay
  | woken k =>
    obtain rfl := List.mem_singleton.1 hw
    rw [show (Write.put k []).key = k from rfl, show _ = true from hi] at htimer
    cases htimer

/-- An entry that indexes a reservation writes its row. -/
theorem Item.paired (hi : i.Sound S) (hw : w ∈ i.writes) {seq : UInt64}
    {rid : Bytes} (hkey : w.key = indexKey seq rid) : ∃ w' ∈ i.writes, w'.key = rowKey rid := by
  rcases Item.key_of_mem_writes hi hw with ⟨rid', hrid, hrow | ⟨seq', hseq, hindex⟩⟩ | hout
  · exact absurd (hrow.symm.trans hkey) (rowKey_ne_indexKey rid' rid seq)
  · obtain ⟨-, rfl⟩ := indexKey_inj (hkey.symm.trans hindex)
    cases i with
    | held => cases hseq
    | queued rid' prior value seq' =>
      obtain rfl := Option.some.inj hrid
      exact ⟨_, List.mem_cons_self, rfl⟩
    | relayed => cases hrid
    | woken => cases hrid
  · exact absurd hkey.symm (hout.ne_indexKey seq rid)

theorem sequenceOf_encodeU64 (n : UInt64) : sequenceOf (some (encodeU64 n)) = n := by
  rw [sequenceOf, decodeOr, decodeU64_encodeU64]

/-- The writes of a finished builder behind its entries. -/
def closing (S : Serde) (b : OutboxBuilder) (timers : List Key) : List Write :=
  rowWrite b.sequenceTouched keys.outboxSequence (encodeU64 b.seq) ++
    (rowWrite b.backlogTouched keys.outcomeBacklog (encodeBacklog S b.backlog) ++
      timers.map fun k => .put k [])

variable {b : OutboxBuilder}

theorem outside_of_mem_closing {timers : List Key}
    (htimers : ∀ k ∈ timers, keys.ofClass keys.TAG_TIMER k = true) :
    ∀ w ∈ closing S b timers, Outside w.key := by
  intro w hw
  simp only [closing, rowWrite, List.mem_append, List.mem_ite_nil_right, List.mem_singleton,
    List.mem_map] at hw
  rcases hw with ⟨-, rfl⟩ | ⟨-, rfl⟩ | ⟨k, hk, rfl⟩
  · exact outside_sequence
  · exact outside_backlog
  · exact outside_timer (htimers k hk)

theorem closing_apply {timers : List Key} {rows : Rows}
    (htimers : ∀ k ∈ timers, keys.ofClass keys.TAG_TIMER k = true)
    (h : applyWrites rows (closing S b timers) = .ok rows') : rows'.get keys.outboxSequence =
        (if b.sequenceTouched then some (encodeU64 b.seq) else rows.get keys.outboxSequence) ∧
      rows'.get keys.outcomeBacklog =
        (if b.backlogTouched then some (encodeBacklog S b.backlog)
          else rows.get keys.outcomeBacklog) := by
  obtain ⟨m₁, hsequence, h⟩ := applyWrites_append_eq_ok.1 h
  obtain ⟨m₂, hbacklog, h⟩ := applyWrites_append_eq_ok.1 h
  have htimer : ∀ k, keys.ofClass keys.TAG_TIMER k = false → rows'.get k = m₂.get k :=
    fun k hk => applyWrites_get h fun w hw heq => by
      obtain ⟨t, ht, rfl⟩ := List.mem_map.1 hw
      rw [heq, show keys.ofClass keys.TAG_TIMER (Write.put t []).key = true from htimers t ht] at hk
      cases hk
  have hne : keys.outboxSequence ≠ keys.outcomeBacklog := by decide
  rw [htimer _ (by decide), htimer _ (by decide), (rowWrite_apply hbacklog).2 _ hne,
    (rowWrite_apply hsequence).1, (rowWrite_apply hbacklog).1,
    (rowWrite_apply hsequence).2 _ hne.symm]
  exact ⟨rfl, rfl⟩

/-- What a finished builder adds to a batch. -/
theorem Effects.fragment {rows mid : Rows} {now : UInt64} {plan : Plan}
    {items : List Item} {batch : Batch} (h : Effects S rows plan.writes mid)
    (hf : Fragment S plan b items batch) (hmid : applyWrites rows plan.writes = .ok mid)
    (hguards : ∀ p ∈ batch.preconditions, p.Holds rows now)
    (happly : applyWrites mid batch.writes = .ok rows') :
    Effects S rows (plan.writes ++ batch.writes) rows' := by
  obtain ⟨timers, htimers, hwrites⟩ := hf.writes
  have hwrites : batch.writes = items.flatMap Item.writes ++ closing S b timers := by
    rw [hwrites, hf.shape.writes, closing, List.append_assoc, List.append_assoc]
  have hunplanned : ∀ {k}, Unplanned plan k → mid.get k = rows.get k := fun hk =>
    applyWrites_get hmid fun w hw => (hk.2 w hw).symm
  -- What the guards say of the rows the caller has left alone.
  have hitems : ∀ i ∈ items, ∀ p ∈ i.pre, p.Holds mid now := by
    intro i hi p hp
    obtain ⟨rid, prior, hrid, rfl⟩ := Item.exists_of_mem_pre hp
    rw [holds_guardOf, hunplanned (hf.rows rid (List.mem_filterMap.2 ⟨i, hi, hrid⟩))]
    refine holds_guardOf.1 (hguards _ ?_)
    rw [hf.pre, hf.shape.pre]
    exact List.mem_append_left _ (List.mem_append_left _ (List.mem_flatMap.2 ⟨i, hi, hp⟩))
  have hos : b.sequenceTouched = true → mid.get keys.outboxSequence = b.os := by
    intro ht
    rw [hunplanned (hf.sequence ht)]
    refine holds_guardOf.1 (hguards _ ?_)
    rw [hf.pre, rowPre, if_pos ht]
    exact List.mem_append_left _ (List.mem_append_right _ (List.mem_singleton.2 rfl))
  have hoc : b.backlogTouched = true → mid.get keys.outcomeBacklog = b.oc := by
    intro ht
    rw [hunplanned (hf.backlog ht)]
    refine holds_guardOf.1 (hguards _ ?_)
    rw [hf.pre]
    refine List.mem_append_right _ ?_
    rw [rowPre, if_pos ht]
    exact List.mem_singleton.2 rfl
  rw [hwrites] at happly
  obtain ⟨m, hentries, hclosing⟩ := applyWrites_append_eq_ok.1 happly
  have houtside := outside_of_mem_closing (S := S) (b := b) htimers
  obtain ⟨hos', hoc'⟩ := closing_apply htimers hclosing
  have hfixed : ∀ k, Outside k → keys.ofClass keys.TAG_RELAY k = false →
      keys.ofClass keys.TAG_TIMER k = false → m.get k = mid.get k := fun k hk hr ht =>
    items_get hf.shape.sound hentries fun i hi =>
      Item.ne_key_of_class (hf.shape.sound i hi) hk hr ht
  rw [hfixed _ outside_sequence (by decide) (by decide)] at hos'
  rw [hfixed _ outside_backlog (by decide) (by decide)] at hoc'
  -- The sequences of the entries lie between the two rows of the sequence.
  have htop : (sequenceOf (mid.get keys.outboxSequence)).toNat ≤
      (sequenceOf (rows'.get keys.outboxSequence)).toNat := by
    rw [hos']
    cases ht : b.sequenceTouched with
    | true =>
      rw [if_pos rfl, sequenceOf_encodeU64, hos ht]
      exact hf.shape.start
    | false =>
      rw [if_neg (by decide)]
  have habove : ∀ s ∈ seqsOf items, (sequenceOf (mid.get keys.outboxSequence)).toNat < s.toNat ∧
      s.toNat ≤ (sequenceOf (rows'.get keys.outboxSequence)).toNat := by
    intro s hs
    have ht := hf.shape.sequence (List.ne_nil_of_mem hs)
    rw [hos', if_pos ht, sequenceOf_encodeU64, hos ht]
    exact hf.shape.above s hs
  obtain ⟨hq, hrows, hbytes⟩ := h.accounted.queue.items hf.shape.sound hitems hf.shape.rids
    hf.shape.ascending habove htop hentries
  obtain ⟨hq', hrows', hbytes'⟩ := queue_of_writes_outside hq houtside hclosing
  rw [hrows] at hrows'
  rw [hbytes] at hbytes'
  have hqueued : queuedSeqs (plan.writes ++ batch.writes) =
      queuedSeqs plan.writes ++ queuedSeqs (items.flatMap Item.writes) := by
    rw [hwrites, queuedSeqs_append, queuedSeqs_append,
      queuedSeqs_eq_nil fun w hw => (houtside w hw).2, List.append_nil]
  have hsub := queuedSeqs_items hf.shape.sound
  refine ⟨⟨hq', ?_⟩, fun w hw seq rid hkey => ?_, fun rid value hv ht => ?_, ?_, fun s hs => ?_,
    h.monotone.trans htop⟩
  · rw [hoc', hrows', hbytes']
    cases ht : b.backlogTouched with
    | true =>
      obtain ⟨start, hstart, hr, hb⟩ := hf.shape.counted
      rw [← hoc ht] at hstart
      obtain ⟨hr', hb'⟩ := h.accounted.counter.eq_of_decode hstart
      exact .inr ⟨b.backlog, if_pos rfl, by rw [hr, hr'], by rw [hb, hb']⟩
    | false =>
      have hzero : (items.map Item.rows).sum = 0 := by
        by_contra hne
        rw [hf.shape.touched hne] at ht
        cases ht
      rw [if_neg (by decide), hzero, bytes_eq_zero hzero]
      exact h.accounted.counter
  · rcases List.mem_append.1 hw with hw | hw
    · obtain ⟨w', hw', hkey'⟩ := h.paired w hw seq rid hkey
      exact ⟨w', List.mem_append_left _ hw', hkey'⟩
    · rw [hwrites] at hw ⊢
      rcases List.mem_append.1 hw with hw | hw
      · obtain ⟨i, hi, hw⟩ := List.mem_flatMap.1 hw
        obtain ⟨w', hw', hkey'⟩ := Item.paired (hf.shape.sound i hi) hw hkey
        exact ⟨w', List.mem_append_right _ (List.mem_append_left _
          (List.mem_flatMap.2 ⟨i, hi, hw'⟩)), hkey'⟩
      · exact absurd hkey.symm ((houtside w hw).ne_indexKey seq rid)
  · by_cases hrid : rid ∈ ridsOf items
    · -- The entry was guarded on a row that is not terminal.
      obtain ⟨i, hi, hirid⟩ := List.mem_filterMap.1 hrid
      obtain ⟨prior, hprior, hall⟩ := Item.prior_of_rid (hf.shape.sound i hi) hirid
      have hget := holds_guardOf.1 (hitems i hi _ hprior)
      rw [hunplanned (hf.rows rid hrid), hv] at hget
      rw [← hget, Option.all_some, ht] at hall
      cases hall
    · have hm : m.get (rowKey rid) = mid.get (rowKey rid) :=
        items_get hf.shape.sound hentries fun i hi => Item.row_ne_key (hf.shape.sound i hi)
          fun hirid => hrid (List.mem_filterMap.2 ⟨i, hi, hirid⟩)
      rw [applyWrites_get hclosing fun w hw => (houtside w hw).ne_rowKey rid, hm]
      exact h.kept rid value hv ht
  · rw [hqueued, List.pairwise_append]
    refine ⟨h.ascending, hf.shape.ascending.sublist hsub, fun s hs s' hs' => ?_⟩
    have hold := (h.fresh s hs).2
    have hnew := (habove s' (hsub.subset hs')).1
    omega
  · have hmono := h.monotone
    rw [hqueued] at hs
    rcases List.mem_append.1 hs with hs | hs
    · have hold := h.fresh s hs
      omega
    · have hnew := habove s (hsub.subset hs)
      omega

end Mkit.Server
