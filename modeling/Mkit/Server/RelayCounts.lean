import Mathlib.Data.UInt
import Mkit.Server.RelayFits
import Mkit.Server.OutboxRuns

/-!
# What Delivery at a Coordinator Costs

The markers of a row are counted in the batch that delivers it. What the counting takes of the
batch is told from the store (`countingOf`): for each repository with a missing marker a guard for
every such marker, a guard and a write of the counter and three operations of the outcome, and
then the rows of the sequence and the backlog and a timer. When the counting passes the checks on
its way (`Countable`), these operations alone decide whether the row is delivered
(`prepareTargetBatch_counted`).
-/

namespace Mkit.Server

open Effect

variable {S : Serde} {B : Blake3} {get : Key → Option Value} {ns : NamespaceKey} {nowMs : UInt64}

/-! ### The rows of the counting -/

/-- The keys that only counting and registration write. -/
def isStorageKey (k : Key) : Bool :=
  keys.ofClass keys.TAG_REPO_STORAGE k || keys.ofClass keys.TAG_REPO_STORAGE_PACK k ||
    keys.ofClass keys.TAG_REPO_REGISTRY k

variable {k : Key}

/-- A key of another class is none of them. -/
theorem not_storage_of_class {tag : Bytes} (htag : 0 ∉ tag)
    (hne : tag ≠ keys.TAG_REPO_STORAGE ∧ tag ≠ keys.TAG_REPO_STORAGE_PACK ∧
      tag ≠ keys.TAG_REPO_REGISTRY) (h : keys.ofClass tag k = true) : isStorageKey k = false := by
  rw [isStorageKey, keys.ofClass_of_class (by decide) htag h,
    keys.ofClass_of_class (by decide) htag h, keys.ofClass_of_class (by decide) htag h,
    decide_eq_false hne.1.symm, decide_eq_false hne.2.1.symm, decide_eq_false hne.2.2.symm]
  rfl

theorem ofClass_repoStorage (repo : RepoName) : isStorageKey (keys.repoStorage repo) = true := by
  rw [isStorageKey, keys.repoStorage, keys.ofClass_key (by decide) (by decide)]
  rfl

theorem ofClass_repoStoragePack (repo : RepoName) (pack : Hash) :
    isStorageKey (keys.repoStoragePack repo pack) = true := by
  rw [isStorageKey, keys.repoStoragePack, keys.ofClass_key (by decide) (by decide),
    keys.ofClass_key (by decide) (by decide)]
  rfl

/-- A change of one repository's counter: what was read of it, the packs that were not marked
and what is left. -/
structure Counting where
  repo : RepoName
  raw : Value
  prior : RepoStorageV1
  fresh : List Hash
  next : RepoStorageV1

namespace Counting

/-- The guards of a counting: the markers, unless the batch puts them, and the counter. -/
def guards (putMarkers : Bool) (c : Counting) : List Precondition :=
  (if putMarkers then []
    else c.fresh.map fun pack => .absent (keys.repoStoragePack c.repo pack)) ++
    [.equals (keys.repoStorage c.repo) c.raw]

/-- The put of the counter that is left. -/
def write (c : Counting) : Write :=
  .put (keys.repoStorage c.repo) (encodeRepoStorage c.next)

end Counting

/-! ### What is counted -/

/-- The packs of a repository whose markers are missing. -/
def unmarked (get : Key → Option Value) (p : RepoName × List CountedPack) : List CountedPack :=
  p.2.filter fun pack => (get (keys.repoStoragePack p.1 pack.1)).isNone

/-- The counting of a repository, unless every marker is there. -/
def countingOf (get : Key → Option Value) (p : RepoName × List CountedPack) : Option Counting :=
  match get (keys.repoStorage p.1) with
  | none => none
  | some raw =>
    match decodeRepoStorage raw with
    | .error _ => none
    | .ok prior =>
      if unmarked get p = [] then none
      else
        some ⟨p.1, raw, prior, (unmarked get p).map Prod.fst,
          ⟨prior.storedBytes + ((unmarked get p).map Prod.snd).sum, prior.version + 1⟩⟩

namespace Counting

/-- The reservation id of the outcome. -/
def rid (B : Blake3) (ns : NamespaceKey) (c : Counting) : Bytes :=
  outcomeId B (identity ns c.repo) c.next.version

/-- The storage change as its outcome stores it. -/
def stored (ns : NamespaceKey) (nowMs : UInt64) (c : Counting) : StoredChange :=
  ⟨identity ns c.repo, nowMs, c.next.storedBytes, c.next.version⟩

/-- The value of the outcome. -/
def value (S : Serde) (ns : NamespaceKey) (nowMs : UInt64) (c : Counting) : Value :=
  encodeReservation S (c.stored ns nowMs).record

/-- What the outcome adds to the bytes of the backlog. -/
def size (S : Serde) (B : Blake3) (ns : NamespaceKey) (nowMs : UInt64) (c : Counting) : ℕ :=
  (rowKey (c.rid B ns)).length + (c.value S ns nowMs).length

end Counting

/-- The operations that counting adds to a target batch. -/
def countingOps (get : Key → Option Value) (m : SortedMap RepoName (List CountedPack)) : ℕ :=
  let cs := m.entries.filterMap (countingOf get)
  (cs.map fun c => c.fresh.length + 5).sum +
    if cs = [] then 0 else 4 + if (get keys.outcomeBacklog).isNone then 1 else 0

/-! ### Counting one repository -/

theorem checkedAdd_of_lt {a b : UInt64} (h : a.toNat + b.toNat < 2 ^ 64) :
    Words.checkedAdd a b = some (a + b) :=
  Words.checkedAdd_eq_some.2 (by rw [UInt64.toNat_add, Nat.mod_eq_of_lt h])

theorem toNat_sum {l : List UInt64} (h : (l.map UInt64.toNat).sum < 2 ^ 64) :
    l.sum.toNat = (l.map UInt64.toNat).sum := by
  induction l with
  | nil => rfl
  | cons n l ih =>
    rw [List.map_cons, List.sum_cons] at h
    rw [List.sum_cons, List.map_cons, List.sum_cons, UInt64.toNat_add,
      ih (lt_of_le_of_lt (Nat.le_add_left _ _) h), Nat.mod_eq_of_lt h]

/-- The packs that were found unmarked. -/
def unseen (packs : List (CountedPack × Bool)) : List CountedPack :=
  (packs.filter fun p => !p.2).map Prod.fst

theorem unseen_cons_true (pack : CountedPack) (packs : List (CountedPack × Bool)) :
    unseen ((pack, true) :: packs) = unseen packs := rfl

theorem unseen_cons_false (pack : CountedPack) (packs : List (CountedPack × Bool)) :
    unseen ((pack, false) :: packs) = pack :: unseen packs := rfl

/-- Counting packs that are named once: those that are not marked. -/
theorem foldlM_countPack_eq {repo : RepoName} {packs : List (CountedPack × Bool)} {c : Count}
    (hnodup : (packs.map fun p => p.1.1).Nodup) (hfresh : ∀ p ∈ packs, p.1.1 ∉ c.fresh)
    (hroom : c.added.toNat + ((unseen packs).map fun q => q.2.toNat).sum < 2 ^ 64) :
    packs.foldlM (countPack repo false) c = .ok
      ⟨⟨c.plan.pre ++ (unseen packs).map fun q => .absent (keys.repoStoragePack repo q.1),
          c.plan.writes⟩,
        c.added + ((unseen packs).map Prod.snd).sum, c.fresh ++ (unseen packs).map Prod.fst⟩ := by
  induction packs generalizing c with
  | nil =>
    change Except.ok c = _
    simp [unseen]
  | cons p packs ih =>
    obtain ⟨⟨pack, bytes⟩, marked⟩ := p
    rw [List.map_cons, List.nodup_cons] at hnodup
    rw [List.forall_mem_cons] at hfresh
    rw [List.foldlM_cons, countPack]
    cases marked with
    | true =>
      rw [Bool.true_or, if_pos rfl]
      exact ih hnodup.2 hfresh.2 hroom
    | false =>
      have hnew : c.fresh.contains pack = false := by simpa using hfresh.1
      rw [unseen_cons_false, List.map_cons, List.sum_cons] at hroom
      dsimp only at hroom ⊢
      have hadd := @checkedAdd_of_lt c.added bytes (by omega)
      have hsum := Words.checkedAdd_eq_some.1 hadd
      rw [hnew, Bool.false_or, if_neg (by decide), if_neg (by decide), hadd]
      refine (ih hnodup.2 (fun q hq => ?_) ?_).trans ?_
      · rw [List.mem_append, List.mem_singleton, not_or]
        exact ⟨hfresh.2 q hq, fun heq => hnodup.1 (List.mem_map.2 ⟨q, hq, heq⟩)⟩
      · rw [hsum]
        omega
      · simp only [unseen_cons_false, List.map_cons, List.sum_cons, List.append_assoc,
          List.singleton_append, UInt64.add_assoc]

/-- A validated terminal of a record that its decoder takes. -/
theorem Terminal.new_eq_ok {record : ReservationV1} (ht : record.isTerminal = true)
    (hd : ∃ r, decodeReservation S (encodeReservation S record) = .ok r) :
    Terminal.new S record = .ok ⟨record, ht, hd⟩ := by
  obtain ⟨r, hr⟩ := hd
  rw [Terminal.new, dif_pos ht]
  split
  case h_1 => rfl
  case h_2 e he =>
    rw [hr] at he
    cases he

/-! ### Queueing outcomes -/

theorem length_le_of_checkOutcomeRepository {repository : Str}
    (h : checkOutcomeRepository repository = .ok ()) :
    repository.bytes.length ≤ MAX_IDENTITY_LEN := by
  rw [checkOutcomeRepository] at h
  split at h
  case h_1 hparse =>
    rw [RepositoryIdentity.parseStoredBareAllowed] at hparse
    exact not_lt.1 (Wire.check_eq_ok.1 hparse).1
  case h_2 => cases h

/-- What the decoder takes of a storage change. -/
theorem decodes_stored (hS : S.WritesJson) {c : StoredChange}
    (h : checkOutcomeRepository c.repository = .ok ()) :
    ∃ r, decodeReservation S (encodeReservation S c.record) = .ok r := by
  have hlen := length_encodeReservation_le hS c
  have hrepository := length_le_of_checkOutcomeRepository h
  have hlimit : checkValueLimit (encodeReservation S c.record) = .ok () := by
    rw [MAX_IDENTITY_LEN] at hrepository
    rw [checkValueLimit, if_neg (by rw [MAX_VALUE_BYTES]; omega)]
  refine ⟨c.record, ?_⟩
  rw [decodeReservation, hlimit]
  change (decodeJson S.reservation (encodeJson S.reservation c.record) "bad reservation" >>= _) = _
  rw [decodeJson_encodeJson]
  change (checkReservation c.record >>= _) = _
  rw [show checkReservation c.record = checkOutcomeRepository c.repository from rfl, h]
  rfl

/-- Outcome ids are valid. -/
theorem validateReservationId_outcomeId (repository : Str) (version : UInt64) :
    keys.validateReservationId (outcomeId B repository version) = true := by
  have hhex : ∀ n : Fin 256, (hexByte (UInt8.ofNat n)).all
      (fun b => (0x30 ≤ b && b ≤ 0x39) || (0x61 ≤ b && b ≤ 0x7a)) = true := by
    decide +kernel
  have hlen : (Text.decimal version.toNat).length ≤ 20 :=
    Format.length_decimal_le (by decide) (version.toNat_lt.trans (by decide))
  have htake := List.length_take_le 32 (toHex (B.hash repository.bytes))
  have hprefix : (ascii ['r', 's', ':']).length = 3 := by decide
  have hcolon : (ascii [':']).length = 1 := by decide
  simp only [keys.validateReservationId, Bool.and_eq_true, decide_eq_true_eq]
  refine ⟨?_, ?_⟩
  · simp only [outcomeId, List.length_append, hprefix, hcolon]
    omega
  · simp only [outcomeId, List.all_append, Bool.and_eq_true]
    refine ⟨⟨⟨by decide, List.all_eq_true.2 fun b hb => ?_⟩, by decide⟩,
      List.all_eq_true.2 fun b hb => ?_⟩
    · obtain ⟨x, -, hb⟩ := List.mem_flatMap.1 (List.mem_of_mem_take hb)
      have hclass := List.all_eq_true.1 (hhex ⟨x.toNat, x.toNat_lt⟩) b
        (by rwa [UInt8.ofNat_toNat])
      rcases Bool.or_eq_true_iff.1 hclass with hdigit | hletter
      · rw [hdigit]
        rfl
      · rw [hletter, Bool.or_true]
        rfl
    · have hdigit := (Text.decimal_spec version.toNat).2 b hb
      have hlow : 0x30 ≤ b := UInt8.le_iff_toNat_le.2 hdigit.1
      have hhigh : b ≤ 0x39 := UInt8.le_iff_toNat_le.2 hdigit.2
      simp [hlow, hhigh]

/-- A new builder that has queued the outcomes of the countings. -/
structure Queued (S : Serde) (B : Blake3) (ns : NamespaceKey) (nowMs : UInt64)
    (start : OutboxBuilder) (cs : List Counting) (b : OutboxBuilder) : Prop where
  os : b.os = start.os
  oc : b.oc = start.oc
  error : b.error = none
  relays : b.relays = .empty
  reservations : ∀ rid, rid ∈ b.reservations ↔ ∃ c ∈ cs, c.rid B ns = rid
  seq : b.seq.toNat = start.seq.toNat + cs.length
  rows : b.backlog.rows.toNat = start.backlog.rows.toNat + cs.length
  bytes : b.backlog.bytes.toNat =
    start.backlog.bytes.toNat + (cs.map (Counting.size S B ns nowMs)).sum
  pre : b.pre = cs.map fun c => .absent (rowKey (c.rid B ns))
  writes : b.writes.length = 2 * cs.length
  slight : ∀ p ∈ writeSizes b.writes, Slight p
  sequenceTouched : b.sequenceTouched = !cs.isEmpty
  backlogTouched : b.backlogTouched = !cs.isEmpty
  kick : b.kickAtMs.isSome = (!cs.isEmpty && start.oc.isNone)

theorem queued_new {os oc : Option Value} {start : OutboxBuilder}
    (h : OutboxBuilder.new S os oc = .ok start) :
    Queued S B ns nowMs start [] start ∧ start.os = os ∧ start.oc = oc := by
  obtain ⟨seq, -, h⟩ := Wire.bind_eq_ok.1 h
  obtain ⟨-, h⟩ := Wire.check_eq_ok.1 h
  obtain ⟨backlog, -, h⟩ := Wire.bind_eq_ok.1 h
  obtain rfl := Except.ok.inj h
  exact ⟨⟨rfl, rfl, rfl, rfl, fun rid => ⟨nofun, nofun⟩, rfl, rfl, rfl, rfl, rfl, nofun, rfl, rfl,
    rfl⟩, rfl, rfl⟩

/-- The outbox has room for the outcomes of the countings. -/
structure Affords (S : Serde) (B : Blake3) (ns : NamespaceKey) (nowMs : UInt64)
    (start : OutboxBuilder) (cs : List Counting) : Prop where
  seq : start.seq.toNat + cs.length < 2 ^ 64
  rows : start.backlog.rows.toNat + cs.length < 2 ^ 64
  bytes : start.backlog.bytes.toNat + (cs.map (Counting.size S B ns nowMs)).sum < 2 ^ 64

theorem length_value_le (hS : S.WritesJson) {c : Counting}
    (h : checkOutcomeRepository (identity ns c.repo) = .ok ()) :
    (c.value S ns nowMs).length ≤ 4096 := by
  have hlen := length_encodeReservation_le hS (c.stored ns nowMs)
  have hrepository := length_le_of_checkOutcomeRepository h
  rw [MAX_IDENTITY_LEN] at hrepository
  change (c.value S ns nowMs).length ≤ 6 * (identity ns c.repo).bytes.length + 256 at hlen
  omega

theorem length_indexKey_le {seq : UInt64} {rid : Bytes}
    (h : keys.validateReservationId rid = true) : (indexKey seq rid).length ≤ MAX_KEY_BYTES := by
  simp only [keys.validateReservationId, Bool.and_eq_true, decide_eq_true_eq] at h
  simp only [indexKey, keys.key, keys.TAG_OUTCOME_PENDING, ascii, MAX_KEY_BYTES,
    List.length_append, List.length_cons, List.map_cons, List.map_nil, List.length_nil,
    List.flatten_cons, List.flatten_nil, keys.length_be64]
  omega

/-- The builder with the outcome of one more counting. -/
def Counting.queue (S : Serde) (B : Blake3) (ns : NamespaceKey) (nowMs : UInt64) (c : Counting)
    (b : OutboxBuilder) : OutboxBuilder :=
  { b with
    seq := b.seq + 1
    sequenceTouched := true
    backlog := ⟨b.backlog.rows + 1, b.backlog.bytes +
      UInt64.ofNat ((rowKey (c.rid B ns)).length + (c.value S ns nowMs).length)⟩
    backlogTouched := true
    kickAtMs := if b.oc.isNone && b.kickAtMs.isNone then some nowMs else b.kickAtMs
    pre := b.pre ++ [.absent (rowKey (c.rid B ns))]
    writes := b.writes ++ [.put (rowKey (c.rid B ns)) (c.value S ns nowMs)] ++
      [.put (indexKey (b.seq + 1) (c.rid B ns)) []]
    reservations := b.reservations.insert (c.rid B ns) }

section Queue

variable {start b : OutboxBuilder} {cs : List Counting} {c : Counting}

theorem Affords.of_append {cs' : List Counting} (h : Affords S B ns nowMs start (cs ++ cs')) :
    Affords S B ns nowMs start cs := by
  obtain ⟨hseq, hrows, hbytes⟩ := h
  rw [List.length_append] at hseq hrows
  rw [List.map_append, List.sum_append] at hbytes
  exact ⟨by omega, by omega, by omega⟩

theorem toNat_succ {n : UInt64} (h : n.toNat + 1 < 2 ^ 64) : (n + 1).toNat = n.toNat + 1 :=
  Words.checkedAdd_eq_some.1 (@checkedAdd_of_lt n 1 h)

/-- Queueing one more outcome under an id that is new. -/
theorem Queued.snoc (hS : S.WritesJson) (h : Queued S B ns nowMs start cs b)
    (hrepository : checkOutcomeRepository (identity ns c.repo) = .ok ())
    (hroom : Affords S B ns nowMs start (cs ++ [c])) :
    Queued S B ns nowMs start (cs ++ [c]) (c.queue S B ns nowMs b) := by
  have hvalid : keys.validateReservationId (c.rid B ns) = true :=
    validateReservationId_outcomeId _ _
  have hvalue := @length_value_le S ns nowMs hS c hrepository
  have hsize := @OutboxBuilder.toNat_size (c.rid B ns) hvalid (c.value S ns nowMs)
    (hvalue.trans (by decide))
  obtain ⟨hseq, hrows, hbytes⟩ := hroom
  rw [List.length_append, List.length_singleton] at hseq hrows
  rw [List.map_append, List.sum_append, List.map_singleton, List.sum_singleton] at hbytes
  have hone : (!(cs ++ [c]).isEmpty) = true := by simp
  exact {
    os := h.os
    oc := h.oc
    error := h.error
    relays := h.relays
    reservations := fun rid => by
      rw [Counting.queue, SortedSet.mem_insert, h.reservations]
      simp [or_comm, eq_comm]
    seq := by
      rw [List.length_append, List.length_singleton, ← Nat.add_assoc, ← h.seq]
      exact toNat_succ (by rw [h.seq]; omega)
    rows := by
      rw [List.length_append, List.length_singleton, ← Nat.add_assoc, ← h.rows]
      exact toNat_succ (by rw [h.rows]; omega)
    bytes := by
      rw [List.map_append, List.sum_append, List.map_singleton, List.sum_singleton,
        ← Nat.add_assoc, ← h.bytes]
      change (b.backlog.bytes + UInt64.ofNat _).toNat = _
      rw [UInt64.toNat_add, hsize, Nat.mod_eq_of_lt]
      · rfl
      · rw [h.bytes]
        change _ + c.size S B ns nowMs < _
        omega
    pre := by
      rw [List.map_append, ← h.pre]
      rfl
    writes := by
      have hwrites := h.writes
      simp only [Counting.queue, List.length_append, List.length_singleton]
      omega
    slight := fun p hp => by
      simp only [Counting.queue, writeSizes, List.map_append, List.mem_append] at hp
      rcases hp with (hp | hp) | hp
      · exact h.slight p hp
      · rw [List.mem_singleton.1 hp]
        exact ⟨length_rowKey_le hvalid, hvalue⟩
      · rw [List.mem_singleton.1 hp]
        exact ⟨length_indexKey_le hvalid, Nat.zero_le _⟩
    sequenceTouched := hone.symm
    backlogTouched := hone.symm
    kick := by
      have hkick := h.kick
      rw [hone, Bool.true_and, ← h.oc]
      rw [← h.oc] at hkick
      simp only [Counting.queue]
      cases hoc : b.oc <;> cases hat : b.kickAtMs <;> simp [hoc, hat] at hkick ⊢ }

/-- Reporting a storage change under an id that is new queues its outcome. -/
theorem storageChanged_eq (hS : S.WritesJson) (h : Queued S B ns nowMs start cs b)
    (hrepository : checkOutcomeRepository (identity ns c.repo) = .ok ())
    (hnew : ∀ c' ∈ cs, c'.rid B ns ≠ c.rid B ns)
    (hroom : Affords S B ns nowMs start (cs ++ [c])) {terminal : Terminal S}
    (hterminal : terminal.record = (c.stored ns nowMs).record) :
    b.storageChanged S (c.rid B ns) terminal = c.queue S B ns nowMs b := by
  have hvalid : keys.validateReservationId (c.rid B ns) = true :=
    validateReservationId_outcomeId _ _
  have hnext := Queued.snoc hS h hrepository hroom
  obtain ⟨record, ht, hd⟩ := terminal
  obtain rfl : record = (c.stored ns nowMs).record := hterminal
  refine OutboxBuilder.remember_of_yields (yields_liftExcept_bind.2
    ⟨_, keys.reservation_eq_ok.2 ⟨hvalid, rfl⟩, yields_bind.2 ⟨⟨⟩, _,
      OutboxBuilder.yields_claim.2 ⟨fun hin => ?_, rfl⟩, OutboxBuilder.yields_enqueue.2
        ⟨_, _, ?_, ?_, ?_, hvalid, rfl⟩⟩⟩)
  · obtain ⟨c', hc', hrid⟩ := (h.reservations _).1 hin
    exact hnew c' hc' hrid
  · have hrows := hnext.rows
    rwa [List.length_append, List.length_singleton, ← Nat.add_assoc, ← h.rows] at hrows
  · have hbytes := hnext.bytes
    have hsize := @OutboxBuilder.toNat_size (c.rid B ns) hvalid (c.value S ns nowMs)
      ((length_value_le hS hrepository).trans (by decide))
    rw [List.map_append, List.sum_append, List.map_singleton, List.sum_singleton,
      ← Nat.add_assoc, ← h.bytes] at hbytes
    exact hbytes.trans (congrArg (b.backlog.bytes.toNat + ·) hsize.symm)
  · have hseq := hnext.seq
    rwa [List.length_append, List.length_singleton, ← Nat.add_assoc, ← h.seq] at hseq

end Queue

/-! ### Counting every repository -/

/-- The counter of a repository is there, with room for what is added to it. -/
def HasCounter (get : Key → Option Value) (p : RepoName × List CountedPack) : Prop :=
  ∃ state, get (keys.repoStorage p.1) = some (encodeRepoStorage state) ∧
    (unmarked get p ≠ [] →
      state.storedBytes.toNat + ((unmarked get p).map fun q => q.2.toNat).sum < 2 ^ 64 ∧
        state.version.toNat + 1 < 2 ^ 64)

/-- Each pack as it was found. -/
def found (get : Key → Option Value) (p : RepoName × List CountedPack) :
    List (CountedPack × Bool) :=
  p.2.map fun pack => (pack, (get (keys.repoStoragePack p.1 pack.1)).isSome)

theorem unseen_found (get : Key → Option Value) (p : RepoName × List CountedPack) :
    unseen (found get p) = unmarked get p := by
  rw [unseen, found, unmarked, List.filter_map, List.map_map]
  simp [Function.comp_def]

section Repository

variable {p : RepoName × List CountedPack} {d : Draft}

/-- Counting the packs of one repository, as they were found. -/
theorem apply_eq (hS : S.WritesJson) (hnodup : (p.2.map Prod.fst).Nodup)
    (hcounter : HasCounter get p)
    (hrepository : checkOutcomeRepository (identity ns p.1) = .ok ()) : (countingOf get p = none ∧
      apply S B ns p.1 (get (keys.repoStorage p.1)) (found get p) false nowMs d = .ok d) ∨
    ∃ c terminal, countingOf get p = some c ∧ c.repo = p.1 ∧
      terminal.record = (c.stored ns nowMs).record ∧
      apply S B ns p.1 (get (keys.repoStorage p.1)) (found get p) false nowMs d =
        .ok ⟨d.outbox.storageChanged S (c.rid B ns) terminal,
          ⟨d.plan.pre ++ c.guards false, d.plan.writes ++ [c.write]⟩⟩ := by
  obtain ⟨state, hget, hroom⟩ := hcounter
  have hpacks : ((found get p).map fun q => q.1.1).Nodup := by
    rw [found, List.map_map]
    exact hnodup
  have hfold : ∀ c : Count, c.fresh = [] → c.added = 0 →
      ((unmarked get p).map fun q => q.2.toNat).sum < 2 ^ 64 →
      (found get p).foldlM (countPack p.1 false) c = .ok
        ⟨⟨c.plan.pre ++ (unmarked get p).map fun q => .absent (keys.repoStoragePack p.1 q.1),
          c.plan.writes⟩, ((unmarked get p).map Prod.snd).sum, (unmarked get p).map Prod.fst⟩ := by
    intro c hfresh hadded hsum
    have h := @foldlM_countPack_eq p.1 (found get p) c hpacks
      (fun q _ => by rw [hfresh]; exact List.not_mem_nil) (by
        rw [hadded, unseen_found]
        simpa using hsum)
    rwa [unseen_found, hfresh, hadded, UInt64.zero_add, List.nil_append] at h
  unfold apply countingOf
  rw [hget]
  simp only [pure_bind, decodeRepoStorage_encodeRepoStorage]
  by_cases hnone : unmarked get p = []
  · refine .inl ⟨if_pos hnone, Wire.bind_eq_ok.2 ⟨state, rfl, Wire.bind_eq_ok.2
      ⟨_, hfold ⟨d.plan, 0, []⟩ rfl rfl (by rw [hnone]; decide), if_pos ?_⟩⟩⟩
    rw [hnone]
    rfl
  · obtain ⟨hbytes, hversion⟩ := hroom hnone
    have hsum : ((unmarked get p).map Prod.snd).sum.toNat =
        ((unmarked get p).map fun q => q.2.toNat).sum := by
      have h := @toNat_sum ((unmarked get p).map Prod.snd) (by
        rw [List.map_map]
        exact lt_of_le_of_lt (Nat.le_add_left _ _) hbytes)
      rwa [List.map_map] at h
    have hstored := @checkedAdd_of_lt state.storedBytes ((unmarked get p).map Prod.snd).sum
      (by rw [hsum]; exact hbytes)
    have hnext := @checkedAdd_of_lt state.version 1 hversion
    let c : Counting := ⟨p.1, encodeRepoStorage state, state, (unmarked get p).map Prod.fst,
      ⟨state.storedBytes + ((unmarked get p).map Prod.snd).sum, state.version + 1⟩⟩
    have hterminal := @Terminal.new_eq_ok S (c.stored ns nowMs).record rfl
      (decodes_stored hS hrepository)
    refine .inr ⟨c, ⟨_, rfl, decodes_stored hS hrepository⟩, if_neg hnone, rfl, rfl,
      Wire.bind_eq_ok.2 ⟨state, rfl, Wire.bind_eq_ok.2 ⟨_, hfold ⟨d.plan, 0, []⟩ rfl rfl
        (lt_of_le_of_lt (Nat.le_add_left _ _) hbytes), ?_⟩⟩⟩
    rw [if_neg (by simpa using hnone)]
    dsimp only
    rw [hstored]
    dsimp only
    rw [hnext]
    exact Wire.bind_eq_ok.2 ⟨_, hterminal, by
      rw [Counting.guards, if_neg (by decide), List.map_map, List.append_assoc]
      rfl⟩

/-- The draft goes on by the countings, and its builder has queued them with those before. -/
structure Continues (S : Serde) (B : Blake3) (ns : NamespaceKey) (nowMs : UInt64)
    (start : OutboxBuilder) (before : List Counting) (d : Draft) (cs : List Counting) (d' : Draft) :
    Prop where
  queued : Queued S B ns nowMs start (before ++ cs) d'.outbox
  pre : d'.plan.pre = d.plan.pre ++ cs.flatMap (Counting.guards false)
  writes : d'.plan.writes = d.plan.writes ++ cs.map Counting.write

theorem Continues.refl {start : OutboxBuilder} {before : List Counting}
    (h : Queued S B ns nowMs start before d.outbox) : Continues S B ns nowMs start before d [] d :=
  ⟨by rwa [List.append_nil], (List.append_nil _).symm, (List.append_nil _).symm⟩

theorem Continues.trans {start : OutboxBuilder} {before cs cs' : List Counting} {d' d'' : Draft}
    (h : Continues S B ns nowMs start before d cs d')
    (h' : Continues S B ns nowMs start (before ++ cs) d' cs' d'') :
    Continues S B ns nowMs start before d (cs ++ cs') d'' :=
  ⟨by rw [← List.append_assoc]; exact h'.queued,
    by rw [h'.pre, h.pre, List.append_assoc, List.flatMap_append],
    by rw [h'.writes, h.writes, List.append_assoc, List.map_append]⟩

/-- What counting the markers of one repository needs. -/
structure Tallied (ns : NamespaceKey) (get : Key → Option Value)
    (observed : List (Key × Option Value)) (p : RepoName × List CountedPack) : Prop where
  nodup : (p.2.map Prod.fst).Nodup
  counter : HasCounter get p
  repository : checkOutcomeRepository (identity ns p.1) = .ok ()
  observed : ∀ k ∈ readKeys p.1 p.2, observation observed k = .ok (get k)

/-- Counting the markers of one repository. -/
theorem extendRepo_eq (hS : S.WritesJson) {observed : List (Key × Option Value)}
    (h : Tallied ns get observed p) {start : OutboxBuilder} {before : List Counting}
    (hqueued : Queued S B ns nowMs start before d.outbox)
    (hids : ((before ++ (countingOf get p).toList).map (Counting.rid B ns)).Nodup)
    (hroom : Affords S B ns nowMs start (before ++ (countingOf get p).toList)) :
    ∃ d', extendRepo S B ns observed nowMs d p = .ok d' ∧
      Continues S B ns nowMs start before d (countingOf get p).toList d' := by
  have hfound : (p.2.mapM fun pack => do
      let marker ← observation observed (keys.repoStoragePack p.1 pack.1)
      pure (pack, marker.isSome)) = (.ok (found get p) : Except StoreError _) :=
    Gathering.mapM_eq_ok.2 (List.forall₂_map_right_iff.2 (List.forall₂_same.2 fun pack hpack =>
      Wire.bind_eq_ok.2 ⟨_, h.observed _ (List.mem_cons_of_mem _ (List.mem_map.2
        ⟨pack, hpack, rfl⟩)), rfl⟩))
  have hread : observation observed (keys.repoStorage p.1) = .ok (get (keys.repoStorage p.1)) :=
    h.observed _ List.mem_cons_self
  have hextend : ∀ {d'}, apply S B ns p.1 (get (keys.repoStorage p.1)) (found get p) false nowMs d =
      .ok d' → extendRepo S B ns observed nowMs d p = .ok d' := fun happly =>
    Wire.bind_eq_ok.2 ⟨_, hfound, Wire.bind_eq_ok.2 ⟨_, hread, happly⟩⟩
  rcases @apply_eq S B get ns nowMs p d hS h.nodup h.counter h.repository with
    ⟨hnone, happly⟩ | ⟨c, terminal, hsome, hrepo, hterminal, happly⟩
  · rw [hnone] at hroom ⊢
    exact ⟨d, hextend happly, Continues.refl hqueued⟩
  · rw [hsome, Option.toList_some] at hids hroom ⊢
    have hrepository : checkOutcomeRepository (identity ns c.repo) = .ok () := by
      rw [hrepo]
      exact h.repository
    have hnew : ∀ c' ∈ before, c'.rid B ns ≠ c.rid B ns := by
      rw [List.map_append, List.map_singleton] at hids
      exact fun c' hc' => (List.nodup_append.1 hids).2.2 _ (List.mem_map_of_mem hc') _
        (List.mem_singleton.2 rfl)
    refine ⟨_, hextend happly, ?_, by simp, rfl⟩
    rw [storageChanged_eq hS hqueued hrepository hnew hroom hterminal]
    exact Queued.snoc hS hqueued hrepository hroom

end Repository

/-- Counting the markers of every repository. -/
theorem foldlM_extendRepo_eq (hS : S.WritesJson) {observed : List (Key × Option Value)}
    {entries : List (RepoName × List CountedPack)} {start : OutboxBuilder}
    {before : List Counting} {d : Draft} (h : ∀ p ∈ entries, Tallied ns get observed p)
    (hqueued : Queued S B ns nowMs start before d.outbox)
    (hids : ((before ++ entries.filterMap (countingOf get)).map (Counting.rid B ns)).Nodup)
    (hroom : Affords S B ns nowMs start (before ++ entries.filterMap (countingOf get))) :
    ∃ d', entries.foldlM (extendRepo S B ns observed nowMs) d = .ok d' ∧
      Continues S B ns nowMs start before d (entries.filterMap (countingOf get)) d' := by
  induction entries generalizing before d with
  | nil => exact ⟨d, rfl, Continues.refl hqueued⟩
  | cons p entries ih =>
    rw [List.forall_mem_cons] at h
    have hcons : (p :: entries).filterMap (countingOf get) =
        (countingOf get p).toList ++ entries.filterMap (countingOf get) := by
      cases hc : countingOf get p <;> simp [hc]
    rw [hcons, ← List.append_assoc] at hids hroom
    have hfirst := hids
    rw [List.map_append] at hfirst
    obtain ⟨mid, hone, hmid⟩ := extendRepo_eq hS h.1 hqueued
      (List.nodup_append.1 hfirst).1 hroom.of_append
    obtain ⟨d', hrest, hlast⟩ := ih h.2 hmid.queued hids hroom
    rw [hcons]
    exact ⟨d', by rw [List.foldlM_cons, hone]; exact hrest, hmid.trans hlast⟩

/-! ### What the finished builder adds -/

/-- The guards and writes of the outbox that counting adds. -/
structure Fragmented (get : Key → Option Value) (cs : List Counting) (batch : Batch) : Prop where
  pre : batch.preconditions.length = cs.length + if cs = [] then 0 else 2
  writes : batch.writes.length = 2 * cs.length +
    if cs = [] then 0 else 2 + if (get keys.outcomeBacklog).isNone then 1 else 0
  guards : ∀ p ∈ guardSizes batch.preconditions, Slight p
  puts : ∀ p ∈ writeSizes batch.writes, Slight p

/-- The rows of the sequence and the backlog as a coordinator keeps them. -/
structure Stored (S : Serde) (get : Key → Option Value) (start : OutboxBuilder) : Prop where
  new : OutboxBuilder.new S (get keys.outboxSequence) (get keys.outcomeBacklog) = .ok start
  backlog : get keys.outcomeBacklog = none ∨
    ∃ backlog, get keys.outcomeBacklog = some (encodeBacklog S backlog)

theorem slight_rowPre {touched : Bool} {prior : Option Value}
    (hk : k.length ≤ MAX_KEY_BYTES) (hprior : prior.elim 0 List.length ≤ 4096) :
    ∀ p ∈ guardSizes (rowPre touched k prior), Slight p := by
  rw [rowPre]
  split
  · exact slight_guardOf hk hprior
  · rintro _ ⟨⟩

theorem slight_rowWrite {touched : Bool} {v : Value} (hk : k.length ≤ MAX_KEY_BYTES)
    (hv : v.length ≤ 4096) : ∀ p ∈ writeSizes (rowWrite touched k v), Slight p := by
  rw [rowWrite]
  split
  · exact slight_put hk hv
  · rintro _ ⟨⟩

variable {cs : List Counting}

/-- What a builder hands over that has queued the outcomes. -/
theorem fragmented_finished (hS : S.WritesJson) {start b : OutboxBuilder}
    (hkept : Stored S get start) (h : Queued S B ns nowMs start cs b) :
    Fragmented get cs (finished S b none) := by
  obtain ⟨-, hos, hoc⟩ := @queued_new S B ns nowMs _ _ _ hkept.new
  have hos : b.os.elim 0 List.length ≤ 4096 := by
    rw [h.os, hos]
    obtain ⟨seq, hseq, -⟩ := Wire.bind_eq_ok.1 hkept.new
    cases hget : get keys.outboxSequence with
    | none => exact Nat.zero_le _
    | some raw =>
      rw [hget] at hseq
      rw [encodeU64_of_decodeU64 hseq]
      exact (length_encodeU64 seq).le.trans (by decide)
  have hoc : b.oc = get keys.outcomeBacklog := h.oc.trans hoc
  have hbacklog : b.oc.elim 0 List.length ≤ 4096 := by
    rw [hoc]
    rcases hkept.backlog with hnone | ⟨backlog, hsome⟩
    · rw [hnone]
      exact Nat.zero_le _
    · rw [hsome]
      exact (length_encodeBacklog_le hS backlog).trans (by decide)
  have hkick : (kickTimers OUTCOME_DELIVERY b.kickAtMs).length =
      if b.kickAtMs.isSome then 1 else 0 := by
    cases b.kickAtMs <;> rfl
  rw [h.kick, h.oc.symm.trans hoc] at hkick
  have hpre : (finished S b none).preconditions =
      (cs.map fun c => .absent (rowKey (c.rid B ns))) ++
        rowPre (!cs.isEmpty) keys.outboxSequence b.os ++
          rowPre (!cs.isEmpty) keys.outcomeBacklog b.oc := by
    rw [← h.pre, finished, h.sequenceTouched, h.backlogTouched]
  have hwrites : (finished S b none).writes = b.writes ++
      rowWrite (!cs.isEmpty) keys.outboxSequence (encodeU64 b.seq) ++
        rowWrite (!cs.isEmpty) keys.outcomeBacklog (encodeBacklog S b.backlog) ++
          (kickTimers OUTCOME_DELIVERY b.kickAtMs).map fun k => .put k [] := by
    rw [finished, h.sequenceTouched, h.backlogTouched]
    simp [kickTimers]
  constructor
  · rw [hpre]
    cases cs <;> simp [rowPre]
  · rw [hwrites, List.length_append, List.length_map, hkick]
    have hlen := h.writes
    cases cs with
    | nil => simpa [rowWrite] using hlen
    | cons c cs =>
      simp only [List.isEmpty_cons, Bool.not_false, rowWrite, if_true, List.length_append, hlen,
        List.length_singleton, Bool.true_and, reduceCtorEq, if_false]
      omega
  · intro p hp
    rw [hpre] at hp
    simp only [guardSizes, List.filterMap_append, List.mem_append] at hp
    rcases hp with (hp | hp) | hp
    · obtain ⟨g, hg, hp⟩ := List.mem_filterMap.1 hp
      obtain ⟨c, -, rfl⟩ := List.mem_map.1 hg
      obtain rfl := Option.some.inj hp
      exact ⟨length_rowKey_le (validateReservationId_outcomeId _ _), Nat.zero_le _⟩
    · exact slight_rowPre (by decide) hos p hp
    · exact slight_rowPre (by decide) hbacklog p hp
  · intro p hp
    rw [hwrites] at hp
    simp only [writeSizes, List.map_append, List.mem_append] at hp
    rcases hp with ((hp | hp) | hp) | hp
    · exact h.slight p hp
    · exact slight_rowWrite (by decide) ((length_encodeU64 _).le.trans (by decide)) p hp
    · exact slight_rowWrite (by decide) ((length_encodeBacklog_le hS _).trans (by decide)) p hp
    · obtain ⟨w, hw, rfl⟩ := List.mem_map.1 hp
      obtain ⟨k, hk, rfl⟩ := List.mem_map.1 hw
      obtain ⟨due, -, rfl⟩ := List.mem_map.1 hk
      refine ⟨?_, Nat.zero_le _⟩
      simp only [keys.timer, keys.timerRetry, keys.key, List.length_append, List.flatten_cons,
        List.flatten_nil, keys.length_be64, List.length_cons, List.length_nil, MAX_KEY_BYTES]
      decide

/-! ### Counting in a target batch -/

/-- When the rows were planned. -/
def stampOf (rows : List (UInt64 × RelayV1)) : UInt64 :=
  (rows.map fun r => r.2.atMs).foldl max 0

/-- Every marker of a repository is named once, and none of the keys ahead names one again. -/
def NamedOnce (ahead : List Key) (m : SortedMap RepoName (List CountedPack)) : Prop :=
  ∀ repo packs, m.get repo = some packs →
    (packs.map Prod.fst).Nodup ∧ ∀ q ∈ packs, keys.repoStoragePack repo q.1 ∉ ahead

theorem NamedOnce.relayedPut {v : Value} {ahead : List Key}
    {m m' : SortedMap RepoName (List CountedPack)} (hm : NamedOnce (k :: ahead) m)
    (hk : k ∉ ahead) (h : relayedPut m (k, v) = .ok m') : NamedOnce ahead m' := by
  rw [Server.relayedPut] at h
  split at h
  case h_1 =>
    obtain rfl := Except.ok.inj h
    intro repo packs hget
    obtain ⟨hnodup, hnot⟩ := hm repo packs hget
    exact ⟨hnodup, fun q hq hin => hnot q hq (List.mem_cons_of_mem _ hin)⟩
  case h_2 repo pack hparse =>
    obtain rfl : k = keys.repoStoragePack repo pack := keys.parseRepoStoragePack_eq_some.1 hparse
    obtain ⟨bytes, -, h⟩ := Wire.bind_eq_ok.1 h
    obtain rfl := Except.ok.inj h
    intro repo' packs hget
    rw [SortedMap.get_insert] at hget
    split at hget
    case isFalse =>
      obtain ⟨hnodup, hnot⟩ := hm repo' packs hget
      exact ⟨hnodup, fun q hq hin => hnot q hq (List.mem_cons_of_mem _ hin)⟩
    case isTrue hrepo =>
      subst hrepo
      obtain rfl := Option.some.inj hget
      have hold : (((m.get repo').getD []).map Prod.fst).Nodup ∧
          ∀ q ∈ (m.get repo').getD [], keys.repoStoragePack repo' q.1 ∉
            keys.repoStoragePack repo' pack :: ahead := by
        cases hget : m.get repo' with
        | none => exact ⟨List.nodup_nil, nofun⟩
        | some packs => exact hm repo' packs hget
      refine ⟨?_, List.forall_mem_append.2 ⟨fun q hq hin => ?_, fun q hq => ?_⟩⟩
      · rw [List.map_append, List.map_singleton]
        refine List.nodup_append.2 ⟨hold.1, List.nodup_singleton _, ?_⟩
        rintro _ hid _ hlast rfl
        obtain ⟨q, hq, rfl⟩ := List.mem_map.1 hid
        have heq : q.1 = pack := List.mem_singleton.1 hlast
        exact hold.2 q hq (by rw [heq]; exact List.mem_cons_self)
      · exact hold.2 q hq (List.mem_cons_of_mem _ hin)
      · rw [List.mem_singleton.1 hq]
        exact hk

/-- Rows whose upserts are of different keys name every marker once. -/
theorem namedOnce_relayed {rows : List (UInt64 × RelayV1)}
    {m : SortedMap RepoName (List CountedPack)}
    (hnodup : ((rows.flatMap fun r => r.2.puts).map Prod.fst).Nodup) (h : relayed rows = .ok m) :
    ∀ p ∈ m.entries, (p.2.map Prod.fst).Nodup := by
  have hall : ∀ (puts : List (Key × Value)) (m₀ : SortedMap RepoName (List CountedPack)),
      (puts.map Prod.fst).Nodup → NamedOnce (puts.map Prod.fst) m₀ →
        puts.foldlM Server.relayedPut m₀ = .ok m → NamedOnce [] m := by
    intro puts
    induction puts with
    | nil =>
      intro m₀ _ hm h
      obtain rfl := Except.ok.inj h
      exact hm
    | cons p puts ih =>
      intro m₀ hnodup hm h
      rw [List.map_cons, List.nodup_cons] at hnodup
      rw [List.foldlM_cons] at h
      obtain ⟨mid, hp, h⟩ := Wire.bind_eq_ok.1 h
      exact ih mid hnodup.2 (hm.relayedPut hnodup.1 hp) h
  intro p hp
  exact (hall _ _ hnodup (fun repo packs hget => by cases hget) h p.1 p.2
    (SortedMap.get_eq_some.2 hp)).1

/-- The rows of the outbox that counting writes. -/
def outboxRows (B : Blake3) (ns : NamespaceKey) (cs : List Counting) : List Key :=
  [keys.outboxSequence, keys.outcomeBacklog] ++ cs.map fun c => rowKey (c.rid B ns)

/-- What counting the markers of rows at a coordinator checks on its way: the markers hold sizes,
the outbox rows are as the outbox writes them and have room, every repository is named by an
identity and has a counter with room, no two outcomes have one id, and the rows themselves write
none of the outbox rows. -/
structure Countable (S : Serde) (B : Blake3) (ns : NamespaceKey) (get : Key → Option Value)
    (rows : List (UInt64 × RelayV1)) (m : SortedMap RepoName (List CountedPack)) : Prop where
  relayed : relayed rows = .ok m
  outbox : ∃ start, Stored S get start ∧
    Affords S B ns (stampOf rows) start (m.entries.filterMap (countingOf get))
  counters : ∀ p ∈ m.entries, HasCounter get p
  repositories : ∀ p ∈ m.entries, checkOutcomeRepository (identity ns p.1) = .ok ()
  ids : ((m.entries.filterMap (countingOf get)).map (Counting.rid B ns)).Nodup
  free : ∀ k ∈ outboxRows B ns (m.entries.filterMap (countingOf get)), ∀ r ∈ rows,
    ∀ w ∈ r.2.writes, w.key ≠ k

/-- A storage key is none of the outbox rows. -/
theorem ne_outboxRows {k' : Key} (hk : isStorageKey k = true)
    (h : k' ∈ outboxRows B ns cs) : k ≠ k' := by
  have hnot : isStorageKey k' = false := by
    simp only [outboxRows, List.mem_append, List.mem_cons, List.not_mem_nil, or_false,
      List.mem_map] at h
    rcases h with (rfl | rfl) | ⟨c, -, rfl⟩
    · decide
    · decide
    · exact not_storage_of_class (by decide) (by decide) (ofClass_rowKey _)
  rintro rfl
  rw [hk] at hnot
  cases hnot

/-- When a builder finishes that has queued outcomes only, and what it hands over. -/
theorem assemble_queued {start b : OutboxBuilder} (h : Queued S B ns nowMs start cs b) {plan : Plan}
    (hfree : ∀ k ∈ outboxRows B ns cs, Unplanned plan k) {batch : Batch} :
    (exec (OutboxBuilder.assemble S plan) b).1 = .ok batch ↔
      batch = finished S b none ∧ batch.validate .full = .ok () := by
  have hrelays : ∀ {due b'}, Yields (OutboxBuilder.planRelays S none b.relays.entries) b due b' ↔
      none = due ∧ b = b' := by
    rw [h.relays]
    exact yields_pure
  have hsequence : Unplanned plan keys.outboxSequence :=
    hfree _ (List.mem_append_left _ List.mem_cons_self)
  have hbacklog : Unplanned plan keys.outcomeBacklog :=
    hfree _ (List.mem_append_left _ (List.mem_cons_of_mem _ List.mem_cons_self))
  rw [assemble_eq_ok]
  constructor
  · rintro ⟨-, -, due, b', hyields, -, -, rfl, hvalid⟩
    obtain ⟨rfl, rfl⟩ := hrelays.1 hyields
    exact ⟨rfl, hvalid⟩
  · rintro ⟨rfl, hvalid⟩
    refine ⟨h.error, fun rid hrid => ?_, none, b, hrelays.2 ⟨rfl, rfl⟩, fun _ => hsequence,
      fun _ => hbacklog, rfl, hvalid⟩
    obtain ⟨c, hc, rfl⟩ := (h.reservations rid).1 hrid
    exact ⟨validateReservationId_outcomeId _ _,
      hfree _ (List.mem_append_right _ (List.mem_map.2 ⟨c, hc, rfl⟩))⟩

theorem highWater_ne_outboxRows {rh : Key}
    (hrh : keys.ofClass keys.TAG_RELAY_HIGH_WATER rh = true) (h : k ∈ outboxRows B ns cs) :
    rh ≠ k := by
  have hnot : keys.ofClass keys.TAG_RELAY_HIGH_WATER k = false := by
    simp only [outboxRows, List.mem_append, List.mem_cons, List.not_mem_nil, or_false,
      List.mem_map] at h
    rcases h with (rfl | rfl) | ⟨c, -, rfl⟩
    · decide
    · decide
    · exact (keys.ofClass_of_class (by decide) (by decide) (ofClass_rowKey _)).trans (by decide)
  rintro rfl
  rw [hrh] at hnot
  cases hnot

/-- What counting appends to the guards and writes of a coordinator's batch, and when it does. -/
theorem relayExtend_counted (hS : S.WritesJson) {rows : List (UInt64 × RelayV1)}
    {m : SortedMap RepoName (List CountedPack)} {observed : List (Key × Option Value)}
    (hnodup : ((rows.flatMap fun r => r.2.puts).map Prod.fst).Nodup)
    (h : Countable S B ns get rows m)
    (hobserved : ∀ ks, relayReadKeys (.coordinator ns) rows = .ok ks →
      ∀ k ∈ ks, observation observed k = .ok (get k))
    {plan : Plan} (hfree : ∀ k ∈ outboxRows B ns (m.entries.filterMap (countingOf get)),
      Unplanned plan k) :
    ∃ fragment, Fragmented get (m.entries.filterMap (countingOf get)) fragment ∧
      ∀ plan', relayExtend S B (.coordinator ns) rows observed plan = .ok plan' ↔
        fragment.validate .full = .ok () ∧
          plan' = ⟨plan.pre ++ (m.entries.filterMap (countingOf get)).flatMap
              (Counting.guards false) ++ fragment.preconditions,
            plan.writes ++ (m.entries.filterMap (countingOf get)).map Counting.write ++
              fragment.writes⟩ := by
  cases hempty : m.entries.isEmpty with
  | true =>
    have hnil := List.isEmpty_iff.1 hempty
    have hextend : relayExtend S B (.coordinator ns) rows observed plan = .ok plan :=
      Wire.bind_eq_ok.2 ⟨m, h.relayed, if_pos hempty⟩
    refine ⟨⟨[], []⟩, ?_, fun plan' => ?_⟩
    · rw [hnil]
      exact ⟨rfl, rfl, by rintro _ ⟨⟩, by rintro _ ⟨⟩⟩
    · have hvalid : (Batch.mk [] []).validate .full = .ok () := rfl
      rw [hextend, hvalid, hnil]
      simpa using eq_comm
  | false =>
    obtain ⟨start, hkept, hroom⟩ := h.outbox
    have hkeys : relayReadKeys (.coordinator ns) rows =
        .ok ([keys.outboxSequence, keys.outcomeBacklog] ++
          m.entries.flatMap fun p => readKeys p.1 p.2) :=
      Wire.bind_eq_ok.2 ⟨m, h.relayed, if_neg (by rw [hempty]; decide)⟩
    have hobserved := hobserved _ hkeys
    have htallied : ∀ p ∈ m.entries, Tallied ns get observed p := fun p hp =>
      { nodup := namedOnce_relayed hnodup h.relayed p hp
        counter := h.counters p hp
        repository := h.repositories p hp
        observed := fun k hk => hobserved k (List.mem_append_right _
          (List.mem_flatMap.2 ⟨p, hp, hk⟩)) }
    obtain ⟨d, hfold, hd⟩ := @foldlM_extendRepo_eq S B get ns (stampOf rows) hS observed
      m.entries start [] ⟨start, plan⟩ htallied (queued_new hkept.new).1 h.ids hroom
    have hextend : ∀ plan', relayExtend S B (.coordinator ns) rows observed plan = .ok plan' ↔
        exec (d.outbox.tryFinish S) d.plan = (.ok (), plan') := by
      intro plan'
      have hunfold : relayExtend S B (.coordinator ns) rows observed plan =
          (exec (d.outbox.tryFinish S) d.plan).1.map
            fun _ => (exec (d.outbox.tryFinish S) d.plan).2 := by
        have hos := hobserved keys.outboxSequence (List.mem_append_left _ List.mem_cons_self)
        have hoc := hobserved keys.outcomeBacklog
          (List.mem_append_left _ (List.mem_cons_of_mem _ List.mem_cons_self))
        unfold relayExtend
        rw [h.relayed]
        change (if m.entries.isEmpty = true then _ else _) = _
        rw [if_neg (by rw [hempty]; decide), hos, hoc]
        change (OutboxBuilder.new S _ _ >>= _) = _
        rw [hkept.new]
        change (m.entries.foldlM (extendRepo S B ns observed (stampOf rows))
          ⟨start, plan⟩ >>= _) = _
        rw [hfold]
        dsimp only [bind, Except.bind]
        rcases exec (d.outbox.tryFinish S) d.plan with ⟨_ | _, last⟩ <;> rfl
      rw [hunfold]
      rcases exec (d.outbox.tryFinish S) d.plan with ⟨_ | _, last⟩ <;> simp [Except.map]
    have hunplanned : ∀ k ∈ outboxRows B ns (m.entries.filterMap (countingOf get)),
        Unplanned d.plan k := by
      intro k hk
      rw [Unplanned, hd.pre, hd.writes]
      refine ⟨List.forall_mem_append.2 ⟨(hfree k hk).1, fun g hg => ?_⟩,
        List.forall_mem_append.2 ⟨(hfree k hk).2, fun w hw => ?_⟩⟩
      · obtain ⟨c, -, hg⟩ := List.mem_flatMap.1 hg
        rcases List.mem_append.1 hg with hg | hg
        · obtain ⟨pack, -, rfl⟩ := List.mem_map.1 hg
          exact fun heq => ne_outboxRows (ofClass_repoStoragePack _ _) hk (Option.some.inj heq)
        · rw [List.mem_singleton.1 hg]
          exact fun heq => ne_outboxRows (ofClass_repoStorage _) hk (Option.some.inj heq)
      · obtain ⟨c, -, rfl⟩ := List.mem_map.1 hw
        exact ne_outboxRows (ofClass_repoStorage _) hk
    refine ⟨_, fragmented_finished hS hkept hd.queued, fun plan' => ?_⟩
    rw [hextend, tryFinish_eq_ok, hd.pre.symm, hd.writes.symm]
    simp only [assemble_queued hd.queued hunplanned]
    constructor
    · rintro ⟨batch, ⟨rfl, hvalid⟩, rfl⟩
      exact ⟨hvalid, rfl⟩
    · rintro ⟨hvalid, rfl⟩
      exact ⟨_, ⟨rfl, hvalid⟩, rfl⟩

/-! ### A counted row -/

theorem length_repoStorage_le (repo : RepoName) :
    (keys.repoStorage repo).length ≤ MAX_KEY_BYTES := by
  have hrepo := keys.length_repo_le repo
  rw [MAX_REPO_NAME_BYTES] at hrepo
  simp only [keys.repoStorage, keys.key, List.flatten_cons, List.flatten_nil, List.length_append,
    List.length_cons, keys.TAG_REPO_STORAGE, ascii, List.map_cons, List.map_nil, List.length_nil,
    MAX_KEY_BYTES]
  omega

theorem length_repoStoragePack_le (repo : RepoName) (pack : Hash) :
    (keys.repoStoragePack repo pack).length ≤ MAX_KEY_BYTES := by
  have hrepo := keys.length_repo_le repo
  have hpack : pack.bytes.length = 32 := pack.length_bytes
  rw [MAX_REPO_NAME_BYTES] at hrepo
  simp only [keys.repoStoragePack, keys.key, List.flatten_cons, List.flatten_nil,
    List.length_append, List.length_cons, keys.TAG_REPO_STORAGE_PACK, ascii, List.map_cons,
    List.map_nil, List.length_nil, MAX_KEY_BYTES]
  omega

theorem length_encodeRepoStorage (state : RepoStorageV1) :
    (encodeRepoStorage state).length = 16 := by
  rw [encodeRepoStorage, List.length_append, keys.length_be64, keys.length_be64]

variable {c : Counting} {p : RepoName × List CountedPack}

/-- A counting guards and writes little. -/
theorem slight_counting (h : countingOf get p = some c) :
    (∀ q ∈ guardSizes (c.guards false), Slight q) ∧ ∀ q ∈ writeSizes [c.write], Slight q := by
  have hraw : c.raw.length ≤ 4096 := by
    rw [countingOf] at h
    split at h
    case h_1 => cases h
    case h_2 raw hget =>
      split at h
      case h_1 => cases h
      case h_2 prior hprior =>
        split at h
        · cases h
        · obtain rfl := Option.some.inj h
          rw [decodeRepoStorage] at hprior
          split at hprior
          case isTrue hlen => exact hlen.le.trans (by decide)
          case isFalse => cases hprior
  constructor
  · intro q hq
    simp only [Counting.guards, guardSizes, List.filterMap_append, List.mem_append] at hq
    rcases hq with hq | hq
    · obtain ⟨g, hg, hq⟩ := List.mem_filterMap.1 hq
      obtain ⟨pack, -, rfl⟩ := List.mem_map.1 hg
      obtain rfl := Option.some.inj hq
      exact ⟨length_repoStoragePack_le _ _, Nat.zero_le _⟩
    · rw [List.mem_singleton.1 (show q ∈ [(keys.repoStorage c.repo, some c.raw)] from hq)]
      exact ⟨length_repoStorage_le _, hraw⟩
  · exact slight_put (length_repoStorage_le _)
      ((length_encodeRepoStorage _).le.trans (by decide))

/-- The guards of the countings are as many as the fresh packs and the countings. -/
theorem length_guards (cs : List Counting) :
    (cs.flatMap (Counting.guards false)).length + 4 * cs.length =
      (cs.map fun c => c.fresh.length + 5).sum := by
  induction cs with
  | nil => rfl
  | cons c cs ih =>
    have hone : (c.guards false).length = c.fresh.length + 1 := by
      simp [Counting.guards]
    rw [List.flatMap_cons, List.length_append, hone, List.map_cons, List.sum_cons,
      List.length_cons]
    omega

section Counted

variable {caps : StoreCapabilities} {source : Partition} {rh : Key} {observed : Option Value}
  {observations : List (Key × Option Value)} {e : Emission}
  {m : SortedMap RepoName (List CountedPack)}

/-- A row by itself is delivered to a coordinator when its operations, the guard and the write of
the watermark and the operations of counting fit. -/
theorem prepareTargetBatch_counted (hS : S.WritesJson) (h : e.Sound S (.coordinator ns))
    (hnodup : (e.row.puts.map Prod.fst).Nodup) (hcaps : caps.Complete)
    (hrh : keys.relayHighWater source = .ok rh) (hobserved : IsWatermark observed)
    (hcount : Countable S B ns get [(e.seq, e.row)] m)
    (hobservations : ∀ ks, relayReadKeys (.coordinator ns) [(e.seq, e.row)] = .ok ks →
      ∀ k ∈ ks, observation observations k = .ok (get k)) :
    (∃ batch, prepareTargetBatch S B NoHook caps (.coordinator ns) rh observed observations
        [(e.seq, e.row)] 0 = some (batch, 1) ∧
          batch.validate (targetCaps NoHook caps (.coordinator ns) [(e.seq, e.row)]) = .ok ()) ↔
      deliveryOps (.coordinator ns) e + countingOps get m ≤ MAX_BATCH_OPS := by
  obtain ⟨hlen, hclass⟩ := relayHighWater_spec hrh
  have hfree : ∀ k ∈ outboxRows B ns (m.entries.filterMap (countingOf get)),
      Unplanned (rowPlan (.coordinator ns) rh observed e) k := by
    intro k hk
    have hrow := hcount.free k hk _ (List.mem_singleton.2 rfl)
    have hne : rh ≠ k := highWater_ne_outboxRows hclass hk
    refine ⟨fun g hg => ?_, List.forall_mem_append.2
      ⟨List.forall_mem_append.2 ⟨hrow, fun w hw => ?_⟩, by rintro _ ⟨⟩⟩⟩
    · rw [List.mem_singleton.1 hg]
      cases observed <;> exact fun heq => hne (Option.some.inj heq)
    · rw [List.mem_singleton.1 hw]
      exact hne
  obtain ⟨fragment, hfragment, hextend⟩ := relayExtend_counted hS (by simpa using hnodup) hcount
    hobservations hfree
  have hcounting : countingOps get m =
      ((m.entries.filterMap (countingOf get)).map fun c => c.fresh.length + 5).sum +
        if m.entries.filterMap (countingOf get) = [] then 0
        else 4 + if (get keys.outcomeBacklog).isNone then 1 else 0 := rfl
  generalize hcs : m.entries.filterMap (countingOf get) = cs at hfragment hextend hcounting
  -- The batch that counting gives: the row's operations among slight ones.
  let guards := [guardOf rh observed] ++ cs.flatMap (Counting.guards false) ++
    fragment.preconditions
  let after := [Write.put rh (encodeU64 e.seq)] ++ cs.map Counting.write ++ fragment.writes
  have hslight : ∀ c ∈ cs, (∀ q ∈ guardSizes (c.guards false), Slight q) ∧
      ∀ q ∈ writeSizes [c.write], Slight q := fun c hc => by
    rw [← hcs] at hc
    obtain ⟨p, -, hp⟩ := List.mem_filterMap.1 hc
    exact slight_counting hp
  have hguards : ∀ p ∈ guardSizes guards, Slight p := by
    intro p hp
    simp only [guards, guardSizes, List.filterMap_append, List.mem_append] at hp
    rcases hp with (hp | hp) | hp
    · exact slight_watermark hlen hobserved p hp
    · obtain ⟨g, hg, hp⟩ := List.mem_filterMap.1 hp
      obtain ⟨c, hc, hg⟩ := List.mem_flatMap.1 hg
      exact (hslight c hc).1 p (List.mem_filterMap.2 ⟨g, hg, hp⟩)
    · exact hfragment.guards p hp
  have hafter : ∀ p ∈ writeSizes after, Slight p := by
    intro p hp
    simp only [after, writeSizes, List.map_append, List.mem_append] at hp
    rcases hp with (hp | hp) | hp
    · exact slight_put_watermark hlen e.seq p hp
    · obtain ⟨w, hw, rfl⟩ := List.mem_map.1 hp
      obtain ⟨c, hc, rfl⟩ := List.mem_map.1 hw
      exact (hslight c hc).2 _ (List.mem_singleton.2 rfl)
    · exact hfragment.puts p hp
  have hvalid := @validate_eq_ok_iff (targetCaps NoHook caps (.coordinator ns) [(e.seq, e.row)])
    hcaps guards [] e.row.writes after hguards (by rintro _ ⟨⟩) hafter h.keys h.sum_le
  have hfits := @validate_eq_ok_iff .full ⟨rfl, rfl⟩ fragment.preconditions fragment.writes [] []
    hfragment.guards hfragment.puts (by rintro _ ⟨⟩) (by rintro _ ⟨⟩) (Nat.zero_le _)
  have hops : guards.length + ([] ++ e.row.writes ++ after).length =
      deliveryOps (.coordinator ns) e + countingOps get m := by
    have hcounted := length_guards cs
    have hpre := hfragment.pre
    have hwrites := hfragment.writes
    have hrow := length_writes e.row
    have hbump : (bumpWrites (.coordinator ns)).length = 0 := rfl
    rw [hcounting, deliveryOps, hbump, ← hcounted]
    simp only [guards, after, List.length_append, List.length_singleton, List.length_map,
      List.length_nil, hrow, hpre, hwrites]
    split <;> omega
  have hplan : ∀ {plan'}, relayExtend S B (.coordinator ns) [(e.seq, e.row)] observations
      (rowPlan (.coordinator ns) rh observed e) = .ok plan' ↔
        fragment.validate .full = .ok () ∧ plan' = ⟨guards, [] ++ e.row.writes ++ after⟩ := by
    intro plan'
    have hplanned : (rowPlan (.coordinator ns) rh observed e).writes ++ cs.map Counting.write ++
        fragment.writes = [] ++ e.row.writes ++ after := by
      simp only [rowPlan, after, show bumpWrites (.coordinator ns) = [] from rfl, List.nil_append,
        List.append_nil, List.append_assoc]
    rw [hextend plan', hplanned]
    rfl
  have hsingle := @prepareTargetBatch_single S B caps (.coordinator ns) rh observed observations e
    (fittingPrefix_single h hlen hobserved _)
  rw [← hops]
  constructor
  · rintro ⟨batch, hprepared, hok⟩
    obtain ⟨plan', hextended, hr, -⟩ := hsingle.1 hprepared
    obtain ⟨-, rfl⟩ := hplan.1 hextended
    rw [(Prod.mk.inj hr).1] at hok
    exact hvalid.1 hok
  · intro hle
    have hok := hvalid.2 hle
    have hfinished : fragment.validate .full = .ok () := by
      have hfits := hfits.2 (by
        refine le_trans ?_ hle
        simp only [guards, after, List.length_append, List.length_nil]
        omega)
      rwa [List.append_nil, List.append_nil] at hfits
    exact ⟨_, hsingle.2 ⟨_, hplan.2 ⟨hfinished, rfl⟩, rfl, hok⟩, hok⟩

end Counted

/-! ### Few markers -/

/-- No more packs are relayed than are put. -/
theorem total_relayed_le {rows : List (UInt64 × RelayV1)}
    {m : SortedMap RepoName (List CountedPack)} (h : relayed rows = .ok m) :
    m.total (fun _ packs => packs.length) ≤ (rows.flatMap fun r => r.2.puts).length := by
  have hall : ∀ (puts : List (Key × Value)) (m₀ : SortedMap RepoName (List CountedPack)),
      puts.foldlM relayedPut m₀ = .ok m →
        m.total (fun _ packs => packs.length) ≤
          m₀.total (fun _ packs => packs.length) + puts.length := by
    intro puts
    induction puts with
    | nil =>
      intro m₀ h
      obtain rfl := Except.ok.inj h
      exact le_rfl
    | cons p puts ih =>
      intro m₀ h
      rw [List.foldlM_cons] at h
      obtain ⟨mid, hp, h⟩ := Wire.bind_eq_ok.1 h
      have hrest := ih mid h
      have hone : mid.total (fun _ packs => packs.length) ≤
          m₀.total (fun _ packs => packs.length) + 1 := by
        rw [relayedPut] at hp
        split at hp
        case h_1 =>
          obtain rfl := Except.ok.inj hp
          exact Nat.le_succ _
        case h_2 repo pack _ =>
          obtain ⟨bytes, -, hp⟩ := Wire.bind_eq_ok.1 hp
          obtain rfl := Except.ok.inj hp
          have hinsert := SortedMap.total_insert
            (fun (_ : RepoName) (packs : List CountedPack) => packs.length) m₀ repo
            ((m₀.get repo).getD [] ++ [(pack, bytes)])
          rw [SortedMap.weightAt, List.length_append, List.length_singleton] at hinsert
          cases hget : m₀.get repo <;> simp only [hget, Option.elim_none, Option.elim_some,
            Option.getD_none, Option.getD_some, List.length_nil] at hinsert ⊢ <;> omega
      rw [List.length_cons]
      omega
  have hle := hall _ _ h
  rwa [SortedMap.total_empty, Nat.zero_add] at hle

/-- A counting is of some packs of its repository. -/
theorem fresh_of_countingOf
    (h : countingOf get p = some c) : 0 < c.fresh.length ∧ c.fresh.length ≤ p.2.length := by
  rw [countingOf] at h
  split at h
  case h_1 => cases h
  case h_2 raw hget =>
    split at h
    case h_1 => cases h
    case h_2 prior hprior =>
      split at h
      case isTrue => cases h
      case isFalse hne =>
        obtain rfl := Option.some.inj h
        dsimp only
        rw [List.length_map]
        exact ⟨List.length_pos_iff.2 hne, List.length_filter_le _ _⟩

/-- Counting takes six operations for each marker at most, and five of the outbox. -/
theorem countingOps_le {rows : List (UInt64 × RelayV1)}
    {m : SortedMap RepoName (List CountedPack)} (h : relayed rows = .ok m) :
    countingOps get m ≤ 6 * (rows.flatMap fun r => r.2.puts).length + 5 := by
  have hsum : ∀ l : List (RepoName × List CountedPack),
      ((l.filterMap (countingOf get)).map fun c => c.fresh.length + 5).sum ≤
        6 * (l.map fun p => p.2.length).sum := by
    intro l
    induction l with
    | nil => exact le_rfl
    | cons p l ih =>
      rw [List.map_cons, List.sum_cons]
      cases hc : countingOf get p with
      | none =>
        rw [List.filterMap_cons_none hc]
        omega
      | some c =>
        have hfresh := fresh_of_countingOf hc
        rw [List.filterMap_cons_some hc, List.map_cons, List.sum_cons]
        omega
  have htotal := total_relayed_le h
  have hentries := hsum m.entries
  rw [SortedMap.total] at htotal
  rw [countingOps]
  split
  · omega
  · split <;> omega

end Mkit.Server
