import Mkit.Server.Partition

/-!
# Key Layouts

Every key is a class tag, `0x00` and the components of its class. A tag holds no `0x00`, so the
terminator keeps the classes apart (`ofClass_key`, `key_inj`). Integers are big-endian.
-/

namespace Mkit.Server

namespace keys

/-- Reservation and terminal outcome. -/
def TAG_RESERVATION : Bytes := ascii ['o']

/-- Undelivered terminal outcome index. -/
def TAG_OUTCOME_PENDING : Bytes := ascii ['o', 'q']

/-- Membership relay queue. -/
def TAG_RELAY : Bytes := ascii ['o', 'r']

/-- Per-source relay deduplication watermark in the target. -/
def TAG_RELAY_HIGH_WATER : Bytes := ascii ['r', 'h']

/-- Last allocated outbox sequence. -/
def TAG_OUTBOX_SEQUENCE : Bytes := ascii ['o', 's']

/-- Terminal outcome backlog. -/
def TAG_OUTCOME_BACKLOG : Bytes := ascii ['o', 'c']

/-- Repository stored-bytes counter. -/
def TAG_REPO_STORAGE : Bytes := ascii ['r', 'b']

/-- Counted-pack marker: a pack already added to its repository's counter. -/
def TAG_REPO_STORAGE_PACK : Bytes := ascii ['r', 'n']

/-- Repository records. -/
def TAG_REPO_REGISTRY : Bytes := ascii ['r', 'r']

/-- Mutation stamp of a repository index partition. -/
def TAG_FORK_INDEX_REVISION : Bytes := ascii ['f', 'v']

/-- Timers. -/
def TAG_TIMER : Bytes := ascii ['w']

/-- Refs. -/
def TAG_REF : Bytes := ascii ['r']

/-- A key: the tag, the terminator and the parts. -/
def key (tag : Bytes) (parts : List Bytes) : Key :=
  tag ++ 0 :: parts.flatten

/-- Is the key one of a class? -/
def ofClass (tag : Bytes) (k : Key) : Bool :=
  (tag ++ [0]).isPrefixOf k

theorem key_inj {tag tag' : Bytes} {parts parts' : List Bytes} (h : 0 ∉ tag) (h' : 0 ∉ tag')
    (heq : key tag parts = key tag' parts') : tag = tag' ∧ parts.flatten = parts'.flatten := by
  induction tag generalizing tag' with
  | nil =>
    cases tag' with
    | nil => exact ⟨rfl, (List.cons.inj heq).2⟩
    | cons a tag' => exact absurd (List.cons.inj heq).1 (List.ne_of_not_mem_cons h')
  | cons a tag ih =>
    cases tag' with
    | nil => exact absurd (List.cons.inj heq).1.symm (List.ne_of_not_mem_cons h)
    | cons b tag' =>
      obtain ⟨rfl, hrest⟩ := List.cons.inj heq
      obtain ⟨rfl, hparts⟩ := ih (List.not_mem_of_not_mem_cons h)
        (List.not_mem_of_not_mem_cons h') hrest
      exact ⟨rfl, hparts⟩

/-- A key belongs to the class of its tag alone. -/
theorem ofClass_key {tag tag' : Bytes} (h : 0 ∉ tag) (h' : 0 ∉ tag') (parts : List Bytes) :
    ofClass tag (key tag' parts) = decide (tag = tag') := by
  rw [ofClass, Bool.eq_iff_iff, List.isPrefixOf_iff_prefix, decide_eq_true_iff]
  constructor
  · rintro ⟨rest, hrest⟩
    rw [List.append_assoc] at hrest
    exact (@key_inj tag tag' [rest] parts h h' (by simpa [key] using hrest)).1
  · rintro rfl
    exact ⟨parts.flatten, by simp [key]⟩

/-- A key of one class belongs to no other. -/
theorem ofClass_of_class {tag tag' : Bytes} {k : Key} (h : 0 ∉ tag) (h' : 0 ∉ tag')
    (hk : ofClass tag' k = true) : ofClass tag k = decide (tag = tag') := by
  obtain ⟨rest, rfl⟩ := List.isPrefixOf_iff_prefix.1 hk
  have hkey : tag' ++ [0] ++ rest = key tag' [rest] := by simp [key]
  rw [hkey, ofClass_key h h']

/-- `to_be_bytes` of a `u64`. -/
def be64 (n : UInt64) : Bytes :=
  Wire.beBytes 8 n.toNat

@[simp] theorem length_be64 (n : UInt64) : (be64 n).length = 8 :=
  Wire.length_beBytes 8 _

theorem be64_injective : Function.Injective be64 := fun a b h =>
  UInt64.toNat_inj.1 (Wire.beBytes_inj a.toNat_lt b.toNat_lt h)

/-- A key within the bound on keys. -/
def checkedKey (tag : Bytes) (parts : List Bytes) : Except StoreError Key :=
  if MAX_KEY_BYTES < (key tag parts).length then .error (.invalid "key exceeds MAX_KEY_BYTES")
  else .ok (key tag parts)

/-! ### The outbox -/

/-- Whether an id satisfies the grammar of reservation ids: 1 to 128 ASCII bytes. -/
def validateReservationId (rid : Bytes) : Bool :=
  (1 ≤ rid.length && rid.length ≤ 128) &&
    rid.all fun b => (0x30 ≤ b && b ≤ 0x39) || (0x41 ≤ b && b ≤ 0x5a) || (0x61 ≤ b && b ≤ 0x7a) ||
      b == 0x2e || b == 0x5f || b == 0x3a || b == 0x2d

/-- `o 00 <reservation_id>`. -/
def reservation (rid : Bytes) : Except StoreError Key :=
  if !validateReservationId rid then .error (.invalid "invalid reservation id")
  else checkedKey TAG_RESERVATION [rid]

/-- `oq 00 <seq> <reservation_id>`. -/
def outcomePending (seq : UInt64) (rid : Bytes) : Except StoreError Key :=
  if !validateReservationId rid || seq == 0 then .error (.invalid "invalid outcome pending key")
  else checkedKey TAG_OUTCOME_PENDING [be64 seq, rid]

/-- `or 00 <seq>`. -/
def relay (seq : UInt64) : Key :=
  key TAG_RELAY [be64 seq]

/-- `rh 00 <Partition::encode(source)>`. -/
def relayHighWater (source : Partition) : Except StoreError Key := do
  let encoded ← source.encode
  checkedKey TAG_RELAY_HIGH_WATER [encoded]

/-- `os 00`. -/
def outboxSequence : Key :=
  key TAG_OUTBOX_SEQUENCE []

/-- `oc 00`. -/
def outcomeBacklog : Key :=
  key TAG_OUTCOME_BACKLOG []

theorem reservation_eq_ok {rid : Bytes} {k : Key} :
    reservation rid = .ok k ↔ validateReservationId rid = true ∧ k = key TAG_RESERVATION [rid] := by
  rw [reservation]
  cases hrid : validateReservationId rid with
  | false => simp
  | true =>
    have hlen : rid.length ≤ 128 := by
      simp only [validateReservationId, Bool.and_eq_true, decide_eq_true_eq] at hrid
      exact hrid.1.2
    have hkey : ¬ MAX_KEY_BYTES < (key TAG_RESERVATION [rid]).length := by
      simp only [key, TAG_RESERVATION, ascii, MAX_KEY_BYTES, List.length_append, List.length_cons,
        List.map_cons, List.map_nil, List.length_nil, List.flatten_cons, List.flatten_nil]
      omega
    simp only [checkedKey, hkey, Bool.not_true, Bool.false_eq_true, if_false, Except.ok.injEq,
      true_and]
    exact eq_comm

theorem outcomePending_eq_ok {seq : UInt64} {rid : Bytes} {k : Key} :
    outcomePending seq rid = .ok k ↔
      validateReservationId rid = true ∧ seq ≠ 0 ∧ k = key TAG_OUTCOME_PENDING [be64 seq, rid] := by
  rw [outcomePending]
  cases hrid : validateReservationId rid with
  | false => simp
  | true =>
    have hlen : rid.length ≤ 128 := by
      simp only [validateReservationId, Bool.and_eq_true, decide_eq_true_eq] at hrid
      exact hrid.1.2
    have hkey : ¬ MAX_KEY_BYTES < (key TAG_OUTCOME_PENDING [be64 seq, rid]).length := by
      simp only [key, TAG_OUTCOME_PENDING, ascii, MAX_KEY_BYTES, List.length_append,
        List.length_cons, List.map_cons, List.map_nil, List.length_nil, List.flatten_cons,
        List.flatten_nil, length_be64]
      omega
    by_cases hseq : seq = 0
    · simp [hseq]
    · simp only [checkedKey, hkey, hseq, Bool.not_true, Bool.false_or, beq_iff_eq, if_false,
        Except.ok.injEq, true_and, ne_eq, not_false_eq_true]
      exact eq_comm

theorem reservation_key_inj {rid rid' : Bytes}
    (h : key TAG_RESERVATION [rid] = key TAG_RESERVATION [rid']) : rid = rid' := by
  simpa using (key_inj (by decide) (by decide) h).2

theorem pending_key_inj {seq seq' : UInt64} {rid rid' : Bytes}
    (h : key TAG_OUTCOME_PENDING [be64 seq, rid] = key TAG_OUTCOME_PENDING [be64 seq', rid']) :
    seq = seq' ∧ rid = rid' := by
  have hbody := (key_inj (by decide) (by decide) h).2
  simp only [List.flatten_cons, List.flatten_nil, List.append_nil] at hbody
  obtain ⟨hseq, hrid⟩ := List.append_inj hbody (by simp)
  exact ⟨be64_injective hseq, hrid⟩

/-! ### Components -/

/-- Split a body at its first `0x00`. -/
def splitZero (body : Bytes) : Option (Bytes × Bytes) :=
  match body.dropWhile (· != 0) with
  | [] => none
  | _ :: rest => some (body.takeWhile (· != 0), rest)

/-- A component that is a hash. -/
def parseHash (bytes : Bytes) : Option Hash :=
  if h : bytes.length = HASH_LEN then some ⟨bytes, h⟩ else none

/-- A component that is a repository name. -/
def parseRepo (bytes : Bytes) : Option RepoName :=
  (Str.fromUtf8 bytes).bind fun text => (RepoName.new text.bytes).toOption

theorem splitZero_eq_some {body a b : Bytes} :
    splitZero body = some (a, b) ↔ body = a ++ 0 :: b ∧ 0 ∉ a := by
  constructor
  · intro h
    rw [splitZero] at h
    split at h
    case h_1 => cases h
    case h_2 c rest hrest =>
      obtain ⟨rfl, rfl⟩ := Prod.mk.inj (Option.some.inj h)
      have hc : ((c != 0) = true) → False := fun hc => by
        have hhead := List.head?_dropWhile_not (· != 0) body
        rw [hrest] at hhead
        simp [hc] at hhead
      have hzero : c = 0 := by simpa using hc
      refine ⟨?_, fun hmem => ?_⟩
      · have hwhole := @List.takeWhile_append_dropWhile _ (fun b : UInt8 => b != 0) body
        rw [hrest, hzero] at hwhole
        exact hwhole.symm
      · simpa using List.mem_takeWhile_imp hmem
  · rintro ⟨rfl, ha⟩
    have hall : ∀ x ∈ a, (x != 0) = true := fun x hx => by
      rw [bne_iff_ne]
      rintro rfl
      exact ha hx
    rw [splitZero, List.dropWhile_append_of_pos hall, List.takeWhile_append_of_pos hall]
    simp

theorem parseHash_eq_some {bytes : Bytes} {hash : Hash} :
    parseHash bytes = some hash ↔ bytes = hash.bytes := by
  rw [parseHash]
  constructor
  · intro h
    split at h
    case isTrue => rw [← Option.some.inj h]
    case isFalse => cases h
  · rintro rfl
    rw [dif_pos hash.length_bytes]

theorem parseRepo_eq_some {bytes : Bytes} {repo : RepoName} :
    parseRepo bytes = some repo ↔ bytes = repo.name := by
  rw [parseRepo, Option.bind_eq_some_iff]
  constructor
  · rintro ⟨text, htext, hrepo⟩
    rw [Partition.Str.fromUtf8_eq_some.1 htext, Partition.toOption_new_eq_some.1 hrepo]
  · rintro rfl
    exact ⟨⟨repo.name, Partition.RepoName.isUtf8 repo⟩, Partition.Str.fromUtf8_eq_some.2 rfl,
      Partition.toOption_new_eq_some.2 rfl⟩

/-! ### Stored-bytes counting -/

/-- `rb 00 <repo>`. -/
def repoStorage (repo : RepoName) : Key :=
  key TAG_REPO_STORAGE [repo.name]

/-- `rn 00 <repo> 00 <pack>`: the coordinator's marker that the pack is counted. -/
def repoStoragePack (repo : RepoName) (pack : Hash) : Key :=
  key TAG_REPO_STORAGE_PACK [repo.name, [0], pack.bytes]

/-- The tag of a key that is not too long, and the body behind it. -/
def splitKey (k : Key) : Option (Bytes × Bytes) :=
  if MAX_KEY_BYTES < k.length then none else splitZero k

/-- A repository name and a hash. -/
def parseRepoHash (body : Bytes) : Option (RepoName × Hash) :=
  (splitZero body).bind fun p =>
    (parseRepo p.1).bind fun repo => (parseHash p.2).map fun hash => (repo, hash)

/-- What `parse` reads of a counted-pack marker. -/
def parseRepoStoragePack (k : Key) : Option (RepoName × Hash) :=
  (splitKey k).bind fun p => if p.1 = TAG_REPO_STORAGE_PACK then parseRepoHash p.2 else none

/-- `fv 00`. -/
def forkIndexRevision : Key :=
  key TAG_FORK_INDEX_REVISION []

theorem zero_notMem_repo (repo : RepoName) : 0 ∉ repo.name := by
  intro h
  have hvalid := repo.valid
  simp only [isRepoName, Bool.and_eq_true, List.all_eq_true] at hvalid
  exact absurd (hvalid.2 0 h) (by decide)

theorem length_repo_le (repo : RepoName) : repo.name.length ≤ MAX_REPO_NAME_BYTES := by
  have hvalid := repo.valid
  simp only [isRepoName, Bool.and_eq_true, decide_eq_true_eq] at hvalid
  exact hvalid.1.2

theorem splitKey_eq_some {k tag body : Bytes} : splitKey k = some (tag, body) ↔
      k.length ≤ MAX_KEY_BYTES ∧ k = key tag [body] ∧ 0 ∉ tag := by
  rw [splitKey, key, List.flatten_cons, List.flatten_nil, List.append_nil, ← splitZero_eq_some]
  by_cases h : MAX_KEY_BYTES < k.length
  · simp [h]
  · simp [h, not_lt.1 h]

theorem parseRepoHash_eq_some {body : Bytes} {repo : RepoName} {hash : Hash} :
    parseRepoHash body = some (repo, hash) ↔ body = repo.name ++ 0 :: hash.bytes := by
  simp only [parseRepoHash, Option.bind_eq_some_iff, Option.map_eq_some_iff, Prod.exists,
    splitZero_eq_some, parseRepo_eq_some, parseHash_eq_some, Prod.mk.injEq]
  constructor
  · rintro ⟨a, b, ⟨rfl, -⟩, repo', rfl, hash', rfl, rfl, rfl⟩
    rfl
  · rintro rfl
    exact ⟨_, _, ⟨rfl, zero_notMem_repo repo⟩, repo, rfl, hash, rfl, rfl, rfl⟩

/-- A marker is read back as it was built, and nothing else is read as one. -/
theorem parseRepoStoragePack_eq_some {k : Key} {repo : RepoName} {pack : Hash} :
    parseRepoStoragePack k = some (repo, pack) ↔ k = repoStoragePack repo pack := by
  have hkey : repoStoragePack repo pack =
      key TAG_REPO_STORAGE_PACK [repo.name ++ 0 :: pack.bytes] := by
    simp [repoStoragePack, key]
  rw [parseRepoStoragePack, Option.bind_eq_some_iff]
  constructor
  · rintro ⟨⟨tag, body⟩, hsplit, h⟩
    obtain ⟨-, rfl, -⟩ := splitKey_eq_some.1 hsplit
    split at h
    case isTrue htag =>
      dsimp only at htag h
      rw [hkey, htag, parseRepoHash_eq_some.1 h]
    case isFalse => cases h
  · rintro rfl
    refine ⟨⟨TAG_REPO_STORAGE_PACK, repo.name ++ 0 :: pack.bytes⟩,
      splitKey_eq_some.2 ⟨?_, hkey, by decide⟩, ?_⟩
    · have hrepo := length_repo_le repo
      have hpack : pack.bytes.length = 32 := pack.length_bytes
      rw [MAX_REPO_NAME_BYTES] at hrepo
      simp only [hkey, key, List.flatten_cons, List.flatten_nil, List.length_append,
        List.length_cons, TAG_REPO_STORAGE_PACK, ascii, List.map_cons, List.map_nil,
        List.length_nil, MAX_KEY_BYTES]
      omega
    · rw [if_pos rfl, parseRepoHash_eq_some]

/-! ### Timers -/

/-- Highest persisted infrastructure retry attempt. -/
def MAX_TIMER_RETRY_ATTEMPT : UInt8 := 8

/-- Move an existing timer's physical wake while retaining its handler identity. -/
def timerRetry (dueAtMs : UInt64) (kind : UInt8) (reference : Bytes) (originalDueAtMs : UInt64)
    (attempt : UInt8) : Key :=
  key TAG_TIMER [be64 dueAtMs, [kind, attempt], be64 originalDueAtMs, reference]

/-- A newly scheduled timer with zero retries and its own semantic due time. -/
def timer (dueAtMs : UInt64) (kind : UInt8) (reference : Bytes) : Key :=
  timerRetry dueAtMs kind reference dueAtMs 0

/-- `u64::from_be_bytes` of the first eight bytes, and the rest. -/
def splitBe64 (bytes : Bytes) : Option (UInt64 × Bytes) :=
  if bytes.length < 8 then none
  else some (UInt64.ofNat (Wire.ofLeBytes (bytes.take 8).reverse), bytes.drop 8)

/-- The parts of a timer key behind its tag: due time, kind, original due time, attempt and
reference. -/
def timerParts (body : Bytes) : Option (UInt64 × UInt8 × UInt64 × UInt8 × Bytes) := do
  let (dueAtMs, rest) ← splitBe64 body
  let (kind, rest) ← rest.head?.map fun k => (k, rest.tail)
  let (attempt, rest) ← rest.head?.map fun a => (a, rest.tail)
  let (originalDue, reference) ← splitBe64 rest
  if MAX_TIMER_RETRY_ATTEMPT < attempt || dueAtMs < originalDue ||
      (attempt == 0 && originalDue != dueAtMs) then none
  else some (dueAtMs, kind, originalDue, attempt, reference)

/-- Does `parse` read the key as a timer? -/
def parsesAsTimer (k : Key) : Bool :=
  k.length ≤ MAX_KEY_BYTES && ofClass TAG_TIMER k &&
    (timerParts (k.drop (TAG_TIMER.length + 1))).isSome

/-- Whether the key is in the ref class. -/
def isRefKey (k : Key) : Bool :=
  ofClass TAG_REF k

end keys

end Mkit.Server
