import Mkit.Index
import Mkit.Lib.Cursor

/-!
# The Codec of the Staging Index

The writer of the index (`index.rs`) and its reader as the code has it: an offset into the
buffer, slices at computed positions, one length check for each entry and one for each path.
The writer converts two lengths with `expect`; here it returns nothing where it would abort, and
so does the reader where a slice is out of bounds. The lookup table `by_path` that goes with the
entries in memory is derived from them and not compared.

## Main results

* `deserialize_eq` — the reader at offsets never slices out of bounds, and it is the parser of
  `Mkit.Index` on every byte string.
* `deserializeIndex_eq_ok_iff` — the parser accepts exactly the bytes of the well-formed
  indexes.
* `index_codec_exact` — both directions of the codec, and an error on every other string.
-/

namespace Mkit

open Wire Text

/-- The status as a byte. -/
def EntryStatus.toByte : EntryStatus → UInt8
  | .removed => 0x00
  | .blob => 0x01
  | .tree => 0x02
  | .symlink => 0x03
  | .executable => 0x04

/-- What is written for an entry, its path length cut to 16 bits. -/
def IndexEntry.wire (e : IndexEntry) : Bytes :=
  [e.status.toByte] ++ (e.object_hash.bytes ++ (leBytes 8 e.mtime_ns.toNat ++
    (leBytes 8 e.size.toNat ++ (leBytes 8 e.ino.toNat ++ (leBytes 8 e.ctime_ns.toNat ++
      (leBytes 2 e.path.length ++ e.path))))))

/-- Write one entry; the length of its path has to fit a `u16`. -/
def IndexEntry.serialize (e : IndexEntry) : Option Bytes :=
  if e.path.length < 2 ^ 16 then some e.wire else none

section Codec

variable (B : Blake3)

/-- Serialise an index: header, entries in order, and the digest of both; the number of entries
has to fit a `u32`. -/
def Index.serialize (entries : List IndexEntry) : Option Bytes :=
  if entries.length < 2 ^ 32 then do
    let parts ← entries.mapM IndexEntry.serialize
    let out := INDEX_MAGIC ++ [FORMAT_VERSION] ++ leBytes 4 entries.length ++ parts.flatten
    some (out ++ (B.hash out).bytes)
  else none

/-- Fill an array from the next `n` bytes. -/
def fetchArr {ε : Type} (n : ℕ) : Cursor ε (ByteArr n) := do
  let bs ← fetch n
  pure (ByteArr.pad n bs)

/-- One round of the entry loop. -/
def deserializeEntry (entries : List IndexEntry) : Cursor IndexError IndexEntry := do
  ensure .corrupt MIN_ENTRY_LEN
  let tag ← fetchByte
  match EntryStatus.fromByte tag with
  | none => throw (.badStatus tag)
  | some status => do
    let object_hash ← fetchArr HASH_LEN
    let mtime_ns ← fetchWord 8 UInt64.ofNat
    let size ← fetchWord 8 UInt64.ofNat
    let ino ← fetchWord 8 UInt64.ofNat
    let ctime_ns ← fetchWord 8 UInt64.ofNat
    let path_len ← fetchWord 2 UInt16.ofNat
    if path_len.toNat > MAX_PATH_LEN then throw .corrupt
    else do
      ensure .corrupt path_len.toNat
      let path ← fetch path_len.toNat
      if !isUtf8 path then throw .invalidPathEncoding
      else if !validateIndexPath path then throw (.invalidPath path)
      else if path ∈ entries.map (·.path) then throw (.duplicatePath path)
      else if status = .removed ∧ object_hash ≠ ZERO then throw (.removedHasHash path)
      else pure { path, status, object_hash, mtime_ns, size, ino, ctime_ns }

/-- Cut at `mid`, which has to be inside. -/
def splitAt {ε : Type} (data : Bytes) (mid : ℕ) : ExceptT ε Option (Bytes × Bytes) :=
  if mid ≤ data.length then some (.ok (data.take mid, data.drop mid)) else none

/-- Deserialise an index, with the offset kept by hand. -/
def Index.deserialize (data : Bytes) : ExceptT IndexError Option (List IndexEntry) :=
  if data.length > MAX_INDEX_BYTES then throw .tooLarge
  else if data.length < 9 then throw .corrupt
  else do
    let (magic, _) ← fetch 4 data 0
    if magic ≠ INDEX_MAGIC then throw .badMagic
    else do
      let (version, _) ← fetchByte data 4
      if version ≠ FORMAT_VERSION then throw (.unsupportedVersion version)
      else if data.length < 9 + HASH_LEN then throw .corrupt
      else do
        let (data, checksum) ← splitAt data (data.length - HASH_LEN)
        if (B.hash data).bytes ≠ checksum then throw .corrupt
        else do
          let (count, _) ← fetchWord 4 UInt32.ofNat data 5
          -- The product of a `u32` and 67 does not saturate.
          if count.toNat * MIN_ENTRY_LEN > data.length then throw .corrupt
          else do
            let (entries, offset) ← collectWith deserializeEntry count.toNat [] data 9
            if offset ≠ data.length then throw .corrupt else pure entries

/-! ### The offsets stay inside -/

theorem reads_fetchArr {ε : Type} {data : Bytes} (eof : ε) (n : ℕ) :
    Reads data n (fetchArr n) (ByteArr.read eof n) := by
  intro offset h
  have hlen : ((data.drop offset).take n).length = n := by
    rw [List.length_take, List.length_drop]
    omega
  have hpad : ByteArr.pad n ((data.drop offset).take n) = ⟨(data.drop offset).take n, hlen⟩ :=
    ByteArr.ext (List.take_left' hlen)
  obtain ⟨bs, hfetch, htake⟩ := (Reads.fetch eof n : Reads data n _ _) offset h
  obtain rfl : (data.drop offset).take n = bs := by
    rw [fetch, if_pos h] at hfetch
    exact (Prod.mk.inj (Except.ok.inj (Option.some.inj hfetch))).1
  refine ⟨⟨(data.drop offset).take n, hlen⟩, ?_, ?_⟩
  · change (fetch n data offset >>= fun r => _) = _
    rw [hfetch, ← hpad]
    rfl
  · rw [ByteArr.read, dif_neg (by rw [List.length_drop]; omega), List.drop_drop]

/-- One entry is read inside the buffer: its fixed part after one check, its path after
another. -/
theorem tracks_deserializeEntry {data : Bytes} (entries : List IndexEntry) :
    Wire.Tracks data 0 (deserializeEntry entries) (readIndexEntry entries) := by
  refine Wire.Tracks.ensure (n := MIN_ENTRY_LEN) ?_
  refine Wire.Tracks.read (Reads.fetchByte _) (by decide) fun tag => ?_
  cases EntryStatus.fromByte tag with
  | none => exact fun _ _ => .error _
  | some status =>
    refine Wire.Tracks.read (reads_fetchArr _ _) (by decide) fun object_hash => ?_
    refine Wire.Tracks.read (Reads.fetchWord _ _ _) (by decide) fun mtime_ns => ?_
    refine Wire.Tracks.read (Reads.fetchWord _ _ _) (by decide) fun size => ?_
    refine Wire.Tracks.read (Reads.fetchWord _ _ _) (by decide) fun ino => ?_
    refine Wire.Tracks.read (Reads.fetchWord _ _ _) (by decide) fun ctime_ns => ?_
    refine Wire.Tracks.read (Reads.fetchWord _ _ _) (by decide) fun path_len => ?_
    refine Wire.Tracks.check (Wire.Tracks.mono (Wire.Tracks.take fun path => ?_) (Nat.zero_le _))
    exact Wire.Tracks.check (Wire.Tracks.check (Wire.Tracks.check (Wire.Tracks.check
      (Wire.Tracks.pure _))))

/-- Reading at offsets never leaves the buffer, and finds what the parser finds. -/
theorem deserialize_eq (data : Bytes) :
    Index.deserialize B data = some (deserializeIndex B data) := by
  rw [Index.deserialize, deserializeIndex]
  by_cases hlong : data.length > MAX_INDEX_BYTES
  · rw [if_pos hlong, if_pos hlong]
    rfl
  rw [if_neg hlong, if_neg hlong]
  by_cases hshort : data.length < 9
  · rw [if_pos hshort, if_pos hshort]
    rfl
  rw [if_neg hshort, if_neg hshort]
  rw [returned_bind (fetch_eq (by omega)), List.drop_zero]
  dsimp only
  by_cases hmagic : data.take 4 ≠ INDEX_MAGIC
  · rw [if_pos hmagic, if_pos hmagic]
    rfl
  rw [if_neg hmagic, if_neg hmagic, returned_bind (fetchByte_eq (by omega))]
  dsimp only
  by_cases hversion : data.getD 4 0 ≠ FORMAT_VERSION
  · rw [if_pos hversion, if_pos hversion]
    rfl
  rw [if_neg hversion, if_neg hversion]
  by_cases hsum : data.length < 9 + HASH_LEN
  · rw [if_pos hsum, if_pos hsum]
    rfl
  rw [if_neg hsum, if_neg hsum]
  have hsplit : splitAt (ε := IndexError) data (data.length - HASH_LEN) = some (.ok
      (data.take (data.length - HASH_LEN), data.drop (data.length - HASH_LEN))) :=
    if_pos (Nat.sub_le _ _)
  have hbody : 9 ≤ (data.take (data.length - HASH_LEN)).length := by
    rw [List.length_take]
    omega
  rw [returned_bind hsplit]
  generalize data.take (data.length - HASH_LEN) = body at hbody
  generalize data.drop (data.length - HASH_LEN) = checksum
  dsimp only
  by_cases hhash : (B.hash body).bytes ≠ checksum
  · rw [if_pos hhash, if_pos hhash]
    rfl
  rw [if_neg hhash, if_neg hhash, returned_bind (fetchWord_eq _ (by omega))]
  have hcount : (UInt32.ofNat (ofLeBytes ((body.drop 5).take 4))).toNat =
      ofLeBytes ((body.drop 5).take 4) := by
    rw [UInt32.toNat_ofNat']
    refine Nat.mod_eq_of_lt ((ofLeBytes_lt _).trans_le ?_)
    rw [List.length_take]
    exact Nat.pow_le_pow_right (n := 256) (by omega) (min_le_left _ _)
  dsimp only
  rw [hcount]
  generalize ofLeBytes ((body.drop 5).take 4) = count
  by_cases hfits : count * MIN_ENTRY_LEN > body.length
  · rw [if_pos hfits, if_pos hfits]
    rfl
  rw [if_neg hfits, if_neg hfits]
  have hloop := Wire.Tracks.repeatWith tracks_deserializeEntry count [] 9 hbody
  generalize hx : collectWith deserializeEntry count [] body 9 = x,
    repeatWith readIndexEntry count [] (body.drop 9) = y at hloop ⊢
  cases hloop with
  | error e => rfl
  | ok entries offset h =>
    have hrest : offset ≠ body.length ↔ body.drop offset ≠ [] := by
      rw [ne_eq, ne_eq, List.drop_eq_nil_iff]
      omega
    rw [returned_bind rfl]
    dsimp only
    by_cases hend : offset ≠ body.length
    · rw [if_pos hend]
      exact congrArg some (if_pos (hrest.1 hend)).symm
    · rw [if_neg hend]
      exact congrArg some (if_neg fun h => hend (hrest.2 h)).symm

/-! ### The format -/

/-- What `deserialize` demands of an entry: its path is text and valid, and only an entry that
is not removed has a hash. -/
structure IndexEntry.Valid (e : IndexEntry) : Prop where
  utf8 : isUtf8 e.path = true
  path : validateIndexPath e.path = true
  removed : e.status = .removed → e.object_hash = ZERO

theorem fromByte_eq_some_iff {b : UInt8} {status : EntryStatus} :
    EntryStatus.fromByte b = some status ↔ b = status.toByte := by
  constructor
  · intro h
    unfold EntryStatus.fromByte at h
    split at h <;> cases h <;> rfl
  · rintro rfl
    cases status <;> rfl

/-- A valid path is short. -/
theorem length_le_of_validateIndexPath {path : Bytes} (h : validateIndexPath path = true) :
    path.length ≤ MAX_PATH_LEN := by
  rw [validateIndexPath] at h
  split_ifs at h with _ _ hlen
  omega

theorem IndexEntry.Valid.serialize {e : IndexEntry} (h : e.Valid) : e.serialize = some e.wire := by
  have := length_le_of_validateIndexPath h.path
  rw [MAX_PATH_LEN] at this
  exact if_pos (by omega)

theorem IndexEntry.length_wire (e : IndexEntry) :
    e.wire.length = MIN_ENTRY_LEN + e.path.length := by
  simp only [IndexEntry.wire, List.length_append, List.length_singleton, ByteArr.length_bytes,
    length_leBytes, MIN_ENTRY_LEN, HASH_LEN]
  omega

/-- One round of the loop reads one well-formed entry with a new path. -/
theorem parses_readIndexEntry (entries : List IndexEntry) : Parses (readIndexEntry entries)
      (fun e bs => (e.Valid ∧ e.path ∉ entries.map (·.path)) ∧ bs = e.wire) := by
  refine Parses.ahead (Parses.congr (Parses.bind (S := fun tag e bs => (e.Valid ∧
    e.path ∉ entries.map (·.path)) ∧ tag = e.status.toByte ∧ [tag] ++ bs = e.wire)
    (Parses.byte _) fun tag => ?_) fun e bs => ?_) ?_
  · cases hstatus : EntryStatus.fromByte tag with
    | none =>
      refine (Parses.throw _).congr fun e bs => iff_of_false id ?_
      rintro ⟨-, htag, -⟩
      rw [fromByte_eq_some_iff.2 htag] at hstatus
      cases hstatus
    | some status =>
      refine (((ByteArr.parses_read _ _).bind fun object_hash => (Parses.word64 _).bind
        fun mtime_ns => (Parses.word64 _).bind fun size => (Parses.word64 _).bind fun ino =>
        (Parses.word64 _).bind fun ctime_ns => (Parses.word16 _).bind fun path_len =>
        ((Parses.take _ path_len.toNat).bind fun path =>
          (Parses.pure _).check.check.check.check).check)).congr fun e bs => ?_
      constructor
      · rintro ⟨object_hash, _, _, rfl, ⟨mtime_ns, _, _, rfl, ⟨size, _, _, rfl, ⟨ino, _, _, rfl,
          ⟨ctime_ns, _, _, rfl, ⟨path_len, _, _, rfl, ⟨hlen, path, _, _, ⟨rfl, hpath⟩,
          ⟨hutf8, hvalid, hnew, hremoved, rfl, rfl⟩, rfl⟩, rfl⟩, rfl⟩, rfl⟩, rfl⟩, rfl⟩, rfl⟩
        have htag := fromByte_eq_some_iff.1 hstatus
        refine ⟨⟨⟨by simpa using hutf8, by simpa using hvalid, fun h => ?_⟩, hnew⟩, htag, ?_⟩
        · exact not_not.1 fun hne => hremoved ⟨h, hne⟩
        · rw [IndexEntry.wire, ← hpath, htag, List.append_nil]
      · rintro ⟨⟨hvalid, hnew⟩, htag, hbs⟩
        have hlen := length_le_of_validateIndexPath hvalid.path
        have hword : (UInt16.ofNat e.path.length).toNat = e.path.length := by
          rw [MAX_PATH_LEN] at hlen
          rw [UInt16.toNat_ofNat']
          exact Nat.mod_eq_of_lt (by omega)
        obtain rfl : e.status = status := by
          rw [fromByte_eq_some_iff.2 htag] at hstatus
          exact Option.some.inj hstatus
        rw [htag, IndexEntry.wire] at hbs
        refine ⟨e.object_hash, _, _, rfl, ⟨e.mtime_ns, _, _, rfl, ⟨e.size, _, _, rfl,
          ⟨e.ino, _, _, rfl, ⟨e.ctime_ns, _, _, rfl, ⟨UInt16.ofNat e.path.length, _, _, rfl,
          ⟨by rw [hword]; omega, e.path, _, _, ⟨rfl, hword.symm⟩, ⟨by simp [hvalid.utf8],
            by simp [hvalid.path], hnew, fun h => h.2 (hvalid.removed h.1), rfl, rfl⟩, rfl⟩,
          rfl⟩, rfl⟩, rfl⟩, rfl⟩, rfl⟩, ?_⟩
        rw [hword, List.append_nil]
        exact List.append_cancel_left hbs
  · constructor
    · rintro ⟨tag, _, v, rfl, ⟨hvalid, -, hv⟩, rfl⟩
      exact ⟨hvalid, hv⟩
    · rintro ⟨hvalid, rfl⟩
      exact ⟨e.status.toByte, _, _, rfl, ⟨hvalid, rfl, rfl⟩, rfl⟩
  · rintro e bs ⟨-, rfl⟩
    rw [IndexEntry.length_wire]
    omega

/-- An index that can be written and read back: well-formed entries with distinct paths whose
encoding fits the bound of the reader. -/
structure Index.Valid (entries : List IndexEntry) : Prop where
  valid : ∀ e ∈ entries, e.Valid
  unique : (entries.map (·.path)).Nodup
  fits : 9 + (entries.flatMap IndexEntry.wire).length + HASH_LEN ≤ MAX_INDEX_BYTES

/-- The checks of the loop, taken together. -/
theorem admits_iff {acc entries : List IndexEntry} (hacc : (acc.map (·.path)).Nodup) :
    Admits (fun acc e => e.Valid ∧ e.path ∉ acc.map (·.path)) acc entries ↔
      (∀ e ∈ entries, e.Valid) ∧ ((acc ++ entries).map (·.path)).Nodup := by
  induction entries generalizing acc with
  | nil => simp [Admits, hacc]
  | cons e entries ih =>
    have hsnoc : ((acc ++ [e]).map (·.path)).Nodup ↔ e.path ∉ acc.map (·.path) := by
      rw [List.map_append, List.map_singleton, ← List.concat_eq_append, List.nodup_concat]
      exact and_iff_left hacc
    rw [Admits, List.forall_mem_cons]
    constructor
    · rintro ⟨⟨hvalid, hnew⟩, hrest⟩
      obtain ⟨hall, hnodup⟩ := (ih (hsnoc.2 hnew)).1 hrest
      rw [List.append_assoc] at hnodup
      exact ⟨⟨hvalid, hall⟩, hnodup⟩
    · rintro ⟨⟨hvalid, hall⟩, hnodup⟩
      rw [List.append_cons] at hnodup
      have hnew : ((acc ++ [e]).map (·.path)).Nodup := by
        rw [List.map_append] at hnodup
        exact hnodup.of_append_left
      exact ⟨⟨hvalid, hsnoc.1 hnew⟩, (ih hnew).2 ⟨hall, hnodup⟩⟩

/-- The bytes before the digest. -/
def Index.body (entries : List IndexEntry) : Bytes :=
  INDEX_MAGIC ++ [FORMAT_VERSION] ++ leBytes 4 entries.length ++ entries.flatMap IndexEntry.wire

theorem length_index_body (entries : List IndexEntry) :
    (Index.body entries).length = 9 + (entries.flatMap IndexEntry.wire).length := by
  have hmagic : INDEX_MAGIC.length = 4 := rfl
  simp only [Index.body, List.length_append, List.length_singleton, length_leBytes, hmagic]

/-- Every entry takes at least its fixed part. -/
theorem length_mul_le_wire (entries : List IndexEntry) :
    entries.length * MIN_ENTRY_LEN ≤ (entries.flatMap IndexEntry.wire).length :=
  length_of_encodes (R := fun e u => u = IndexEntry.wire e)
    (fun e u hu => by rw [hu, IndexEntry.length_wire]; omega) (encodes_flatMap.2 rfl)

/-- The loop reads what the writer's loop writes. -/
theorem parses_entries (n : ℕ) :
    Parses (repeatWith readIndexEntry n []) (fun entries bs => entries.length = n ∧
      ((∀ e ∈ entries, e.Valid) ∧ (entries.map (·.path)).Nodup) ∧
        bs = entries.flatMap IndexEntry.wire) := by
  refine (Parses.repeatWith parses_readIndexEntry n []).congr fun entries bs => ?_
  have hnone : (([] : List IndexEntry).map (·.path)).Nodup := List.nodup_nil
  simp only [List.nil_append, exists_eq_left', encodes_flatMap, admits_iff hnone]

/-- The header fields of a body and what follows them. -/
theorem header_append (body : Bytes) (h : 9 ≤ body.length) :
    body.take 4 ++ [body.getD 4 0] ++ (body.drop 5).take 4 ++ body.drop 9 = body := by
  have hversion : [body.getD 4 0] ++ body.drop 5 = body.drop 4 := by
    rw [List.drop_eq_getElem_cons (i := 4) (by omega), List.getD_eq_getElem?_getD,
      List.getElem?_eq_getElem (by omega)]
    rfl
  have hcount : (body.drop 5).take 4 ++ body.drop 9 = body.drop 5 := by
    rw [show body.drop 9 = (body.drop 5).drop 4 by rw [List.drop_drop]]
    exact List.take_append_drop 4 _
  rw [List.append_assoc, hcount, List.append_assoc, hversion, List.take_append_drop]

/-- **Acceptance.** An index is read exactly from the bytes that are written for it. -/
theorem deserializeIndex_eq_ok_iff {data : Bytes} {entries : List IndexEntry} :
    deserializeIndex B data = .ok entries ↔ Index.Valid entries ∧
      data = Index.body entries ++ (B.hash (Index.body entries)).bytes := by
  have hhash_len : HASH_LEN = 32 := rfl
  constructor
  · intro h
    rw [deserializeIndex] at h
    split_ifs at h with hlong hshort hm hv hsum
    dsimp only at h
    split_ifs at h with hhash hfits
    obtain ⟨⟨entries', rest⟩, hloop, h⟩ := bind_eq_ok.1 h
    dsimp only at h
    split_ifs at h with hrest
    obtain rfl := Except.ok.inj h
    obtain rfl := not_not.1 hrest
    obtain ⟨bs, ⟨hcount, ⟨hvalid, hnodup⟩, rfl⟩, hentries⟩ := (parses_entries _ _ _ _).1 hloop
    have hlen : (data.take (data.length - HASH_LEN)).length = data.length - HASH_LEN := by
      rw [List.length_take]
      omega
    have hbody : Index.body entries' = data.take (data.length - HASH_LEN) := by
      rw [← header_append (data.take (data.length - HASH_LEN)) (by omega)]
      have hmagic : (data.take (data.length - HASH_LEN)).take 4 = INDEX_MAGIC := by
        rw [List.take_take, min_eq_left (by omega)]
        exact not_not.1 hm
      have hversion : (data.take (data.length - HASH_LEN)).getD 4 0 = FORMAT_VERSION := by
        rw [List.getD_eq_getElem?_getD, List.getElem?_take_of_lt (by omega),
          ← List.getD_eq_getElem?_getD]
        exact not_not.1 hv
      have hfour : (((data.take (data.length - HASH_LEN)).drop 5).take 4).length = 4 := by
        rw [List.length_take, List.length_drop]
        omega
      have hword := leBytes_ofLeBytes (((data.take (data.length - HASH_LEN)).drop 5).take 4)
      rw [hfour, ← hcount] at hword
      rw [Index.body, hmagic, hversion, hword, hentries, List.append_nil]
    refine ⟨⟨hvalid, hnodup, ?_⟩, ?_⟩
    · rw [← length_index_body, hbody, hlen]
      omega
    · rw [hbody, not_not.1 hhash, List.take_append_drop]
  · rintro ⟨hvalid, rfl⟩
    have hfits := hvalid.fits
    have hbody := length_index_body entries
    have hsum : (Index.body entries ++ (B.hash (Index.body entries)).bytes).length =
        (Index.body entries).length + HASH_LEN := by
      rw [List.length_append, ByteArr.length_bytes]
    have hcount : entries.length < 256 ^ 4 := by
      have := length_mul_le_wire entries
      rw [MIN_ENTRY_LEN, hhash_len] at this
      rw [MAX_INDEX_BYTES] at hfits
      omega
    have hloop : repeatWith readIndexEntry entries.length [] ((Index.body entries).drop 9) =
        .ok (entries, []) := by
      refine (parses_entries _ _ _ _).2 ⟨_, ⟨rfl, ⟨hvalid.valid, hvalid.unique⟩, rfl⟩, ?_⟩
      rw [List.append_nil]
      exact List.drop_left' (by simp only [List.length_append, length_leBytes]; rfl)
    have hword : ofLeBytes (((Index.body entries).drop 5).take 4) = entries.length := by
      have hdrop : (Index.body entries).drop 5 =
          leBytes 4 entries.length ++ entries.flatMap IndexEntry.wire := by
        rw [Index.body, List.append_assoc (INDEX_MAGIC ++ [FORMAT_VERSION])]
        exact List.drop_left' rfl
      rw [hdrop, List.take_left' (length_leBytes _ _), ofLeBytes_leBytes, Nat.mod_eq_of_lt hcount]
    have hm : (Index.body entries ++ (B.hash (Index.body entries)).bytes).take 4 = INDEX_MAGIC :=
      rfl
    have hv : (Index.body entries ++ (B.hash (Index.body entries)).bytes).getD 4 0 =
      FORMAT_VERSION := rfl
    rw [deserializeIndex, if_neg (by omega), if_neg (by omega), if_neg (not_not.2 hm),
      if_neg (not_not.2 hv), if_neg (by omega)]
    dsimp only
    rw [hsum, Nat.add_sub_cancel, List.take_left, List.drop_left, if_neg (not_not.2 rfl), hword,
      if_neg (by have := length_mul_le_wire entries; omega), hloop]
    rfl

/-- A valid index is written without an abort. -/
theorem Index.Valid.serialize {entries : List IndexEntry} (h : Index.Valid entries) :
    Index.serialize B entries =
      some (Index.body entries ++ (B.hash (Index.body entries)).bytes) := by
  have hparts : entries.mapM IndexEntry.serialize = some (entries.map IndexEntry.wire) := by
    have hvalid := h.valid
    clear h
    induction entries with
    | nil => rfl
    | cons e entries ih =>
      obtain ⟨he, hentries⟩ := List.forall_mem_cons.1 hvalid
      rw [List.mapM_cons, he.serialize, ih hentries]
      rfl
  have hcount : entries.length < 2 ^ 32 := by
    have hlen := length_mul_le_wire entries
    have hfits := h.fits
    rw [MIN_ENTRY_LEN, HASH_LEN] at hlen
    rw [MAX_INDEX_BYTES] at hfits
    omega
  rw [Index.serialize, if_pos hcount, hparts]
  change some (_ ++ (B.hash _).bytes) = _
  rw [← List.flatMap_def]
  rfl

/-- **The index codec.** What is written for a valid index is read back as that index; what is
read is written back byte for byte; and every string of bytes that is not written for a valid
index is an error, found without indexing out of bounds. -/
theorem index_codec_exact :
    (∀ entries, Index.Valid entries → ∃ b, Index.serialize B entries = some b ∧
      Index.deserialize B b = some (.ok entries)) ∧
    (∀ b entries, Index.deserialize B b = some (.ok entries) →
      Index.serialize B entries = some b) ∧
    ∀ b, (∃ entries, Index.Valid entries ∧ Index.serialize B entries = some b) ∨
      ∃ e, Index.deserialize B b = some (.error e) := by
  have hread : ∀ b entries, Index.deserialize B b = some (.ok entries) ↔
      Index.Valid entries ∧ Index.serialize B entries = some b := by
    intro b entries
    rw [deserialize_eq, Option.some.injEq, deserializeIndex_eq_ok_iff]
    refine and_congr_right fun h => ?_
    rw [h.serialize, Option.some.injEq, eq_comm]
  refine ⟨fun entries h => ?_, fun b entries h => ((hread b entries).1 h).2, fun b => ?_⟩
  · exact ⟨_, h.serialize B, (hread _ _).2 ⟨h, h.serialize B⟩⟩
  · cases hb : deserializeIndex B b with
    | error e => exact .inr ⟨e, by rw [deserialize_eq, hb]⟩
    | ok entries => exact .inl ⟨entries, (hread _ _).1 (by rw [deserialize_eq, hb])⟩

end Codec

end Mkit
