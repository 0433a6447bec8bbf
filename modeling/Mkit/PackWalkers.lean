import Mkit.PackDecode

/-!
# The Walkers Over a Pack

Three loops walk the frames of a pack with their own arithmetic: the iterator of `PackEntries`
(after its own validating scan), `delta_base_hashes`, which collects the bases a pack names
without checking its trailer, and `charge_compressed_claims`, which charges what compressed
entries claim before anything is decompressed. On the packs that `PackEntries.new` accepts they
read the same list of entries.

## Main results

* `walkers_agree` — a string is accepted and read to the end exactly when it is a pack of legal
  frames; its entries are those frames, the iterator yields their decodings up to the first
  failure, and the other two walks take the bases and the claims of the same entries.
-/

namespace Mkit.Pack

open Wire Tally

/-! ### What an entry shows before it is decompressed -/

/-- The length a compressed payload claims, if its bytes are there. -/
def EncodedPayload.claim? : EncodedPayload → Option ℕ
  | .plain _ => none
  | .zstd payload => leU32At payload 0

namespace Entry

/-- The base an entry names. -/
def base? : Entry → Option Hash
  | .raw _ => none
  | .delta base _ => some base

/-- The length a compressed entry claims. -/
def claim? : Entry → Option ℕ
  | .raw payload => payload.claim?
  | .delta _ stream => stream.claim?

end Entry

/-! ### The walks -/

/-- Take `n` entries as they are encoded, as the first phase of `PackReader::read` does. -/
def PackEntries.takeEncoded : ℕ → PackEntries → Except PackError (List Entry)
  | 0, _ => .ok []
  | n + 1, p =>
    match p.nextEncodedEntry with
    | (.error e, _) => .error e
    | (.ok entry, p') =>
      match takeEncoded n p' with
      | .error e => .error e
      | .ok rest => .ok (entry :: rest)

/-- What the iterator yields in at most `n` calls. -/
def PackEntries.yields (Z : Zstd) : ℕ → PackEntries → List (Except PackError PackEntry)
  | 0, _ => []
  | n + 1, p =>
    match p.next Z with
    | (none, _) => []
    | (some item, p') => item :: yields Z n p'

/-- Collect the bases of `n` frames, each once, in the order they come first. -/
def scanBases (bytes : Bytes) (split : ℕ) :
    ℕ → ℕ → Finset Hash → List Hash → Except PackError (List Hash)
  | 0, _, _, bases => .ok bases
  | n + 1, pos, seen, bases =>
    if split - pos < ENTRY_FRAME_LEN then .error .unexpectedEof
    else
      let (etype, payload_len) := frameHeader bytes pos
      let pos := pos + ENTRY_FRAME_LEN
      if split - pos < payload_len then .error .unexpectedEof
      else if etype = 0x02 ∨ etype = 0x04 then
        if payload_len < TRAILER_LEN then .error .deltaEntryTruncated
        else
          let base : Hash := ByteArr.pad HASH_LEN ((bytes.drop pos).take TRAILER_LEN)
          if base ∈ seen then scanBases bytes split n (pos + payload_len) seen bases
          else
            scanBases bytes split n (pos + payload_len) (insert base seen) (bases ++ [base])
      else scanBases bytes split n (pos + payload_len) seen bases

/-- The bases that the deltas of a pack name. The trailer is not verified. -/
def deltaBaseHashes (bytes : Bytes) : Except PackError (List Hash) :=
  if bytes.length < HEADER_LEN + TRAILER_LEN then .error .packfileTooShort
  else if bytes.take 4 ≠ MAGIC then .error .invalidMagic
  else
    let version := ofLeBytes ((bytes.drop VERSION_OFFSET).take 4)
    if version ≠ VERSION ∧ version ≠ VERSION_V2 then .error (.unsupportedVersion version)
    else
      let count := ofLeBytes ((bytes.drop ENTRY_COUNT_OFFSET).take 4)
      if MAX_ENTRIES < count then .error (.tooManyObjects count)
      else scanBases bytes (bytes.length - TRAILER_LEN) count HEADER_LEN ∅ []

/-! ### Entries and frames -/

variable {bytes : Bytes} {version split pos : ℕ}

/-- The entries are what stands in the frames. -/
def Carries (version : ℕ) (fs : List Frame) (es : List Entry) : Prop :=
  List.Forall₂ (fun f e => f.entry version = .ok e) fs es

variable {fs : List Frame}

/-- Legal frames carry entries. -/
theorem exists_carries (h : ∀ f ∈ fs, f.Legal version) : ∃ es, Carries version fs es := by
  induction fs with
  | nil => exact ⟨[], .nil⟩
  | cons f fs ih =>
    obtain ⟨es, hes⟩ := ih fun g hg => h g (List.mem_cons_of_mem f hg)
    obtain ⟨e, he⟩ := (h f List.mem_cons_self).exists_entry
    exact ⟨e :: es, .cons he hes⟩

namespace Frame

variable {f : Frame} {e : Entry}

/-- The four types, and what they carry. -/
theorem entry_cases (h : f.entry version = .ok e) : (f.etype = 0x00 ∧ e = .raw (.plain f.payload)) ∨
    (f.etype = 0x03 ∧ e = .raw (.zstd f.payload)) ∨
    (∃ base : Hash, TRAILER_LEN ≤ f.payload.length ∧ base.bytes = f.payload.take TRAILER_LEN ∧
      (f.etype = 0x02 ∧ e = .delta base (.plain (f.payload.drop TRAILER_LEN)) ∨
        f.etype = 0x04 ∧ e = .delta base (.zstd (f.payload.drop TRAILER_LEN)))) := by
  rw [entry, encodedPayload] at h
  by_cases h0 : f.etype = 0x00
  · rw [if_pos h0] at h
    exact .inl ⟨h0, (Except.ok.inj h).symm⟩
  rw [if_neg h0] at h
  by_cases h3 : f.etype = 0x03 ∧ version = VERSION_V2
  · rw [if_pos h3] at h
    exact .inr (.inl ⟨h3.1, (Except.ok.inj h).symm⟩)
  rw [if_neg h3] at h
  by_cases hd : f.etype = 0x02 ∨ (f.etype = 0x04 ∧ version = VERSION_V2)
  · rw [if_pos hd] at h
    by_cases hshort : f.payload.length < HASH_LEN
    · rw [dif_pos hshort] at h
      cases h
    rw [dif_neg hshort] at h
    obtain rfl := Except.ok.inj h
    refine .inr (.inr ⟨⟨f.payload.take HASH_LEN, by rw [List.length_take]; omega⟩,
      not_lt.1 hshort, rfl, ?_⟩)
    rcases hd with h2 | ⟨h4, -⟩
    · exact .inl ⟨h2, by rw [if_pos h2]; rfl⟩
    · exact .inr ⟨h4, by rw [if_neg (by rw [h4]; decide)]; rfl⟩
  · rw [if_neg hd] at h
    cases h

/-- A delta's base is the front of its payload. -/
theorem base?_of_entry (h : f.entry version = .ok e) :
    e.base? = (if f.etype = 0x02 ∨ f.etype = 0x04 then
      some (ByteArr.pad HASH_LEN (f.payload.take TRAILER_LEN)) else none) ∧
    (f.etype = 0x02 ∨ f.etype = 0x04 → TRAILER_LEN ≤ f.payload.length) := by
  rcases entry_cases h with ⟨ht, rfl⟩ | ⟨ht, rfl⟩ | ⟨base, hlen, hbase, hd⟩
  · simp [ht, Entry.base?]
  · simp [ht, Entry.base?]
  have hpad : ByteArr.pad HASH_LEN (f.payload.take TRAILER_LEN) = base := by
    apply ByteArr.ext
    rw [← hbase]
    exact List.take_left' base.length_bytes
  rcases hd with ⟨ht, rfl⟩ | ⟨ht, rfl⟩
  · exact ⟨by rw [if_pos (.inl ht), hpad]; rfl, fun _ => hlen⟩
  · exact ⟨by rw [if_pos (.inr ht), hpad]; rfl, fun _ => hlen⟩

/-- Only the compressed types claim a length, and they claim it where the entry's own
compressed bytes begin. -/
theorem claim?_of_entry (h : f.entry version = .ok e) :
    compressedClaim f.etype f.payload = e.claim? := by
  rcases entry_cases h with ⟨ht, rfl⟩ | ⟨ht, rfl⟩ | ⟨base, hlen, -, ⟨ht, rfl⟩ | ⟨ht, rfl⟩⟩
  · rw [compressedClaim, ht]
    rfl
  · rw [compressedClaim, ht]
    rfl
  · rw [compressedClaim, ht]
    rfl
  · have hfour : leU32At f.payload HASH_LEN = leU32At (f.payload.drop TRAILER_LEN) 0 := by
      have hT : TRAILER_LEN = HASH_LEN := rfl
      rw [leU32At, leU32At, List.drop_zero, List.length_drop, Nat.zero_add, hT]
      by_cases hl : f.payload.length < HASH_LEN + 4
      · rw [if_pos hl, if_pos (by omega)]
      · rw [if_neg hl, if_neg (by omega)]
    rw [compressedClaim, ht]
    exact hfour

end Frame

variable {es : List Entry}

/-- The claims of the compressed frames are those of the entries. -/
theorem Carries.claims (h : Carries version fs es) :
    (fs.filterMap fun f => compressedClaim f.etype f.payload) = es.filterMap Entry.claim? := by
  induction h with
  | nil => rfl
  | cons he _ ih => rw [List.filterMap_cons, List.filterMap_cons, Frame.claim?_of_entry he, ih]

/-! ### The grammar -/

/-- The type byte may stand in a pack of this version, and the length fits its field. -/
def Frame.Typed (version : ℕ) (f : Frame) : Prop :=
  f.payload.length < 2 ^ 32 ∧ (f.etype = 0x00 ∨ f.etype = 0x02 ∨
    version = VERSION_V2 ∧ (f.etype = 0x03 ∨ f.etype = 0x04))

/-- The payload of a delta has room for its base. -/
def Frame.HasBase (f : Frame) : Prop :=
  f.etype = 0x02 ∨ f.etype = 0x04 → HASH_LEN ≤ f.payload.length

/-- Version, count, types and payload of a pack. -/
structure WellFramed (version : ℕ) (fs : List Frame) : Prop where
  version_eq : version = VERSION ∨ version = VERSION_V2
  length_le : fs.length ≤ MAX_ENTRIES
  typed : ∀ f ∈ fs, f.Typed version
  payload_le : payloadSum fs ≤ MAX_TOTAL_PAYLOAD

/-- The type check of the scan, in terms of the grammar. -/
theorem Frame.legal_iff {f : Frame} : f.Legal version ↔ f.Typed version ∧ f.HasBase := by
  rw [Frame.Legal, Frame.Typed, Frame.HasBase, checkEntryType, and_assoc]
  refine and_congr_right fun _ => ?_
  by_cases h0 : f.etype = 0x00
  · simp [h0]
  by_cases h2 : f.etype = 0x02
  · by_cases hlen : f.payload.length < HASH_LEN
    · simp [h2, hlen]
    · simp [h2, hlen, not_lt.1 hlen]
  by_cases h3 : f.etype = 0x03
  · by_cases hv : version = VERSION_V2 <;> simp [h3, hv]
  by_cases h4 : f.etype = 0x04
  · by_cases hv : version = VERSION_V2
    · by_cases hlen : f.payload.length < HASH_LEN
      · simp [h4, hv, hlen]
      · simp [h4, hv, hlen, not_lt.1 hlen]
    · simp [h4, hv]
  · simp [h0, h2, h3, h4]

/-- The packs the scan demands are the grammatical ones. -/
theorem legalPack_iff :
    LegalPack version MAX_TOTAL_PAYLOAD fs ↔ WellFramed version fs ∧ ∀ f ∈ fs, f.HasBase := by
  constructor
  · intro h
    have hlegal := fun f hf => Frame.legal_iff.1 (h.legal f hf)
    exact ⟨⟨h.version_eq, h.length_le, fun f hf => (hlegal f hf).1, h.payload_le⟩,
      fun f hf => (hlegal f hf).2⟩
  · rintro ⟨h, hbase⟩
    exact ⟨h.version_eq, h.length_le, fun f hf => Frame.legal_iff.2 ⟨h.typed f hf, hbase f hf⟩,
      h.payload_le⟩

/-! ### The walks on a pack of legal frames -/

variable {p : PackEntries}

/-- Taking every entry gives the entries of the frames still to come. -/
theorem PackEntries.At.takeEncoded {past todo : List Frame}
    (h : p.At version past todo) (hes : Carries version todo es)
    (hlen : ∀ f ∈ todo, f.payload.length < 2 ^ 32) : p.takeEncoded todo.length = .ok es := by
  induction hes generalizing p past with
  | nil => rfl
  | @cons f e fs es he _ ih =>
    obtain ⟨p', hnext, hp', -⟩ := h.nextEncodedEntry (hlen f List.mem_cons_self)
    rw [List.length_cons, PackEntries.takeEncoded, hnext, he]
    dsimp only
    rw [ih hp' fun g hg => hlen g (List.mem_cons_of_mem f hg)]

/-- The items up to the first failure, which is among them. -/
def upToError {α : Type} : List (Except PackError α) → List (Except PackError α)
  | [] => []
  | .ok a :: xs => .ok a :: upToError xs
  | .error e :: _ => [.error e]

/-- Nothing comes after the end. -/
theorem PackEntries.yields_of_done (Z : Zstd) (h : p.done = true) (n : ℕ) : p.yields Z n = [] := by
  cases n with
  | zero => rfl
  | succ n => rw [PackEntries.yields, PackEntries.next, if_pos (.inl h)]

/-- The iterator yields the decodings of the entries, up to the first failure. -/
theorem PackEntries.At.yields (Z : Zstd) {p : PackEntries} {past todo : List Frame}
    {es : List Entry} (h : p.At version past todo) (hes : Carries version todo es)
    (hlen : ∀ f ∈ todo, f.payload.length < 2 ^ 32) {n : ℕ} (hn : todo.length < n) :
    p.yields Z n = upToError (es.map (decodeEncodedPayload Z)) := by
  induction hes generalizing p past n with
  | nil =>
    obtain ⟨n, rfl⟩ : ∃ m, n = m + 1 := ⟨n - 1, by omega⟩
    rw [PackEntries.yields, h.next_nil]
    rfl
  | @cons f e fs es he _ ih =>
    obtain ⟨n, rfl⟩ : ∃ m, n = m + 1 := ⟨n - 1, by omega⟩
    obtain ⟨p', ⟨hp', -⟩, hnext⟩ := h.next_cons Z (hlen f List.mem_cons_self)
    have hbind : (f.entry version >>= decodeEncodedPayload Z) = decodeEncodedPayload Z e := by
      rw [he]
      rfl
    rw [PackEntries.yields, hnext, hbind, List.map_cons]
    cases decodeEncodedPayload Z e with
    | error err =>
      dsimp only
      rw [PackEntries.yields_of_done Z rfl]
      rfl
    | ok x =>
      dsimp only
      rw [ih hp' (fun g hg => hlen g (List.mem_cons_of_mem f hg))
        (by rw [List.length_cons] at hn; omega)]
      rfl

/-- The walk for the bases adds those of the frames still to come. -/
theorem scanBases_eq {todo : List Frame} (hes : Carries version todo es)
    (hlen : ∀ f ∈ todo, f.payload.length < 2 ^ 32)
    (hdrop : bytes.drop pos = framesWire todo ++ bytes.drop split)
    (hpos : pos + (framesWire todo).length = split) (ids : List Hash) :
    scanBases bytes split todo.length pos ids.toFinset ids.eraseDups =
      .ok (ids ++ es.filterMap Entry.base?).eraseDups := by
  induction hes generalizing pos ids with
  | nil => rw [List.filterMap_nil, List.append_nil]; rfl
  | @cons f e fs es he _ ih =>
    rw [framesWire_cons, List.append_assoc] at hdrop
    rw [framesWire_cons, List.length_append, Frame.length_wire] at hpos
    obtain ⟨hbase, hbaselen⟩ := Frame.base?_of_entry he
    obtain ⟨hpayload, hrest⟩ := payload_wire hdrop
    have ih := ih (fun g hg => hlen g (List.mem_cons_of_mem f hg)) hrest (by omega)
    rw [List.length_cons, scanBases, if_neg (by omega)]
    simp only [frameHeader_wire (hlen f List.mem_cons_self) hdrop]
    rw [if_neg (by omega), List.filterMap_cons, hbase]
    by_cases hdelta : f.etype = 0x02 ∨ f.etype = 0x04
    · have htake : (bytes.drop (pos + ENTRY_FRAME_LEN)).take TRAILER_LEN =
          f.payload.take TRAILER_LEN := by
        rw [← hpayload, List.take_take, min_eq_left (hbaselen hdelta)]
      rw [if_pos hdelta, if_pos hdelta, if_neg (not_lt.2 (hbaselen hdelta)), htake]
      set base : Hash := ByteArr.pad HASH_LEN (f.payload.take TRAILER_LEN)
      have ih := ih (ids ++ [base])
      rw [eraseDups_concat, List.append_assoc, List.singleton_append] at ih
      by_cases hmem : base ∈ ids
      · have hset : (ids ++ [base]).toFinset = ids.toFinset := by simp [hmem]
        rw [if_pos hmem, hset] at ih
        rw [if_pos (List.mem_toFinset.2 hmem)]
        exact ih
      · have hset : (ids ++ [base]).toFinset = insert base ids.toFinset := by simp
        rw [if_neg hmem, hset] at ih
        rw [if_neg fun h => hmem (List.mem_toFinset.1 h)]
        exact ih
    · rw [if_neg hdelta, if_neg hdelta]
      exact ih ids

/-- The walk for the bases passes the header of a pack that the reader accepts. -/
theorem deltaBaseHashes_eq_scanBases {B : Blake3} {count : ℕ}
    (h : validatePackHeader B bytes = .ok (version, split, count)) :
    deltaBaseHashes bytes = scanBases bytes split count HEADER_LEN ∅ [] := by
  simp only [validatePackHeader] at h
  rw [deltaBaseHashes]
  by_cases hshort : bytes.length < HEADER_LEN + TRAILER_LEN
  · rw [if_pos hshort] at h
    cases h
  rw [if_neg hshort] at h ⊢
  split_ifs at h with hmagic hversion htrailer hmany hspace
  simp only [Except.ok.injEq, Prod.mk.injEq] at h
  obtain ⟨rfl, rfl, rfl⟩ := h
  rw [if_neg hmagic, if_neg hversion, if_neg hmany]

section

variable (B : Blake3)

variable {fs : List Frame} {es : List Entry}

/-- The bases of a pack of legal frames. -/
theorem deltaBaseHashes_packBytes {cap : ℕ}
    (h : LegalPack version cap fs) (hes : Carries version fs es) :
    deltaBaseHashes (packBytes B version fs) = .ok (es.filterMap Entry.base?).eraseDups := by
  rw [deltaBaseHashes_eq_scanBases (validatePackHeader_packBytes B h.version_eq h.length_le)]
  refine scanBases_eq hes (fun f hf => (h.legal f hf).1) ?_ rfl []
  rw [drop_header, drop_packBody]

/-- The charges for a pack of legal frames. -/
theorem chargeCompressedClaims_packBytes {cap : ℕ}
    (h : LegalPack version cap fs) (hes : Carries version fs es) (b : DecodeBudget) :
    chargeCompressedClaims (packBytes B version fs) (packBytes B version fs).length HEADER_LEN b =
      chargeAll (es.filterMap Entry.claim?) b := by
  have hlen := length_packBytes B version fs
  have hframes := length_framesWire fs
  have hle : fs.length ≤ fs.length * ENTRY_FRAME_LEN := Nat.le_mul_of_pos_right _ (by decide)
  rw [← hes.claims]
  refine chargeCompressedClaims_eq ?_ (by omega) (fun f hf => (h.legal f hf).1) (by omega)
  rw [hlen, Nat.add_sub_cancel, drop_header, drop_packBody]

/-- Everything that is read off a pack of legal frames. -/
theorem exists_readings (Z : Zstd) (h : LegalPack version MAX_TOTAL_PAYLOAD fs) :
    ∃ p es, PackEntries.new B (packBytes B version fs) = .ok p ∧
      p.takeEncoded p.count = .ok es ∧ Carries version fs es ∧
      (∀ n, p.count < n → p.yields Z n = upToError (es.map (decodeEncodedPayload Z))) ∧
      deltaBaseHashes (packBytes B version fs) = .ok (es.filterMap Entry.base?).eraseDups ∧
      ∀ b, chargeCompressedClaims (packBytes B version fs) (packBytes B version fs).length
        HEADER_LEN b = chargeAll (es.filterMap Entry.claim?) b := by
  obtain ⟨es, hes⟩ := exists_carries h.legal
  obtain ⟨first, hp⟩ := exists_new_packBytes B (by decide) h
  have hat : (PackEntries.start (packBytes B version fs) version fs first).At version [] fs :=
    PackEntries.at_start B first
  have hlen := fun f hf => (h.legal f hf).1
  exact ⟨_, es, hp, hat.takeEncoded hes hlen, hes, fun n hn => hat.yields Z hes hlen hn,
    deltaBaseHashes_packBytes B h hes, chargeCompressedClaims_packBytes B h hes⟩

/-- **The walkers agree.** A string is accepted and its entries can be read exactly when it is
a pack: a header of version 1 or 2, exactly as many frames as it counts, and the digest of
both, within the caps, every delta with room for its base. Then the entries read are what
stands in the frames, the iterator yields their decodings up to the first failure, and the
walks for the bases and for the claims take those of the same entries. -/
theorem walkers_agree (Z : Zstd) (bytes : Bytes) :
    ((∃ p es, PackEntries.new B bytes = .ok p ∧ p.takeEncoded p.count = .ok es) ↔
      ∃ version fs, WellFramed version fs ∧ (∀ f ∈ fs, f.HasBase) ∧
        bytes = packBytes B version fs) ∧
    ∀ version fs, WellFramed version fs → (∀ f ∈ fs, f.HasBase) →
      bytes = packBytes B version fs →
      ∃ p es, PackEntries.new B bytes = .ok p ∧ p.takeEncoded p.count = .ok es ∧
        Carries version fs es ∧
        (∀ n, p.count < n → p.yields Z n = upToError (es.map (decodeEncodedPayload Z))) ∧
        deltaBaseHashes bytes = .ok (es.filterMap Entry.base?).eraseDups ∧
        ∀ b, chargeCompressedClaims bytes bytes.length HEADER_LEN b =
          chargeAll (es.filterMap Entry.claim?) b := by
  refine ⟨⟨?_, ?_⟩, ?_⟩
  · rintro ⟨p, es, hp, -⟩
    obtain ⟨version, fs, -, h, hbytes, -⟩ := (newWithPayloadCap_eq_ok_iff B (by decide)).1 hp
    obtain ⟨hframed, hbase⟩ := legalPack_iff.1 h
    exact ⟨version, fs, hframed, hbase, hbytes⟩
  · rintro ⟨version, fs, hframed, hbase, rfl⟩
    obtain ⟨p, es, hp, htake, -⟩ := exists_readings B Z (legalPack_iff.2 ⟨hframed, hbase⟩)
    exact ⟨p, es, hp, htake⟩
  · rintro version fs hframed hbase rfl
    exact exists_readings B Z (legalPack_iff.2 ⟨hframed, hbase⟩)

end

/-- Two deltas over one base, one of them compressed, and a raw entry. -/
def twoDeltas : List Frame :=
  [{ etype := 0x04, payload := List.replicate 32 7 ++ leBytes 4 900 },
    { etype := 0x00, payload := [1] }, { etype := 0x02, payload := List.replicate 32 7 }]

/-- In a pack of two deltas over one base the base is found once and the claim is charged. -/
theorem walkers_agree_twoDeltas : ∃ es, Carries VERSION_V2 twoDeltas es ∧
      (es.filterMap Entry.base?).eraseDups = [ByteArr.fill 32 7] ∧
      es.filterMap Entry.claim? = [900] := by
  have hframed : WellFramed VERSION_V2 twoDeltas :=
    { version_eq := .inr rfl
      length_le := by decide
      typed := by
        intro f hf
        simp only [twoDeltas, List.mem_cons, List.not_mem_nil, or_false] at hf
        rcases hf with rfl | rfl | rfl
        · exact ⟨by decide, .inr (.inr ⟨rfl, .inr rfl⟩)⟩
        · exact ⟨by decide, .inl rfl⟩
        · exact ⟨by decide, .inr (.inl rfl)⟩
      payload_le := by decide }
  have hbase : ∀ f ∈ twoDeltas, f.HasBase := by
    intro f hf
    simp only [twoDeltas, List.mem_cons, List.not_mem_nil, or_false] at hf
    rcases hf with rfl | rfl | rfl
    · exact fun _ => by decide
    · exact fun h => absurd h (by decide)
    · exact fun _ => by decide
  obtain ⟨_, es, _, _, hes, _, hbases, _⟩ :=
    (walkers_agree toyBlake3 Zstd.unavailable _).2 VERSION_V2 twoDeltas hframed hbase rfl
  have hscan : deltaBaseHashes (packBytes toyBlake3 VERSION_V2 twoDeltas) =
      .ok [ByteArr.fill 32 7] := by decide +kernel
  refine ⟨es, hes, Except.ok.inj (hbases.symm.trans hscan), ?_⟩
  rw [← hes.claims]
  decide

/-- The frame of a delta that is too short for its base. -/
def shortDelta : Frame := { etype := 0x02, payload := [] }

/-- A delta without room for its base is refused, although its type byte and its length are
those of a pack. -/
theorem short_delta_refused : ¬ ∀ bytes, (∃ p es, PackEntries.new toyBlake3 bytes = .ok p ∧
        p.takeEncoded p.count = .ok es) ↔
      ∃ version fs, WellFramed version fs ∧ bytes = packBytes toyBlake3 version fs := by
  intro hall
  have hframed : WellFramed VERSION [shortDelta] :=
    { version_eq := .inl rfl
      length_le := by decide
      typed := fun f hf => by
        rw [List.mem_singleton.1 hf]
        exact ⟨by decide, .inr (.inl rfl)⟩
      payload_le := by decide }
  have hnew : PackEntries.new toyBlake3 (packBytes toyBlake3 VERSION [shortDelta]) =
      .error .deltaEntryTruncated := rfl
  obtain ⟨p, es, hp, -⟩ := (hall _).2 ⟨VERSION, [shortDelta], hframed, rfl⟩
  rw [hnew] at hp
  cases hp

end Mkit.Pack
