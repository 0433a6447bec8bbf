import Mkit.Object

/-!
# Shard Manifests

A pack can be cut into Reed-Solomon shards (`pack_shard.rs`). The manifest that goes with them
has the digest of the pack, the two shard counts, the commitment of the code and the digest of
every shard. The code itself is a library; it takes any two counts whose sum fits a `u16`.

## Main results

* `manifest_round_trip_iff` — the manifest of an encoded pack is read back exactly when there
  are at most 32765 shards: a longer manifest exceeds the decoder's bound, which the encoder
  does not have. What the decoder accepts is what the encoder writes.
-/

namespace Mkit.PackShard

open Wire

/-- `MKSH`. -/
def MANIFEST_MAGIC : Bytes := ascii ['M', 'K', 'S', 'H']

def MANIFEST_VERSION : UInt8 := 0x02

/-- Magic and version. -/
def MANIFEST_PROLOGUE_LEN : ℕ := 5

/-- Longest manifest that is decoded, 1 MiB. -/
def MANIFEST_MAX_BYTES : ℕ := 1024 * 1024

/-- Failures of the shard codec. -/
inductive ShardError where
  | encodeFailed (message : String)
  | manifestShardCountMismatch (actual expected : ℕ)
  | invalidManifestPrologue (what : String)
  | manifestUnexpectedEof
  | manifestTrailingBytes
  | manifestZeroShardCount (minimum extra : UInt16)
  | manifestTooLarge (actual max : ℕ)
deriving DecidableEq

/-- The two shard counts, neither of them zero. -/
structure Config where
  minimum_shards : UInt16
  extra_shards : UInt16
  minimum_ne : minimum_shards ≠ 0
  extra_ne : extra_shards ≠ 0
deriving DecidableEq

/-- All shards. -/
def Config.totalShards (c : Config) : ℕ :=
  c.minimum_shards.toNat + c.extra_shards.toNat

/-- Both counts as non-zero numbers. -/
def Config.new (minimum extra : UInt16) : Except ShardError Config :=
  if h : minimum ≠ 0 ∧ extra ≠ 0 then .ok ⟨minimum, extra, h.1, h.2⟩
  else .error (.manifestZeroShardCount minimum extra)

/-- A shard: its index and the codec form of its chunk. -/
structure Shard where
  index : UInt16
  bytes : Bytes

/-- The manifest. -/
structure ShardSet where
  pack_hash : Hash
  config : Config
  shard_hashes : List Hash
  commitment : Hash
deriving DecidableEq

/-! ### Encoding packs -/

/-- The Reed-Solomon code: commitment and chunks of a pack, and the codec form of a chunk. -/
structure RsScheme where
  Chunk : Type
  encode : Config → Bytes → Except String (Hash × List Chunk)
  encodeChunk : Chunk → Bytes

/-- One chunk for every shard. -/
def RsScheme.CountsShards (S : RsScheme) : Prop :=
  ∀ config pack commitment chunks, S.encode config pack = .ok (commitment, chunks) →
    chunks.length = config.totalShards

/-- Encode a pack into shards and their manifest. The strategy only decides which thread hashes
which shard. -/
def encodePackToShards (S : RsScheme) (B : Blake3) (pack : Bytes) (config : Config) :
    Except ShardError (List Shard × ShardSet) := do
  let (commitment, chunks) ← (S.encode config pack).mapError .encodeFailed
  let results := chunks.zipIdx.map fun (chunk, i) =>
    let bytes := S.encodeChunk chunk
    (UInt16.ofNat i, bytes, B.hash bytes)
  .ok (results.map fun r => ⟨r.1, r.2.1⟩,
    { pack_hash := B.hash pack, config, shard_hashes := results.map fun r => r.2.2, commitment })

/-! ### The manifest codec -/

/-- What stands behind the prologue. -/
def ShardSet.fields (m : ShardSet) : Bytes :=
  m.pack_hash.bytes ++ (leBytes 2 m.config.minimum_shards.toNat ++
    (leBytes 2 m.config.extra_shards.toNat ++ (m.commitment.bytes ++
      (leBytes 4 m.config.totalShards ++ m.shard_hashes.flatMap ByteArr.bytes))))

/-- The bytes of a manifest. -/
def ShardSet.wire (m : ShardSet) : Bytes :=
  MANIFEST_MAGIC ++ ([MANIFEST_VERSION] ++ m.fields)

/-- Encode a manifest whose digests are as many as its counts say. -/
def encodeManifest (m : ShardSet) : Except ShardError Bytes :=
  if m.shard_hashes.length ≠ m.config.totalShards then
    .error (.manifestShardCountMismatch m.shard_hashes.length m.config.totalShards)
  else .ok m.wire

/-- Read the digests at the end of a manifest; impossible counts are refused first. -/
def readShardHashes (n : ℕ) : Parser ShardError (List Hash) := do
  need .manifestUnexpectedEof (n * HASH_LEN)
  repeatWith (fun _ => ByteArr.read .manifestUnexpectedEof HASH_LEN) n []

/-- Read what stands behind the prologue. -/
def readFields : Parser ShardError ShardSet := do
  let pack_hash ← ByteArr.read .manifestUnexpectedEof HASH_LEN
  let minimum ← word .manifestUnexpectedEof 2 UInt16.ofNat
  let extra ← word .manifestUnexpectedEof 2 UInt16.ofNat
  let config ← accept (Config.new minimum extra)
  let commitment ← ByteArr.read .manifestUnexpectedEof HASH_LEN
  let declared_len ← word .manifestUnexpectedEof 4 UInt32.ofNat
  if declared_len.toNat ≠ config.totalShards then
    throw (.manifestShardCountMismatch declared_len.toNat config.totalShards)
  else do
    let shard_hashes ← readShardHashes declared_len.toNat
    pure { pack_hash, config, shard_hashes, commitment }

/-- Read a manifest of any length. -/
def readManifest : Parser ShardError ShardSet := do
  need (.invalidManifestPrologue "input shorter than prologue") MANIFEST_PROLOGUE_LEN
  let magic ← take .manifestUnexpectedEof 4
  if magic ≠ MANIFEST_MAGIC then throw (.invalidManifestPrologue "bad magic")
  else do
    let version ← byte .manifestUnexpectedEof
    if version ≠ MANIFEST_VERSION then
      throw (.invalidManifestPrologue (if version = 0x01 then
        "manifest version 0x01 (Sha256-era) — re-shard with a current mkit"
        else "unsupported version"))
    else readFields

/-- Decode a manifest. -/
def decodeManifest (bytes : Bytes) : Except ShardError ShardSet :=
  if MANIFEST_MAX_BYTES < bytes.length then
    .error (.manifestTooLarge bytes.length MANIFEST_MAX_BYTES)
  else do
    let (m, rest) ← readManifest bytes
    if rest ≠ [] then .error .manifestTrailingBytes else .ok m

/-! ### The codec is exact -/

/-- As many digests as the counts say. -/
def ShardSet.Counted (m : ShardSet) : Prop :=
  m.shard_hashes.length = m.config.totalShards

theorem Config.totalShards_lt (c : Config) : c.totalShards < 2 ^ 32 := by
  have h₁ := c.minimum_shards.toNat_lt
  have h₂ := c.extra_shards.toNat_lt
  rw [Config.totalShards]
  omega

theorem Config.new_eq_ok_iff {minimum extra : UInt16} {c : Config} :
    Config.new minimum extra = .ok c ↔ minimum = c.minimum_shards ∧ extra = c.extra_shards := by
  rw [Config.new]
  constructor
  · intro h
    split_ifs at h
    rw [← Except.ok.inj h]
    exact ⟨rfl, rfl⟩
  · rintro ⟨rfl, rfl⟩
    exact dif_pos ⟨c.minimum_ne, c.extra_ne⟩

theorem ShardSet.length_wire {m : ShardSet} (h : m.Counted) :
    m.wire.length = 77 + 32 * m.config.totalShards := by
  have hmagic : MANIFEST_MAGIC.length = 4 := rfl
  have hhash : HASH_LEN = 32 := rfl
  rw [ShardSet.Counted] at h
  rw [ShardSet.wire, ShardSet.fields]
  simp only [List.length_append, ByteArr.length_bytes, length_leBytes, length_flatMap_bytes,
    List.length_singleton, hmagic, h]
  omega

theorem parses_readShardHashes (n : ℕ) :
    Parses (readShardHashes n) (fun l bs => l.length = n ∧ bs = l.flatMap ByteArr.bytes) := by
  have hread : ∀ _ : List Hash, Parses (ByteArr.read ShardError.manifestUnexpectedEof HASH_LEN)
      (fun a bs => True ∧ bs = a.bytes) :=
    fun _ => (ByteArr.parses_read _ _).congr fun a bs => by rw [true_and]
  have hloop := (Parses.repeatWith hread n []).congr fun l bs => show _ ↔
      l.length = n ∧ bs = l.flatMap ByteArr.bytes by
    rw [← encodes_flatMap]
    simp [admits_true]
  refine hloop.ahead ?_
  rintro l bs ⟨rfl, rfl⟩
  exact (length_flatMap_bytes l).ge

theorem parses_readFields : Parses readFields (fun m bs => m.Counted ∧ bs = m.fields) := by
  have hread : Parses (ByteArr.read ShardError.manifestUnexpectedEof HASH_LEN)
      (fun a bs => bs = a.bytes) := ByteArr.parses_read _ _
  refine (hread.bind fun pack_hash => (Parses.word16 _).bind fun minimum =>
    (Parses.word16 _).bind fun extra => (Parses.accept _).bind fun config =>
    hread.bind fun commitment => (Parses.word32 _).bind fun declared =>
    ((parses_readShardHashes declared.toNat).bind fun hashes => Parses.pure _).check).congr
    fun m bs => ?_
  constructor
  · rintro ⟨pack_hash, _, _, rfl, ⟨minimum, _, _, rfl, ⟨extra, _, _, rfl, ⟨config, _, _,
      ⟨hconfig, rfl⟩, ⟨commitment, _, _, rfl, ⟨declared, _, _, rfl, ⟨hdeclared, hashes, _, _,
      ⟨hlen, rfl⟩, ⟨rfl, rfl⟩, rfl⟩, rfl⟩, rfl⟩, rfl⟩, rfl⟩, rfl⟩, rfl⟩
    obtain ⟨rfl, rfl⟩ := Config.new_eq_ok_iff.1 hconfig
    have htotal := not_not.1 hdeclared
    refine ⟨hlen.trans htotal, ?_⟩
    rw [ShardSet.fields, ← htotal, List.append_nil, List.nil_append]
  · rintro ⟨hcounted, rfl⟩
    have hdeclared : (UInt32.ofNat m.config.totalShards).toNat = m.config.totalShards := by
      rw [UInt32.toNat_ofNat']
      exact Nat.mod_eq_of_lt m.config.totalShards_lt
    exact ⟨m.pack_hash, _, _, rfl, ⟨m.config.minimum_shards, _, _, rfl,
      ⟨m.config.extra_shards, _, _, rfl, ⟨m.config, _, _, ⟨Config.new_eq_ok_iff.2 ⟨rfl, rfl⟩, rfl⟩,
      ⟨m.commitment, _, _, rfl, ⟨UInt32.ofNat m.config.totalShards, _, _, rfl,
      ⟨not_not.2 hdeclared, m.shard_hashes, _, _, ⟨hcounted.trans hdeclared.symm, rfl⟩,
      ⟨rfl, rfl⟩, rfl⟩, rfl⟩, rfl⟩, rfl⟩, rfl⟩, rfl⟩, by
        rw [ShardSet.fields, hdeclared, List.append_nil, List.nil_append]⟩

/-- The reader reads exactly what the writer writes. -/
theorem parses_readManifest : Parses readManifest (fun m bs => m.Counted ∧ bs = m.wire) := by
  have hmanifest := ((Parses.take ShardError.manifestUnexpectedEof 4).bind fun magic =>
    Parses.check (e := .invalidManifestPrologue "bad magic") (c := magic ≠ MANIFEST_MAGIC)
      ((Parses.byte ShardError.manifestUnexpectedEof).bind fun version =>
        Parses.check (e := .invalidManifestPrologue (if version = 0x01 then
          "manifest version 0x01 (Sha256-era) — re-shard with a current mkit"
          else "unsupported version")) (c := version ≠ MANIFEST_VERSION)
            parses_readFields)).congr fun m bs => show _ ↔ m.Counted ∧ bs = m.wire by
    constructor
    · rintro ⟨magic, _, _, ⟨rfl, -⟩, ⟨hmagic, version, _, _, rfl, ⟨hversion, hcounted, rfl⟩, rfl⟩,
        rfl⟩
      rw [ShardSet.wire, not_not.1 hmagic, not_not.1 hversion]
      exact ⟨hcounted, rfl⟩
    · rintro ⟨hcounted, rfl⟩
      exact ⟨MANIFEST_MAGIC, _, _, ⟨rfl, rfl⟩, ⟨not_not.2 rfl, MANIFEST_VERSION, _, _, rfl,
        ⟨not_not.2 rfl, hcounted, rfl⟩, rfl⟩, rfl⟩
  refine hmanifest.ahead ?_
  rintro m bs ⟨-, rfl⟩
  have hmagic : MANIFEST_MAGIC.length = 4 := rfl
  rw [ShardSet.wire, List.length_append, List.length_append, hmagic, List.length_singleton,
    MANIFEST_PROLOGUE_LEN]
  omega

theorem encodeManifest_eq_ok_iff {b : Bytes} {m : ShardSet} :
    encodeManifest m = .ok b ↔ m.Counted ∧ b = m.wire := by
  rw [encodeManifest, ShardSet.Counted]
  by_cases hcounted : m.shard_hashes.length = m.config.totalShards
  · simp [hcounted, eq_comm]
  · simp [hcounted]

/-- A manifest is accepted exactly when it is what the encoder writes, and not too long. -/
theorem decodeManifest_eq_ok_iff {b : Bytes} {m : ShardSet} :
    decodeManifest b = .ok m ↔ b.length ≤ MANIFEST_MAX_BYTES ∧ encodeManifest m = .ok b := by
  rw [decodeManifest, encodeManifest_eq_ok_iff]
  by_cases hlong : MANIFEST_MAX_BYTES < b.length
  · rw [if_pos hlong]
    exact iff_of_false nofun fun h => absurd h.1 (not_le.2 hlong)
  rw [if_neg hlong, bind_eq_ok]
  constructor
  · rintro ⟨⟨m', rest⟩, hread, h⟩
    dsimp only at h
    split_ifs at h with hrest
    obtain rfl := not_not.1 hrest
    obtain rfl := Except.ok.inj h
    obtain ⟨bs, hbs, rfl⟩ := (parses_readManifest _ _ _).1 hread
    rw [List.append_nil] at hlong ⊢
    exact ⟨not_lt.1 hlong, hbs⟩
  · rintro ⟨-, hm⟩
    exact ⟨(m, []), (parses_readManifest _ _ _).2 ⟨b, hm, (List.append_nil b).symm⟩, rfl⟩

/-! ### The manifests of encoded packs -/

/-- The manifest of an encoded pack has a digest for every shard. -/
theorem counted_of_encodePackToShards {S : RsScheme} (hS : S.CountsShards) {B : Blake3}
    {pack : Bytes} {config : Config} {shards : List Shard} {m : ShardSet}
    (h : encodePackToShards S B pack config = .ok (shards, m)) : m.config = config ∧ m.Counted := by
  rw [encodePackToShards, bind_eq_ok] at h
  obtain ⟨⟨commitment, chunks⟩, hencode, h⟩ := h
  have hlen := hS _ _ _ _ (mapError_eq_ok.1 hencode)
  obtain ⟨-, rfl⟩ := Prod.mk.inj (Except.ok.inj h)
  refine ⟨rfl, ?_⟩
  simp only [ShardSet.Counted, List.length_map, List.length_zipIdx, hlen]

/-- **The manifest codec.** The manifest of a pack is read back exactly when there are at most
32765 shards, and whatever is read is what the encoder writes for it. -/
theorem manifest_round_trip_iff (S : RsScheme) (hS : S.CountsShards) (B : Blake3) :
    (∀ pack config shards m, encodePackToShards S B pack config = .ok (shards, m) →
      ((∃ b, encodeManifest m = .ok b ∧ decodeManifest b = .ok m) ↔
        config.totalShards ≤ 32765)) ∧
    ∀ b m, decodeManifest b = .ok m → encodeManifest m = .ok b := by
  refine ⟨fun pack config shards m h => ?_, fun b m h => (decodeManifest_eq_ok_iff.1 h).2⟩
  obtain ⟨rfl, hcounted⟩ := counted_of_encodePackToShards hS h
  have hencode : encodeManifest m = .ok m.wire := encodeManifest_eq_ok_iff.2 ⟨hcounted, rfl⟩
  have hfits : m.wire.length ≤ MANIFEST_MAX_BYTES ↔ m.config.totalShards ≤ 32765 := by
    rw [ShardSet.length_wire hcounted, MANIFEST_MAX_BYTES]
    omega
  rw [← hfits]
  constructor
  · rintro ⟨b, hb, hdecode⟩
    obtain rfl := Except.ok.inj (hencode.symm.trans hb)
    exact (decodeManifest_eq_ok_iff.1 hdecode).1
  · intro hlen
    exact ⟨m.wire, hencode, decodeManifest_eq_ok_iff.2 ⟨hlen, hencode⟩⟩

/-- A scheme that puts no more than the index into a chunk. -/
def indexScheme : RsScheme where
  Chunk := ℕ
  encode config _ :=
    if 2 ^ 16 ≤ config.totalShards then .error "TooManyTotalShards"
    else .ok (ZERO, List.range config.totalShards)
  encodeChunk i := leBytes 2 i

theorem indexScheme_countsShards : indexScheme.CountsShards := by
  intro config pack commitment chunks h
  simp only [indexScheme] at h
  split_ifs at h
  obtain ⟨-, rfl⟩ := Prod.mk.inj (Except.ok.inj h)
  exact List.length_range

theorem indexScheme_encode {config : Config} (h : config.totalShards < 2 ^ 16) (pack : Bytes) :
    indexScheme.encode config pack = .ok (ZERO, List.range config.totalShards) := by
  simp only [indexScheme]
  exact if_neg (not_le.2 h)

/-- A configuration with these counts. -/
def sampleConfig (minimum extra : UInt16) (h : minimum ≠ 0 ∧ extra ≠ 0) : Config :=
  ⟨minimum, extra, h.1, h.2⟩

/-- With the default counts, 16 and 4, the manifest is read back. -/
theorem manifest_round_trip_default : ∃ shards m, encodePackToShards indexScheme toyBlake3 [1]
        (sampleConfig 16 4 (by decide)) = .ok (shards, m) ∧
      ∃ b, encodeManifest m = .ok b ∧ decodeManifest b = .ok m :=
  ⟨_, _, rfl, ((manifest_round_trip_iff indexScheme indexScheme_countsShards toyBlake3).1 [1]
    (sampleConfig 16 4 (by decide)) _ _ rfl).2 (by decide)⟩

/-- 32766 shards are encoded, and their manifest is too long for the decoder. -/
theorem manifest_too_long :
    ¬ ∀ (S : RsScheme), S.CountsShards → ∀ (B : Blake3) pack config shards m,
      encodePackToShards S B pack config = .ok (shards, m) →
        ∃ b, encodeManifest m = .ok b ∧ decodeManifest b = .ok m := by
  intro hall
  set config := sampleConfig 32765 1 (by decide)
  have htotal : config.totalShards = 32766 := rfl
  obtain ⟨shards, m, hm⟩ : ∃ shards m,
      encodePackToShards indexScheme toyBlake3 [] config = .ok (shards, m) := by
    rw [encodePackToShards, indexScheme_encode (by omega)]
    exact ⟨_, _, rfl⟩
  obtain ⟨b, hb, hdecode⟩ := hall indexScheme indexScheme_countsShards toyBlake3 _ _ _ _ hm
  obtain ⟨hconf, hcounted⟩ := counted_of_encodePackToShards indexScheme_countsShards hm
  have hlen := (decodeManifest_eq_ok_iff.1 hdecode).1
  rw [(encodeManifest_eq_ok_iff.1 hb).2, ShardSet.length_wire hcounted, hconf, htotal,
    MANIFEST_MAX_BYTES] at hlen
  omega

end Mkit.PackShard
