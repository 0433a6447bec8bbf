import Mathlib.Data.Finset.Insert
import Mkit.AncestryState
import Mkit.Store

/-!
# First-Parent Ancestry

The chain of first parents from the genesis of a branch to its tip, and the snapshot files
that keep it between publications. A publication either walks the whole chain from the
objects or splices the new commits onto the chain of the last snapshot; `decideChain` chooses.

The root of the Merkle mountain belt over a chain comes from a library outside the
repository. It enters as the parameter `mmb`, a function of the chain that may fail.
-/

namespace Mkit

open Wire

/-- Bound on graph walking and on persisted leaves. -/
def MAX_ANCESTRY_LEAVES : ℕ := 1000000

/-- Longest snapshot file that is read. -/
def MAX_SNAPSHOT_BYTES : ℕ := MAX_ANCESTRY_LEAVES * 32 + 8192

/-- Failures of history publication. `panicked` stands for an `expect` that does not hold. -/
inductive HistoryError where
  | corrupted (what : String)
  | invalidBranch (fullRef : Bytes)
  | ref (e : RefError)
  | store (e : StoreError)
  | mmb (what : String)
  | io
  | panicked
deriving DecidableEq

/-- What a snapshot is about. -/
structure AncestryDescriptor where
  repository : Hash
  fullRef : Bytes
  generation : Hash
  tip : Hash
  leafCount : UInt64
  root : Hash
deriving DecidableEq

/-- A chain of first parents, oldest first, with its descriptor. -/
structure AncestrySnapshot where
  descriptor : AncestryDescriptor
  chain : List Hash
deriving DecidableEq

/-- The magic of a snapshot file, `MKHA\x01`. -/
def SNAPSHOT_MAGIC : Bytes := ascii ['M', 'K', 'H', 'A'] ++ [0x01]

/-- Size of a descriptor up to the ref name. -/
def DESCRIPTOR_HEADER_LEN : ℕ := 143

/-- The longest descriptor. -/
def DESCRIPTOR_HEADER_MAX_LEN : ℕ := DESCRIPTOR_HEADER_LEN + 65535

/-- The error of every malformed snapshot. -/
def descriptorHeaderInvalid : HistoryError :=
  .corrupted "malformed ancestry snapshot"

def missingSnapshot : HistoryError :=
  .corrupted "missing ancestry generation snapshot"

def generationMismatch : HistoryError :=
  .corrupted "ancestry generation mismatch"

section Snapshots

variable (B : Blake3) (mmb : List Hash → Except HistoryError Hash)

/-- Build the snapshot of a chain. -/
def AncestrySnapshot.build (repository : Hash) (fullRef : Bytes) (generation : Hash)
    (chain : List Hash) : Except HistoryError AncestrySnapshot :=
  match chain.getLast? with
  | none => .error (.corrupted "invalid ancestry leaf count")
  | some tip =>
    if chain.length > MAX_ANCESTRY_LEAVES then
      .error (.corrupted "invalid ancestry leaf count")
    else do
      let root ← mmb chain
      pure ⟨⟨repository, fullRef, generation, tip, UInt64.ofNat chain.length, root⟩, chain⟩

/-- The descriptor as it stands at the front of a snapshot file. -/
def AncestryDescriptor.header (d : AncestryDescriptor) : Bytes :=
  SNAPSHOT_MAGIC ++ (d.repository.bytes ++ (d.generation.bytes ++ (d.tip.bytes ++
    (leBytes 8 d.leafCount.toNat ++ (d.root.bytes ++ (leBytes 2 d.fullRef.length ++
      d.fullRef))))))

/-- The bytes the checksum covers. -/
def AncestrySnapshot.payload (s : AncestrySnapshot) : Bytes :=
  s.descriptor.header ++ s.chain.flatMap ByteArr.bytes

/-- The snapshot file. -/
def AncestrySnapshot.encode (s : AncestrySnapshot) : Except HistoryError Bytes :=
  if s.descriptor.fullRef.length < 2 ^ 16 then
    .ok (s.payload ++ (B.hash s.payload).bytes)
  else .error (.invalidBranch s.descriptor.fullRef)

/-- Parse the descriptor at the front of a snapshot file. -/
def parseDescriptorHeader : Parser HistoryError AncestryDescriptor := do
  let magic ← take descriptorHeaderInvalid 5
  if magic ≠ SNAPSHOT_MAGIC then throw descriptorHeaderInvalid
  else do
    let repository ← ByteArr.read descriptorHeaderInvalid HASH_LEN
    let generation ← ByteArr.read descriptorHeaderInvalid HASH_LEN
    let tip ← ByteArr.read descriptorHeaderInvalid HASH_LEN
    let count ← word descriptorHeaderInvalid 8 UInt64.ofNat
    let root ← ByteArr.read descriptorHeaderInvalid HASH_LEN
    let nameLen ← word descriptorHeaderInvalid 2 UInt16.ofNat
    let fullRef ← take descriptorHeaderInvalid nameLen.toNat
    if ¬ BRANCH_REF_PREFIX <+: fullRef ∨ validateRefNameGrammar fullRef = false ∨
        count = 0 ∨ count.toNat > MAX_ANCESTRY_LEAVES then
      throw descriptorHeaderInvalid
    else pure ⟨repository, fullRef, generation, tip, count, root⟩

/-- Cut `n` digests off a byte string. -/
def chunksExact : ℕ → Bytes → List Hash
  | 0, _ => []
  | n + 1, bs => ByteArr.pad HASH_LEN bs :: chunksExact n (bs.drop HASH_LEN)

/-- Check a snapshot file and take it apart. -/
def decodeDescriptorAndChain (bytes : Bytes) :
    Except HistoryError (AncestryDescriptor × List Hash) :=
  if bytes.length < DESCRIPTOR_HEADER_LEN + 32 ∨ bytes.length > MAX_SNAPSHOT_BYTES then
    .error descriptorHeaderInvalid
  else
    let payload := bytes.take (bytes.length - 32)
    let checksum := bytes.drop (bytes.length - 32)
    if (B.hash payload).bytes ≠ checksum then .error descriptorHeaderInvalid
    else do
      let (descriptor, input) ← parseDescriptorHeader payload
      if input.length ≠ descriptor.leafCount.toNat * 32 then .error descriptorHeaderInvalid
      else pure (descriptor, chunksExact descriptor.leafCount.toNat input)

/-- Decode a snapshot file, rebuilding its root. -/
def AncestrySnapshot.decode (bytes : Bytes) : Except HistoryError AncestrySnapshot := do
  let (claimed, chain) ← decodeDescriptorAndChain B bytes
  let snapshot ← AncestrySnapshot.build mmb claimed.repository claimed.fullRef
    claimed.generation chain
  if snapshot.descriptor.tip ≠ claimed.tip ∨ snapshot.descriptor.root ≠ claimed.root then
    throw descriptorHeaderInvalid
  else pure snapshot

end Snapshots

/-! ### The files of a branch -/

/-- The durable files of one branch, with the repository identity they refer to. -/
structure BranchFiles where
  /-- `history-v1/repository-id`. -/
  repositoryId : Option Bytes
  /-- The ref itself. -/
  ref : Option Bytes
  /-- The pending intent. -/
  transaction : Option Bytes
  /-- The snapshot about to be published. -/
  pendingSnapshot : Option Bytes
  /-- The published snapshots, by generation. -/
  generations : Hash → Option Bytes
  /-- The pointer to the current generation. -/
  current : Option Bytes
  /-- The advisory scrub progress. -/
  scrub : Option Bytes

section Files

variable (B : Blake3) (mmb : List Hash → Except HistoryError Hash) (d : BranchFiles)

/-- The value of the ref. -/
def BranchFiles.tip (br : Branch) : Except RefError (Option Hash) :=
  match d.ref with
  | none => .ok none
  | some bytes =>
    match decodeRefWire bytes with
    | some h => .ok (some h)
    | none => .error (.invalidRef br.name)

/-- Does the ref meet a write condition? -/
def BranchFiles.check (br : Branch) (condition : RefWriteCondition) : Except RefError Unit := do
  let ok ← match condition with
    | .any => pure true
    | .missing => pure d.ref.isNone
    | .matching expected => (fun tip => decide (tip = some expected)) <$> d.tip br
  if ok then pure () else throw (.conflict br.name)

/-- The identity of the repository, if it has one. -/
def BranchFiles.readRepositoryId : Except HistoryError (Option Hash) := do
  match ← readBounded .io d.repositoryId 65 with
  | none => pure none
  | some bytes =>
    match decodeRefWire bytes with
    | some h => pure (some h)
    | none => throw (.corrupted "malformed history repository identity")

/-- The generation the current pointer names. -/
def BranchFiles.currentGeneration : Except HistoryError (Option Hash) := do
  match ← readBounded .io d.current 65 with
  | none => pure none
  | some bytes =>
    match decodeRefWire bytes with
    | some h => pure (some h)
    | none => throw (.corrupted "malformed history generation pointer")

/-- The current snapshot, checked and with its root rebuilt. -/
def BranchFiles.readCurrent : Except HistoryError (Option AncestrySnapshot) := do
  match ← d.currentGeneration with
  | none => pure none
  | some generation =>
    match ← readBounded .io (d.generations generation) MAX_SNAPSHOT_BYTES with
    | none => throw missingSnapshot
    | some raw =>
      let snapshot ← AncestrySnapshot.decode B mmb raw
      if snapshot.descriptor.generation ≠ generation then throw generationMismatch
      else pure (some snapshot)

/-- The descriptor of the current snapshot: only the front of the file is read, and its
checksum is not verified. -/
def BranchFiles.readCurrentDescriptor : Except HistoryError (Option AncestryDescriptor) := do
  match ← d.currentGeneration with
  | none => pure none
  | some generation =>
    match d.generations generation with
    | none => throw missingSnapshot
    | some file =>
      let (descriptor, _) ← parseDescriptorHeader (file.take DESCRIPTOR_HEADER_MAX_LEN)
      if descriptor.generation ≠ generation then throw generationMismatch
      else pure (some descriptor)

/-- The chain of a generation's snapshot, checksum verified. -/
def BranchFiles.readSnapshotChain (generation : Hash) : Except HistoryError (List Hash) := do
  match ← readBounded .io (d.generations generation) MAX_SNAPSHOT_BYTES with
  | none => throw missingSnapshot
  | some raw =>
    let (descriptor, chain) ← decodeDescriptorAndChain B raw
    if descriptor.generation ≠ generation then throw generationMismatch
    else pure chain

end Files

/-! ### The snapshot codec -/

section Codec

variable {B : Blake3} {mmb : List Hash → Except HistoryError Hash}

/-- The fields a descriptor is accepted with. -/
def AncestryDescriptor.Acceptable (d : AncestryDescriptor) : Prop :=
  d.fullRef.length < 2 ^ 16 ∧ BRANCH_REF_PREFIX <+: d.fullRef ∧
    validateRefNameGrammar d.fullRef = true ∧ d.leafCount ≠ 0 ∧
    d.leafCount.toNat ≤ MAX_ANCESTRY_LEAVES

/-- The header parser reads exactly the headers of acceptable descriptors. -/
theorem parses_parseDescriptorHeader :
    Parses parseDescriptorHeader (fun d bs => d.Acceptable ∧ bs = d.header) := by
  have hread : Parses (ByteArr.read descriptorHeaderInvalid HASH_LEN)
      (fun a bs => bs = a.bytes) := ByteArr.parses_read _ _
  refine ((Parses.take _ 5).bind fun magic => Parses.check (hread.bind fun repository =>
    hread.bind fun generation => hread.bind fun tip => (Parses.word64 _).bind fun count =>
    hread.bind fun root => (Parses.word16 _).bind fun nameLen => (Parses.take _ _).bind
      fun fullRef => Parses.check (Parses.pure _))).congr fun d bs => ?_
  constructor
  · rintro ⟨magic, _, _, ⟨rfl, -⟩, ⟨hmagic, repository, _, _, rfl, ⟨generation, _, _, rfl,
      ⟨tip, _, _, rfl, ⟨count, _, _, rfl, ⟨root, _, _, rfl, ⟨nameLen, _, _, rfl,
      ⟨fullRef, _, _, ⟨rfl, hlen⟩, ⟨hok, rfl, rfl⟩, rfl⟩, rfl⟩, rfl⟩, rfl⟩, rfl⟩, rfl⟩, rfl⟩, rfl⟩
    obtain rfl := not_not.1 hmagic
    simp only [not_or, not_not, Bool.not_eq_false, not_lt, gt_iff_lt] at hok
    have hname : fullRef.length < 2 ^ 16 := hlen ▸ nameLen.toNat_lt
    refine ⟨⟨hname, hok.1, hok.2.1, hok.2.2.1, hok.2.2.2⟩, ?_⟩
    rw [AncestryDescriptor.header, ← hlen, List.append_nil]
  · rintro ⟨⟨hname, hpre, hgram, hzero, hmax⟩, rfl⟩
    have hlen : (UInt16.ofNat d.fullRef.length).toNat = d.fullRef.length := by
      rw [UInt16.toNat_ofNat']
      exact Nat.mod_eq_of_lt hname
    have hok : ¬ (¬ BRANCH_REF_PREFIX <+: d.fullRef ∨
        validateRefNameGrammar d.fullRef = false ∨ d.leafCount = 0 ∨
        d.leafCount.toNat > MAX_ANCESTRY_LEAVES) := by
      simp only [not_or, not_not, Bool.not_eq_false, not_lt, gt_iff_lt]
      exact ⟨hpre, hgram, hzero, hmax⟩
    exact ⟨SNAPSHOT_MAGIC, _, _, ⟨rfl, rfl⟩, ⟨not_not.2 rfl, d.repository, _, _, rfl,
      ⟨d.generation, _, _, rfl, ⟨d.tip, _, _, rfl, ⟨d.leafCount, _, _, rfl, ⟨d.root, _, _, rfl,
      ⟨UInt16.ofNat d.fullRef.length, _, _, rfl, ⟨d.fullRef, _, _, ⟨rfl, hlen.symm⟩,
      ⟨hok, rfl, rfl⟩, rfl⟩, rfl⟩, rfl⟩, rfl⟩, rfl⟩, rfl⟩, rfl⟩, by
        rw [AncestryDescriptor.header, hlen, List.append_nil]⟩

/-- A digest at the front of a byte string. -/
theorem pad_append (h : Hash) (rest : Bytes) : ByteArr.pad HASH_LEN (h.bytes ++ rest) = h := by
  refine ByteArr.ext ?_
  change (h.bytes ++ rest ++ _).take HASH_LEN = h.bytes
  rw [List.append_assoc]
  exact List.take_left' h.length_bytes

/-- Cutting a run of digests gives them back. -/
theorem chunksExact_flatMap (l : List Hash) :
    chunksExact l.length (l.flatMap ByteArr.bytes) = l := by
  induction l with
  | nil => rfl
  | cons h l ih =>
    rw [List.length_cons, List.flatMap_cons, chunksExact, pad_append,
      List.drop_left' h.length_bytes, ih]

theorem AncestryDescriptor.length_header (d : AncestryDescriptor) :
    d.header.length = DESCRIPTOR_HEADER_LEN + d.fullRef.length := by
  rw [AncestryDescriptor.header, DESCRIPTOR_HEADER_LEN]
  simp only [List.length_append, ByteArr.length_bytes, length_leBytes, HASH_LEN,
    show SNAPSHOT_MAGIC.length = 5 from rfl]
  omega

/-- The snapshots a branch publishes: about its ref, with their tip, count and root those of
the chain. -/
structure AncestrySnapshot.Wf (mmb : List Hash → Except HistoryError Hash) (br : Branch)
    (s : AncestrySnapshot) : Prop where
  fullRef : s.descriptor.fullRef = br.fullRef
  tip : s.chain.getLast? = some s.descriptor.tip
  length : s.chain.length ≤ MAX_ANCESTRY_LEAVES
  leafCount : s.descriptor.leafCount = UInt64.ofNat s.chain.length
  root : mmb s.chain = .ok s.descriptor.root

theorem AncestrySnapshot.build_eq_ok {repository generation : Hash} {fullRef : Bytes}
    {chain : List Hash} {s : AncestrySnapshot} :
    AncestrySnapshot.build mmb repository fullRef generation chain = .ok s ↔
      ∃ tip root, chain.getLast? = some tip ∧ chain.length ≤ MAX_ANCESTRY_LEAVES ∧
        mmb chain = .ok root ∧
        s = ⟨⟨repository, fullRef, generation, tip, UInt64.ofNat chain.length, root⟩, chain⟩ := by
  rw [AncestrySnapshot.build]
  cases chain.getLast? with
  | none => simp
  | some tip =>
    by_cases hlen : chain.length > MAX_ANCESTRY_LEAVES
    · simp [hlen, Nat.not_le.2 hlen]
    · cases mmb chain with
      | error e => simp [hlen, Bind.bind, Except.bind]
      | ok root =>
        simp [hlen, Nat.not_lt.1 hlen, Bind.bind, Except.bind, Pure.pure, Except.pure,
          eq_comm]

/-- What is built for a branch is one of its snapshots. -/
theorem AncestrySnapshot.wf_of_build {br : Branch} {repository generation : Hash}
    {chain : List Hash} {s : AncestrySnapshot}
    (h : AncestrySnapshot.build mmb repository br.fullRef generation chain = .ok s) :
    s.Wf mmb br ∧ s.descriptor.repository = repository ∧
      s.descriptor.generation = generation ∧ s.chain = chain ∧
      chain.getLast? = some s.descriptor.tip := by
  obtain ⟨tip, root, htip, hlen, hroot, rfl⟩ := AncestrySnapshot.build_eq_ok.1 h
  exact ⟨⟨rfl, htip, hlen, rfl, hroot⟩, rfl, rfl, rfl, htip⟩

section Wf

variable {br : Branch} {s : AncestrySnapshot}

theorem AncestrySnapshot.Wf.toNat_leafCount (h : s.Wf mmb br) :
    s.descriptor.leafCount.toNat = s.chain.length := by
  have hlen := h.length
  rw [MAX_ANCESTRY_LEAVES] at hlen
  rw [h.leafCount, UInt64.toNat_ofNat']
  exact Nat.mod_eq_of_lt (by omega)

theorem AncestrySnapshot.Wf.length_fullRef_lt (h : s.Wf mmb br) :
    s.descriptor.fullRef.length < 2 ^ 16 := by
  have := br.length_fullRef
  rw [h.fullRef]
  omega

theorem AncestrySnapshot.Wf.acceptable (h : s.Wf mmb br) : s.descriptor.Acceptable := by
  refine ⟨h.length_fullRef_lt, ?_, ?_, ?_, ?_⟩
  · rw [h.fullRef]
    exact List.prefix_append _ _
  · rw [h.fullRef]
    exact br.fullRef_grammar
  · intro hzero
    have hlen := h.toNat_leafCount
    rw [hzero] at hlen
    have hnil : s.chain = [] := List.eq_nil_of_length_eq_zero hlen.symm
    have htip := h.tip
    rw [hnil] at htip
    cases htip
  · rw [h.toNat_leafCount]
    exact h.length

/-- A branch's snapshot has a file. -/
theorem AncestrySnapshot.Wf.encode_eq (h : s.Wf mmb br) :
    s.encode B = .ok (s.payload ++ (B.hash s.payload).bytes) := by
  rw [AncestrySnapshot.encode, if_pos h.length_fullRef_lt]

/-- The front of a snapshot's file gives its descriptor. -/
theorem AncestrySnapshot.Wf.parse_header (h : s.Wf mmb br) (rest : Bytes) :
    ∃ rest', parseDescriptorHeader ((s.payload ++ rest).take DESCRIPTOR_HEADER_MAX_LEN) =
      .ok (s.descriptor, rest') := by
  have hle : s.descriptor.header.length ≤ DESCRIPTOR_HEADER_MAX_LEN := by
    have hname := h.length_fullRef_lt
    have hlen := s.descriptor.length_header
    have hmax : DESCRIPTOR_HEADER_MAX_LEN = DESCRIPTOR_HEADER_LEN + 65535 := rfl
    omega
  have hcut : ((s.descriptor.header ++ s.chain.flatMap ByteArr.bytes) ++ rest).take
      DESCRIPTOR_HEADER_MAX_LEN = s.descriptor.header ++ (s.chain.flatMap ByteArr.bytes ++
        rest).take (DESCRIPTOR_HEADER_MAX_LEN - s.descriptor.header.length) := by
    rw [List.append_assoc, List.take_append, List.take_of_length_le hle]
  rw [AncestrySnapshot.payload, hcut]
  exact ⟨_, (parses_parseDescriptorHeader _ s.descriptor _).2
    ⟨s.descriptor.header, ⟨h.acceptable, rfl⟩, rfl⟩⟩

/-- A snapshot's file decodes to its descriptor and chain. -/
theorem AncestrySnapshot.Wf.decode_payload (h : s.Wf mmb br) :
    decodeDescriptorAndChain B (s.payload ++ (B.hash s.payload).bytes) =
      .ok (s.descriptor, s.chain) := by
  have hsum : (B.hash s.payload).bytes.length = 32 := (B.hash s.payload).length_bytes
  have hlen : (s.payload ++ (B.hash s.payload).bytes).length = s.payload.length + 32 := by
    rw [List.length_append, hsum]
  have hpay : s.payload.length =
      DESCRIPTOR_HEADER_LEN + s.descriptor.fullRef.length + s.chain.length * 32 := by
    rw [AncestrySnapshot.payload, List.length_append, AncestryDescriptor.length_header,
      length_flatMap_bytes]
  have hparse : parseDescriptorHeader s.payload =
      .ok (s.descriptor, s.chain.flatMap ByteArr.bytes) :=
    (parses_parseDescriptorHeader s.payload s.descriptor _).2
      ⟨s.descriptor.header, ⟨h.acceptable, rfl⟩, rfl⟩
  have hbounds : ¬ ((s.payload ++ (B.hash s.payload).bytes).length < DESCRIPTOR_HEADER_LEN + 32 ∨
      (s.payload ++ (B.hash s.payload).bytes).length > MAX_SNAPSHOT_BYTES) := by
    have hname := br.length_fullRef
    have hchain := h.length
    rw [← h.fullRef] at hname
    have hmax : MAX_SNAPSHOT_BYTES = MAX_ANCESTRY_LEAVES * 32 + 8192 := rfl
    have hhead : DESCRIPTOR_HEADER_LEN = 143 := rfl
    omega
  rw [decodeDescriptorAndChain, if_neg hbounds, hlen, Nat.add_sub_cancel,
    List.take_left' rfl, List.drop_left' rfl]
  rw [if_neg (not_not.2 rfl), hparse]
  simp only [Bind.bind, Except.bind, length_flatMap_bytes, h.toNat_leafCount,
    chunksExact_flatMap, ne_eq, not_true_eq_false, if_false]
  rfl

/-- A branch's snapshot file is within the bound of the readers. -/
theorem AncestrySnapshot.Wf.length_file_le (h : s.Wf mmb br) :
    (s.payload ++ (B.hash s.payload).bytes).length ≤ MAX_SNAPSHOT_BYTES := by
  have hdec := h.decode_payload (B := B)
  rw [decodeDescriptorAndChain] at hdec
  by_contra hlen
  rw [if_pos (.inr (not_le.1 hlen))] at hdec
  cases hdec

end Wf

end Codec

end Mkit
