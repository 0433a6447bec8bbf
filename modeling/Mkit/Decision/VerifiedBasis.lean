import Mkit.Decision.Ticketed
import Mkit.WitnessPages

/-!
# Acceptance Bases from Verified Artifacts

A basis is derived from a verified pack, a closure proof, the pages of the proof's witness chain
and the external delta bases the host supplied (`decision/basis.rs`). The pages are authenticated
by the proof; the list of bases only by a count and an order-free sum of digests.

## Main results

* `basis_guards_dependencies` — the guards of a basis are those of the facts of the whole witness
  chain and of the received bases, each object once.
* `basis_other_incarnation` — a received base is guarded whatever its incarnation is.
-/

namespace Mkit.Decision

open Evidence Witness
open Visited (invalidResponse memberWire)

def BASIS_DIGEST_DOMAIN : Bytes := ascii "mkit-acceptance-basis:v1".toList

def EXTERNAL_BASE_DOMAIN : Bytes := ascii "mkit-external-base:v1".toList

/-- Hard ceiling on distinct relied-on dependencies one basis guards. -/
def MAX_BASIS_DEPENDENCIES : UInt32 := 4096

def bindingMismatch : Failure := failure .evidenceBindingMismatch

def resourceLimit : Failure := failure .resourceLimit

/-! ### Artifacts -/

/-- Committed paged sequence. -/
structure EvidenceSequence where
  root : Hash
  count : UInt64
deriving DecidableEq

/-- Commitment to the external delta-base facts a verification received: their count and the
256-bit wrapping sum of their digests. -/
structure ExternalBases where
  count : UInt64
  sum : Hash
deriving DecidableEq

namespace ExternalBases

/-- The commitment of no external base. -/
def EMPTY : ExternalBases :=
  ⟨0, ZERO⟩

/-- The record of an external base that no entry consumed yet. -/
def externalRecord (fact : MemberFact) : Bytes :=
  [1, 2] ++ (Wire.leBytes 8 0 ++ (ZERO.bytes ++ memberWire fact))

/-- Bytewise addition from the least significant byte, with carry. -/
def addBytes : Bytes → Bytes → ℕ → Bytes
  | a :: as, b :: bs, carry =>
    let total := a.toNat + b.toNat + carry
    UInt8.ofNat total :: addBytes as bs (total / 256)
  | as, _, _ => as

theorem length_addBytes (as bs : Bytes) (carry : ℕ) :
    (addBytes as bs carry).length = as.length := by
  fun_induction addBytes as bs carry with
  | case1 a as b bs carry total ih => rw [List.length_cons, List.length_cons, ih]
  | case2 as bs carry h => rfl

/-- Add one received fact. -/
def add (B : Blake3) (bases : ExternalBases) (fact : MemberFact) :
    Except Failure ExternalBases := do
  let digest := (domainDigest B EXTERNAL_BASE_DOMAIN (externalRecord fact)).getD ZERO
  let count ← okOr resourceLimit (Words.checkedAdd bases.count 1)
  return ⟨count, ⟨addBytes bases.sum.bytes digest.bytes 0, by
    rw [length_addBytes, ByteArr.length_bytes]⟩⟩

/-- Commitment of a list, in any order. -/
def of (B : Blake3) (facts : List MemberFact) : Except Failure ExternalBases :=
  facts.foldlM (add B) EMPTY

/-- No two of the lists that are not permutations of each other have one commitment. -/
def CollisionFreeOn (B : Blake3) (lists : Set (List MemberFact)) : Prop :=
  ∀ l ∈ lists, ∀ l' ∈ lists, ∀ bases, of B l = .ok bases → of B l' = .ok bases → l.Perm l'

end ExternalBases

/-- What a basis uses of a completed pack verification. -/
structure VerifiedPack where
  packId : Hash
  len : UInt64
  ruleset : RulesetBinding
  objectSetRoot : Hash
  externalBases : ExternalBases
deriving DecidableEq

/-- What a basis uses of a complete closure. -/
structure ClosureProof where
  repository : RepositoryId
  view : Revision
  ruleset : RulesetBinding
  objectSetRoot : Hash
  headsRoot : Hash
  externalWitnesses : EvidenceSequence
  /-- The last witness page. -/
  reliedOnMembers : Option PageCommitment
deriving DecidableEq

/-- What a basis uses of a pair coverage. -/
structure PairCoverage where
  repository : RepositoryId
  view : Revision
  ruleset : RulesetBinding
deriving DecidableEq

/-- Explicit finite allowances for deriving a basis from sealed artifacts. -/
structure BasisCfg where
  maxWitnessPages : UInt64
  maxTotalWitnessBytes : UInt64
  maxDependencies : UInt32
  witnessPage : PageDecodeCfg
deriving DecidableEq

def BasisCfg.dependencies (cfg : BasisCfg) : ℕ :=
  (min cfg.maxDependencies MAX_BASIS_DEPENDENCIES).toNat

/-! ### The basis -/

def memberGuard (repository : RepositoryId) (fact : MemberFact) : RequiredGuard :=
  .membership repository fact.object (.present fact fact.revision)

def publicationGuard (repository : RepositoryId) (fact : MemberFact) : RequiredGuard :=
  .dependencyPublication repository fact.object fact.supplier.id fact.published fact.held

/-- The binding of a basis to its artifacts. -/
def verifiedRoot (B : Blake3) (verified : VerifiedPack) (proof : ClosureProof) : Hash :=
  let h := B.update B.new BASIS_DIGEST_DOMAIN
  let h := B.update h [0]
  let h := B.update h verified.packId.bytes
  let h := B.update h (Wire.leBytes 8 verified.len.toNat)
  let h := B.update h verified.objectSetRoot.bytes
  let h := B.update h proof.headsRoot.bytes
  let h := B.update h proof.externalWitnesses.root.bytes
  B.finalize h

/-- Add a fact unless it is there; the index finds the fact of an object. -/
def addFact (max : ℕ) (facts : List MemberFact) (fact : MemberFact) :
    Except Failure (List MemberFact) :=
  match facts.find? fun known => known.object = fact.object with
  | some known => if known ≠ fact then .error invalidResponse else .ok facts
  | none => if max ≤ facts.length then .error resourceLimit else .ok (facts ++ [fact])

/-- The loop of `witnessFacts`, with that many pages to go. -/
def witnessLoop (B : Blake3) (proof : ClosureProof) (cfg : BasisCfg) :
    ℕ → Option PageCommitment → List Bytes → UInt64 → List MemberFact →
      Except Failure (List MemberFact)
  | 0, next, pages, _, facts => do
    refuseIf (next.isSome ∨ pages ≠ []) invalidResponse
    return facts
  | left + 1, next, pages, total, facts => do
    let page ← okOr invalidResponse next
    match pages with
    | [] => .error invalidResponse
    | bytes :: pages => do
      refuseIf (2 ^ 64 ≤ bytes.length) resourceLimit
      let total ← okOr resourceLimit (Words.checkedAdd total (UInt64.ofNat bytes.length))
      refuseIf (cfg.maxTotalWitnessBytes < total) resourceLimit
      let decoded ← decodeWitness B page bytes cfg.witnessPage
      refuseIf (decoded.fact.repository ≠ proof.repository ∨
        decoded.fact.incarnation ≠ proof.view) bindingMismatch
      let facts ← addFact cfg.dependencies facts decoded.fact
      witnessLoop B proof cfg left decoded.previous pages total facts

/-- Authenticated relied-on facts, deduplicated by object and bounded. -/
def witnessFacts (B : Blake3) (proof : ClosureProof) (pages : List Bytes) (cfg : BasisCfg) :
    Except Failure (List MemberFact) := do
  let sequence := proof.externalWitnesses
  refuseIf (cfg.maxWitnessPages < sequence.count) resourceLimit
  refuseIf (proof.reliedOnMembers.elim ZERO PageCommitment.digest ≠ sequence.root) bindingMismatch
  witnessLoop B proof cfg sequence.count.toNat proof.reliedOnMembers pages 0 []

/-- Add the external delta-base facts the host supplied during verification. -/
def mergeExternalBases (repository : RepositoryId) (cfg : BasisCfg) (facts : List MemberFact) :
    List MemberFact → Except Failure (List MemberFact)
  | [] => .ok facts
  | base :: bases => do
    refuseIf (base.repository ≠ repository) bindingMismatch
    let facts ← addFact cfg.dependencies facts base
    mergeExternalBases repository cfg facts bases

/-- A coverage that describes something else than the proof. -/
def coverageDiffers (proof : ClosureProof) : Option PairCoverage → Bool
  | none => false
  | some coverage => coverage.repository ≠ proof.repository ∨ coverage.view ≠ proof.view ∨
      coverage.ruleset ≠ proof.ruleset

/-- Derive the basis from sealed verification and closure artifacts. -/
def AcceptanceBasis.fromVerified (B : Blake3) (verified : VerifiedPack) (proof : ClosureProof)
    (coverage : Option PairCoverage) (denialVersion : UInt64) (witnessPages : List Bytes)
    (externalBases : List MemberFact) (cfg : BasisCfg) : Except Failure AcceptanceBasis := do
  refuseIf (verified.ruleset ≠ proof.ruleset ∨ verified.objectSetRoot ≠ proof.objectSetRoot)
    bindingMismatch
  refuseIf (coverageDiffers proof coverage) bindingMismatch
  refuseIf (externalBases.length ≠ verified.externalBases.count.toNat) bindingMismatch
  let supplied ← ExternalBases.of B externalBases
  refuseIf (supplied ≠ verified.externalBases) bindingMismatch
  let facts ← witnessFacts B proof witnessPages cfg
  let facts ← mergeExternalBases proof.repository cfg facts externalBases
  return {
    repository := proof.repository
    packs := [(verified.packId, verified.len)]
    guards :=
      (facts.flatMap fun fact =>
        [memberGuard proof.repository fact, publicationGuard proof.repository fact]) ++
      [.denialVersion denialVersion, .binding (verifiedRoot B verified proof)]
  }

/-! ### Facts -/

/-- What adding facts one by one gives: every fact once, and one fact for an object. -/
structure Merged (facts more out : List MemberFact) : Prop where
  nodup : (facts.map MemberFact.object).Nodup → (out.map MemberFact.object).Nodup
  mem_iff : ∀ fact, fact ∈ out ↔ fact ∈ facts ∨ fact ∈ more

theorem Merged.refl (facts : List MemberFact) : Merged facts [] facts :=
  ⟨id, fun fact => by simp⟩

theorem Merged.trans {facts more facts' more' out : List MemberFact} (h : Merged facts more facts')
    (h' : Merged facts' more' out) : Merged facts (more ++ more') out :=
  ⟨h'.nodup ∘ h.nodup, fun fact => by rw [h'.mem_iff, h.mem_iff, List.mem_append, or_assoc]⟩

theorem merged_addFact {max : ℕ} {facts out : List MemberFact} {fact : MemberFact}
    (h : addFact max facts fact = .ok out) : Merged facts [fact] out := by
  rw [addFact] at h
  split at h
  · rename_i known hknown
    by_cases hsame : known = fact
    · rw [if_neg (not_not.2 hsame)] at h
      obtain rfl := Except.ok.inj h
      have hmem := List.mem_of_find?_eq_some hknown
      refine ⟨id, fun other => ⟨.inl, ?_⟩⟩
      rintro (hother | hother)
      · exact hother
      · rw [List.mem_singleton.1 hother, ← hsame]
        exact hmem
    · rw [if_pos hsame] at h
      cases h
  · rename_i hknown
    split_ifs at h with hmax
    obtain rfl := Except.ok.inj h
    refine ⟨fun hnodup => ?_, fun other => List.mem_append⟩
    rw [List.map_append, List.nodup_append]
    refine ⟨hnodup, by simp, fun a ha b hb heq => ?_⟩
    obtain ⟨known, hmem, rfl⟩ := List.mem_map.1 ha
    rw [List.map_singleton, List.mem_singleton] at hb
    exact absurd (heq.trans hb) (by simpa using List.find?_eq_none.1 hknown known hmem)

/-- The loop takes a whole chain of pages, and merges its facts. -/
theorem witnessLoop_eq_ok {B : Blake3} {proof : ClosureProof} {cfg : BasisCfg} {left : ℕ}
    {next : Option PageCommitment} {pages : List Bytes} {total : UInt64}
    {facts out : List MemberFact}
    (h : witnessLoop B proof cfg left next pages total facts = .ok out) :
    ∃ chain, Chain B next pages chain ∧ pages.length = left ∧ Merged facts chain out ∧
      ∀ fact ∈ chain, fact.repository = proof.repository ∧ fact.incarnation = proof.view := by
  induction left generalizing next pages total facts with
  | zero =>
    obtain ⟨hend, h⟩ := refuseIf_bind_eq_ok.1 h
    obtain ⟨hnext, hpages⟩ := not_or.1 hend
    obtain rfl := Except.ok.inj h
    obtain rfl := not_not.1 hpages
    rw [Option.not_isSome_iff_eq_none] at hnext
    subst hnext
    exact ⟨[], .nil, rfl, .refl facts, fun fact hfact => absurd hfact List.not_mem_nil⟩
  | succ left ih =>
    obtain ⟨page, hpage, h⟩ := Wire.bind_eq_ok.1 h
    cases pages with
    | nil => cases h
    | cons bytes pages =>
      obtain ⟨-, h⟩ := refuseIf_bind_eq_ok.1 h
      obtain ⟨total', -, h⟩ := Wire.bind_eq_ok.1 h
      obtain ⟨-, h⟩ := refuseIf_bind_eq_ok.1 h
      obtain ⟨decoded, hdecoded, h⟩ := Wire.bind_eq_ok.1 h
      obtain ⟨hproof, h⟩ := refuseIf_bind_eq_ok.1 h
      obtain ⟨facts', hadd, h⟩ := Wire.bind_eq_ok.1 h
      obtain ⟨chain, hchain, hlen, hmerged, hall⟩ := ih h
      obtain ⟨hauth, hprevious, rfl⟩ := decodeWitness_eq_ok hdecoded
      rw [okOr_eq_ok.1 hpage]
      refine ⟨decoded.fact :: chain, .cons hauth hprevious hchain,
        by rw [List.length_cons, hlen], (merged_addFact hadd).trans hmerged, ?_⟩
      rw [List.forall_mem_cons]
      simp only [not_or, not_not] at hproof
      exact ⟨hproof, hall⟩

theorem mergeExternalBases_eq_ok {repository : RepositoryId} {cfg : BasisCfg}
    {facts bases out : List MemberFact}
    (h : mergeExternalBases repository cfg facts bases = .ok out) :
    Merged facts bases out ∧ ∀ base ∈ bases, base.repository = repository := by
  induction bases generalizing facts with
  | nil =>
    obtain rfl := Except.ok.inj h
    exact ⟨.refl facts, fun base hbase => absurd hbase List.not_mem_nil⟩
  | cons base bases ih =>
    obtain ⟨hrepository, h⟩ := refuseIf_bind_eq_ok.1 h
    obtain ⟨facts', hadd, h⟩ := Wire.bind_eq_ok.1 h
    obtain ⟨hmerged, hall⟩ := ih h
    exact ⟨(merged_addFact hadd).trans hmerged,
      List.forall_mem_cons.2 ⟨not_not.1 hrepository, hall⟩⟩

/-- What a basis relies on: the facts of the witness chain and the external bases, and its guards
are those of these facts, each object once. -/
structure AcceptanceBasis.Relies (B : Blake3) (verified : VerifiedPack) (proof : ClosureProof)
    (denialVersion : UInt64) (facts bases : List MemberFact) (basis : AcceptanceBasis) : Prop where
  repository_eq : basis.repository = proof.repository
  witness_eq : ∀ fact ∈ facts, fact.repository = proof.repository ∧ fact.incarnation = proof.view
  base_eq : ∀ base ∈ bases, base.repository = proof.repository
  guards_eq : ∃ dependencies : List MemberFact,
    (dependencies.map MemberFact.object).Nodup ∧
    (∀ fact, fact ∈ dependencies ↔ fact ∈ facts ∨ fact ∈ bases) ∧
    basis.guards = (dependencies.flatMap fun fact =>
      [memberGuard proof.repository fact, publicationGuard proof.repository fact]) ++
      [.denialVersion denialVersion, .binding (verifiedRoot B verified proof)]

variable {B : Blake3} {verified : VerifiedPack} {proof : ClosureProof}
  {coverage : Option PairCoverage} {denialVersion : UInt64} {pages : List Bytes}
  {bases : List MemberFact} {cfg : BasisCfg} {basis : AcceptanceBasis}

/-- A basis is derived only from a whole chain of pages and a list with the sealed commitment. -/
theorem fromVerified_eq_ok
    (h : AcceptanceBasis.fromVerified B verified proof coverage denialVersion pages bases cfg =
      .ok basis) : ∃ facts, Chain B proof.reliedOnMembers pages facts ∧
      pages.length = proof.externalWitnesses.count.toNat ∧
      ExternalBases.of B bases = .ok verified.externalBases ∧
      basis.Relies B verified proof denialVersion facts bases := by
  obtain ⟨-, h⟩ := refuseIf_bind_eq_ok.1 h
  obtain ⟨-, h⟩ := refuseIf_bind_eq_ok.1 h
  obtain ⟨-, h⟩ := refuseIf_bind_eq_ok.1 h
  obtain ⟨supplied, hsupplied, h⟩ := Wire.bind_eq_ok.1 h
  obtain ⟨hsealed, h⟩ := refuseIf_bind_eq_ok.1 h
  obtain ⟨facts, hfacts, h⟩ := Wire.bind_eq_ok.1 h
  obtain ⟨merged, hmerge, h⟩ := Wire.bind_eq_ok.1 h
  obtain rfl := Except.ok.inj h
  obtain ⟨-, hfacts⟩ := refuseIf_bind_eq_ok.1 hfacts
  obtain ⟨-, hfacts⟩ := refuseIf_bind_eq_ok.1 hfacts
  obtain ⟨chain, hchain, hlen, hmerged, hall⟩ := witnessLoop_eq_ok hfacts
  obtain ⟨hmerged', hbases⟩ := mergeExternalBases_eq_ok hmerge
  have hunion := hmerged.trans hmerged'
  refine ⟨chain, hchain, hlen, not_not.1 hsealed ▸ hsupplied, rfl, hall, hbases, merged,
    hunion.nodup List.nodup_nil, fun fact => ?_, rfl⟩
  rw [hunion.mem_iff, List.mem_append]
  exact or_iff_right List.not_mem_nil

/-- **Bases guard every relied-on dependency exactly once.** When a basis is derived, the supplied
pages are the whole witness chain of the proof and the supplied bases are a permutation of those
the verification received; the guards are those of the facts of the chain and of the received
bases, one membership and one publication guard for each object, every witness is of the proof's
repository and incarnation, and every base of its repository. -/
theorem basis_guards_dependencies {chain : List Bytes} {facts received : List MemberFact}
    (hchain : Chain B proof.reliedOnMembers chain facts)
    (hreceived : ExternalBases.of B received = .ok verified.externalBases)
    (hfree : CollisionFreeOn B (preimages (chain ++ pages)))
    (hsum : ExternalBases.CollisionFreeOn B {l | l = bases ∨ l = received})
    (h : AcceptanceBasis.fromVerified B verified proof coverage denialVersion pages bases cfg =
      .ok basis) : pages = chain ∧ bases.Perm received ∧
      basis.Relies B verified proof denialVersion facts received := by
  obtain ⟨facts', hchain', -, hsupplied, hrelies⟩ := fromVerified_eq_ok h
  obtain ⟨rfl, rfl⟩ := hchain.unique hfree hchain' (List.subset_append_left _ _)
    (List.subset_append_right _ _)
  have hperm := hsum bases (.inl rfl) received (.inr rfl) _ hsupplied hreceived
  obtain ⟨dependencies, hnodup, hmem, hguards⟩ := hrelies.guards_eq
  refine ⟨rfl, hperm, hrelies.repository_eq, hrelies.witness_eq, fun base hbase => ?_,
    dependencies, hnodup, fun fact => ?_, hguards⟩
  · exact hrelies.base_eq base (hperm.mem_iff.2 hbase)
  · rw [hmem, hperm.mem_iff]

/-! ### A base of another incarnation -/

/-- A relied-on member. -/
def sampleFact : MemberFact where
  repository := .fill HASH_LEN 1
  incarnation := .fill HASH_LEN 2
  object := .fill HASH_LEN 3
  kind := .blob
  canonicalLen := 12
  supplier := ⟨.fill HASH_LEN 4, 100, .fill HASH_LEN 5⟩
  canonicalBinding := .fill HASH_LEN 6
  revision := .fill HASH_LEN 7
  deltaDepth := 0
  published := true
  held := false

/-- An external base that was observed in an earlier incarnation. -/
def sampleBase : MemberFact :=
  { sampleFact with incarnation := .fill HASH_LEN 8, object := .fill HASH_LEN 9 }

/-- The witness chain of one page. -/
def sampleWitnesses : Option PageCommitment × List Bytes :=
  (witnesses toyBlake3 [sampleFact]).toOption.getD (none, [])

def sampleProof : ClosureProof where
  repository := sampleFact.repository
  view := sampleFact.incarnation
  ruleset := ⟨1, .indexed⟩
  objectSetRoot := .fill HASH_LEN 10
  headsRoot := .fill HASH_LEN 11
  externalWitnesses := ⟨sampleWitnesses.1.elim ZERO PageCommitment.digest, 1⟩
  reliedOnMembers := sampleWitnesses.1

def sampleVerified : VerifiedPack where
  packId := .fill HASH_LEN 12
  len := 200
  ruleset := ⟨1, .indexed⟩
  objectSetRoot := .fill HASH_LEN 10
  externalBases := (ExternalBases.of toyBlake3 [sampleBase]).toOption.getD .EMPTY

def sampleCfg : BasisCfg where
  maxWitnessPages := 10
  maxTotalWitnessBytes := 1000
  maxDependencies := 10
  witnessPage := ⟨1000, 0, 1000⟩

def sampleBasis : Except Failure AcceptanceBasis :=
  AcceptanceBasis.fromVerified toyBlake3 sampleVerified sampleProof none 7 sampleWitnesses.2
    [sampleBase] sampleCfg

theorem sample_isOk : sampleBasis.isOk = true := by decide +kernel

theorem sample_chain : Chain toyBlake3 sampleProof.reliedOnMembers sampleWitnesses.2 [sampleFact] :=
  chain_witnesses (Wire.eq_ok_getD (by decide +kernel) (none, []))

theorem sample_received :
    ExternalBases.of toyBlake3 [sampleBase] = .ok sampleVerified.externalBases :=
  Wire.eq_ok_getD (by decide +kernel) .EMPTY

theorem sample_collisionFree :
    CollisionFreeOn toyBlake3 (preimages (sampleWitnesses.2 ++ sampleWitnesses.2)) := by
  change CollisionFreeOn toyBlake3 {x | x ∈ (_ : List Bytes)}
  decide +kernel

theorem sample_sum : ExternalBases.CollisionFreeOn toyBlake3
    {l | l = [sampleBase] ∨ l = [sampleBase]} := by
  rintro l hl l' hl' bases - -
  rw [or_self_iff.1 hl, or_self_iff.1 hl']

/-- A basis over one witness and one base. -/
theorem basis_guards_dependencies_sample : ∃ basis, sampleBasis = .ok basis ∧
    basis.Relies toyBlake3 sampleVerified sampleProof 7 [sampleFact] [sampleBase] := by
  have h := Wire.eq_ok_getD sample_isOk ⟨ZERO, [], []⟩
  exact ⟨_, h, (basis_guards_dependencies sample_chain sample_received sample_collisionFree
    sample_sum h).2.2⟩

/-- A base that was received is guarded although it is of another incarnation than the proof. -/
theorem basis_other_incarnation : ¬ ∀ (B : Blake3) (verified : VerifiedPack) (proof : ClosureProof)
      (coverage : Option PairCoverage) (denialVersion : UInt64) (pages chain : List Bytes)
      (facts bases received : List MemberFact) (cfg : BasisCfg) (basis : AcceptanceBasis),
      Chain B proof.reliedOnMembers chain facts →
      ExternalBases.of B received = .ok verified.externalBases →
      CollisionFreeOn B (preimages (chain ++ pages)) →
      ExternalBases.CollisionFreeOn B {l | l = bases ∨ l = received} →
      AcceptanceBasis.fromVerified B verified proof coverage denialVersion pages bases cfg =
        .ok basis →
      ∀ (object : Hash) (fact : MemberFact) (revision : Revision),
        RequiredGuard.membership proof.repository object (.present fact revision) ∈ basis.guards →
        fact.incarnation = proof.view := by
  intro hall
  have h := Wire.eq_ok_getD sample_isOk ⟨ZERO, [], []⟩
  have hincarnation := hall _ _ _ _ _ _ _ _ _ _ _ _ sample_chain sample_received
    sample_collisionFree sample_sum h sampleBase.object sampleBase sampleBase.revision
  obtain ⟨facts, -, -, -, hrelies⟩ := fromVerified_eq_ok h
  obtain ⟨dependencies, -, hmem, hguards⟩ := hrelies.guards_eq
  have hguard : memberGuard sampleProof.repository sampleBase ∈
      (sampleBasis.toOption.getD ⟨ZERO, [], []⟩).guards := by
    rw [hguards]
    refine List.mem_append_left _ (List.mem_flatMap.2 ⟨sampleBase, ?_, List.mem_cons_self⟩)
    exact (hmem _).2 (.inr List.mem_cons_self)
  have hsame : sampleBase.incarnation = sampleProof.view := hincarnation hguard
  exact absurd hsame (by decide)

end Mkit.Decision
