import Mkit.JournalPages

/-!
# Membership Witness Pages

Closure verification writes every membership answer it relied on to a page (`closure/output.rs`).
A page is linked to the page before it by the commitment of that page, so that the commitment of
the last page stands for all of them.

## Main results

* `decodeWitness_eq_ok` — a decoded page is the encoding of its fact behind its link.
* `Chain.unique` — without collisions, a commitment leads through one sequence of pages.
* `chain_witnesses` — the pages that are written one after the other form such a sequence.
-/

namespace Mkit.Witness

open Evidence Wire
open Visited (invalidResponse readByte readOption readMember optionWire previousWire memberWire)

def WITNESS_DOMAIN : Bytes := ascii "mkit-closure-witness:v1".toList

/-- Finite caller allowances for one authenticated output page. -/
structure PageDecodeCfg where
  maxBytes : UInt64
  maxReasons : UInt64
  maxWork : UInt64
deriving DecidableEq

/-- One relied-on membership observation. -/
structure WitnessPage where
  previous : Option PageCommitment
  fact : MemberFact
deriving DecidableEq

/-- A commitment an output page can have. -/
def valid (page : PageCommitment) : Except Failure Unit :=
  refuseIf (page.kind ≠ .closure ∨ page.items ≠ 1 ∨ page.len = 0) invalidResponse

/-- `domain_digest` under the domain of witness pages, which is short enough. -/
def witnessDigest (B : Blake3) (bytes : Bytes) : Hash :=
  (domainDigest B WITNESS_DOMAIN bytes).getD ZERO

/-- The bytes of a page. -/
def witnessWire (previous : Option PageCommitment) (fact : MemberFact) : Bytes :=
  [1] ++ (optionWire previousWire previous ++ memberWire fact)

/-- `valid` of the page before, if there is one. -/
def validPrevious : Option PageCommitment → Except Failure Unit
  | none => .ok ()
  | some page => valid page

/-- Encode one membership witness. -/
def encodeWitness (B : Blake3) (previous : Option PageCommitment) (fact : MemberFact) :
    Except Failure (PageCommitment × Bytes) := do
  validPrevious previous
  let bytes := witnessWire previous fact
  return (⟨witnessDigest B bytes, .closure, UInt64.ofNat bytes.length, 1⟩, bytes)

/-- Check a page against its commitment before parsing it. -/
def authenticate (B : Blake3) (page : PageCommitment) (bytes : Bytes) (cfg : PageDecodeCfg) :
    Except Failure Unit := do
  refuseIf (cfg.maxBytes < UInt64.ofNat bytes.length ∨ cfg.maxWork < UInt64.ofNat bytes.length)
    (failure .resourceLimit)
  valid page
  refuseIf (page.len ≠ UInt64.ofNat bytes.length ∨ page.digest ≠ witnessDigest B bytes)
    invalidResponse

/-- The page before: its role and item count are fixed. -/
def readPrevious : Parser Failure PageCommitment := do
  let digest ← Visited.readHash
  let len ← Visited.readNumber
  accept (valid ⟨digest, .closure, len, 1⟩)
  return ⟨digest, .closure, len, 1⟩

def readWitness : Parser Failure WitnessPage := do
  let version ← readByte
  if version ≠ 1 then throw invalidResponse
  let previous ← readOption readPrevious
  let fact ← readMember
  return ⟨previous, fact⟩

/-- Authenticate and decode precisely one witness page. -/
def decodeWitness (B : Blake3) (page : PageCommitment) (bytes : Bytes) (cfg : PageDecodeCfg) :
    Except Failure WitnessPage := do
  authenticate B page bytes cfg
  let (decoded, rest) ← readWitness bytes
  refuseIf (rest ≠ []) invalidResponse
  return decoded

/-! ### The grammar -/

theorem valid_eq_ok {page : PageCommitment} :
    valid page = .ok () ↔ page.kind = .closure ∧ page.items = 1 ∧ page.len ≠ 0 := by
  rw [valid, refuseIf_eq_ok]
  simp only [not_or, not_not, ne_eq]

theorem validPrevious_eq_ok {previous : Option PageCommitment} :
    validPrevious previous = .ok () ↔ ∀ p ∈ previous, valid p = .ok () := by
  cases previous with
  | none => simp [validPrevious]
  | some page => simp [validPrevious]

theorem witnessDigest_eq (B : Blake3) (bytes : Bytes) :
    witnessDigest B bytes = B.hash (domainPreimage WITNESS_DOMAIN bytes) := by
  rw [witnessDigest, domainDigest_eq bytes (by decide), Option.getD_some]

theorem parses_readPrevious :
    Parses readPrevious (fun p bs => valid p = .ok () ∧ bs = previousWire p) := by
  refine (Visited.parses_readHash.bind fun digest => Visited.parses_readNumber.bind fun len =>
    (Parses.accept _).bind fun _ => Parses.pure _).congr fun p bs => ?_
  constructor
  · rintro ⟨digest, _, _, rfl, ⟨len, _, _, rfl, ⟨_, _, _, ⟨hvalid, rfl⟩, ⟨rfl, rfl⟩, rfl⟩, rfl⟩,
      rfl⟩
    exact ⟨hvalid, by simp [previousWire]⟩
  · rintro ⟨hvalid, rfl⟩
    obtain ⟨hkind, hitems, -⟩ := valid_eq_ok.1 hvalid
    obtain ⟨digest, kind, len, items⟩ := p
    dsimp only at hkind hitems
    subst hkind hitems
    exact ⟨digest, _, _, rfl, ⟨len, _, _, rfl, ⟨(), _, _, ⟨hvalid, rfl⟩, ⟨rfl, rfl⟩, rfl⟩, rfl⟩,
      by simp [previousWire]⟩

theorem parses_readWitness : Parses readWitness (fun a bs =>
    (∀ p ∈ a.previous, valid p = .ok ()) ∧ bs = witnessWire a.previous a.fact) := by
  refine ((Parses.byte _).bind fun version => Parses.check
    ((Visited.parses_readOption parses_readPrevious).bind fun previous =>
    Visited.parses_readMember.bind fun fact => Parses.pure _)).congr fun a bs => ?_
  constructor
  · rintro ⟨version, _, _, rfl, ⟨hversion, previous, _, _, ⟨hprevious, rfl⟩, ⟨fact, _, _, rfl,
      ⟨rfl, rfl⟩, rfl⟩, rfl⟩, rfl⟩
    rw [not_not.1 hversion]
    exact ⟨hprevious, by rw [witnessWire, List.append_nil]⟩
  · rintro ⟨hprevious, rfl⟩
    exact ⟨1, _, _, rfl, ⟨not_not.2 rfl, a.previous, _, _, ⟨hprevious, rfl⟩, ⟨a.fact, _, _, rfl,
      ⟨rfl, rfl⟩, rfl⟩, rfl⟩, by rw [witnessWire, List.append_nil]⟩

/-- A page is the page of one fact behind one link. -/
theorem witnessWire_injective {previous previous' : Option PageCommitment}
    {fact fact' : MemberFact} (h : ∀ p ∈ previous, valid p = .ok ())
    (h' : ∀ p ∈ previous', valid p = .ok ())
    (heq : witnessWire previous fact = witnessWire previous' fact') :
    previous = previous' ∧ fact = fact' := by
  have hread := (parses_readWitness (witnessWire previous fact) ⟨previous, fact⟩ []).2
    ⟨_, ⟨h, rfl⟩, (List.append_nil _).symm⟩
  have hread' := (parses_readWitness (witnessWire previous' fact') ⟨previous', fact'⟩ []).2
    ⟨_, ⟨h', rfl⟩, (List.append_nil _).symm⟩
  rw [heq, hread'] at hread
  simpa [eq_comm] using hread

/-- What the commitment of a page says of its bytes. -/
structure Authentic (B : Blake3) (page : PageCommitment) (bytes : Bytes) : Prop where
  valid_eq : valid page = .ok ()
  len_eq : page.len = UInt64.ofNat bytes.length
  digest_eq : page.digest = witnessDigest B bytes

/-- A decoded page is authentic, and the encoding of its fact behind its link. -/
theorem decodeWitness_eq_ok {B : Blake3} {page : PageCommitment} {bytes : Bytes}
    {cfg : PageDecodeCfg} {decoded : WitnessPage}
    (h : decodeWitness B page bytes cfg = .ok decoded) :
    Authentic B page bytes ∧ (∀ p ∈ decoded.previous, valid p = .ok ()) ∧
      bytes = witnessWire decoded.previous decoded.fact := by
  obtain ⟨⟨⟩, hauth, h⟩ := bind_eq_ok.1 h
  obtain ⟨⟨a, rest⟩, hread, h⟩ := bind_eq_ok.1 h
  obtain ⟨hrest, h⟩ := refuseIf_bind_eq_ok.1 h
  obtain rfl := Except.ok.inj h
  obtain ⟨-, hauth⟩ := refuseIf_bind_eq_ok.1 hauth
  obtain ⟨⟨⟩, hvalid, hauth⟩ := bind_eq_ok.1 hauth
  obtain ⟨hlen, hdigest⟩ := not_or.1 (refuseIf_eq_ok.1 hauth)
  obtain ⟨bs, ⟨hprevious, rfl⟩, hbytes⟩ := (parses_readWitness _ _ _).1 hread
  rw [not_not.1 hrest, List.append_nil] at hbytes
  exact ⟨⟨hvalid, not_not.1 hlen, not_not.1 hdigest⟩, hprevious, hbytes⟩

/-! ### Chains of pages -/

/-- A commitment leads through authentic pages to facts, the latest first. -/
inductive Chain (B : Blake3) : Option PageCommitment → List Bytes → List MemberFact → Prop
  | nil : Chain B none [] []
  | cons {page : PageCommitment} {previous : Option PageCommitment} {fact : MemberFact}
      {pages : List Bytes} {facts : List MemberFact}
      (hpage : Authentic B page (witnessWire previous fact))
      (hprevious : ∀ p ∈ previous, valid p = .ok ()) (h : Chain B previous pages facts) :
      Chain B (some page) (witnessWire previous fact :: pages) (fact :: facts)

/-- What the digests of pages are taken of. -/
def preimages (pages : List Bytes) : Set Bytes :=
  {x | x ∈ pages.map (domainPreimage WITNESS_DOMAIN)}

variable {B : Blake3}

/-- Without collisions, a digest names one page. -/
theorem eq_of_witnessDigest {all : List Bytes} (hfree : CollisionFreeOn B (preimages all))
    {bytes bytes' : Bytes} (hmem : bytes ∈ all) (hmem' : bytes' ∈ all)
    (h : witnessDigest B bytes = witnessDigest B bytes') : bytes = bytes' := by
  rw [witnessDigest_eq, witnessDigest_eq] at h
  have hpreimage := hfree (List.mem_map_of_mem hmem) (List.mem_map_of_mem hmem') h
  exact (domainPreimage_inj (by decide) (by decide) hpreimage).2

/-- Without collisions, a commitment leads through one sequence of pages to one of facts. -/
theorem Chain.unique {all : List Bytes} (hfree : CollisionFreeOn B (preimages all))
    {next : Option PageCommitment} {pages pages' : List Bytes} {facts facts' : List MemberFact}
    (h : Chain B next pages facts) (h' : Chain B next pages' facts') (hall : pages ⊆ all)
    (hall' : pages' ⊆ all) : pages = pages' ∧ facts = facts' := by
  induction h generalizing pages' facts' with
  | nil =>
    cases h'
    exact ⟨rfl, rfl⟩
  | cons hpage hprevious h ih =>
    generalize hnext : some _ = next' at h'
    cases h' with
    | nil => cases hnext
    | cons hpage' hprevious' h' =>
      obtain rfl := Option.some.inj hnext
      rw [List.cons_subset] at hall hall'
      have hwire := eq_of_witnessDigest hfree hall.1 hall'.1
        (hpage.digest_eq.symm.trans hpage'.digest_eq)
      obtain ⟨rfl, rfl⟩ := witnessWire_injective hprevious hprevious' hwire
      obtain ⟨rfl, rfl⟩ := ih h' hall.2 hall'.2
      exact ⟨rfl, rfl⟩

/-! ### Writing -/

/-- The pages of a closure verification: each membership answer it relies on is appended, and the
commitment of its page replaces the one before. -/
def witnesses (B : Blake3) : List MemberFact → Except Failure (Option PageCommitment × List Bytes)
  | [] => .ok (none, [])
  | fact :: facts => do
    let (previous, pages) ← witnesses B facts
    let (page, bytes) ← encodeWitness B previous fact
    return (some page, bytes :: pages)

theorem length_witnessWire (previous : Option PageCommitment) (fact : MemberFact) :
    (witnessWire previous fact).length ≤ 1024 := by
  have hprevious := Visited.length_optionWire_le (w := previousWire) (n := 40)
    (fun p => by simp [previousWire, Visited.u64Wire, HASH_LEN]) previous
  simp only [witnessWire, List.length_append, List.length_singleton, memberWire,
    Visited.sourceWire, Visited.u64Wire, ByteArr.length_bytes, HASH_LEN, length_leBytes] at *
  omega

/-- An encoded page is authentic. -/
theorem encodeWitness_eq_ok {previous : Option PageCommitment} {fact : MemberFact}
    {page : PageCommitment} {bytes : Bytes}
    (h : encodeWitness B previous fact = .ok (page, bytes)) :
    bytes = witnessWire previous fact ∧ Authentic B page bytes ∧
      ∀ p ∈ previous, valid p = .ok () := by
  obtain ⟨⟨⟩, hprevious, h⟩ := bind_eq_ok.1 h
  obtain ⟨rfl, rfl⟩ := Prod.mk.inj (Except.ok.inj h)
  have hlen := length_witnessWire previous fact
  have hpos : 0 < (witnessWire previous fact).length := Nat.succ_pos _
  refine ⟨rfl, ⟨valid_eq_ok.2 ⟨rfl, rfl, fun hzero => ?_⟩, rfl, rfl⟩,
    validPrevious_eq_ok.1 hprevious⟩
  have := congrArg UInt64.toNat hzero
  rw [UInt64.toNat_ofNat', Nat.mod_eq_of_lt (by omega), UInt64.toNat_zero] at this
  omega

/-- Pages that are written one after the other form a chain to their facts. -/
theorem chain_witnesses {facts : List MemberFact} {next : Option PageCommitment}
    {pages : List Bytes} (h : witnesses B facts = .ok (next, pages)) :
    Chain B next pages facts := by
  induction facts generalizing next pages with
  | nil =>
    obtain ⟨rfl, rfl⟩ := Prod.mk.inj (Except.ok.inj h)
    exact .nil
  | cons fact facts ih =>
    obtain ⟨⟨previous, rest⟩, hrest, h⟩ := bind_eq_ok.1 h
    obtain ⟨⟨page, bytes⟩, hpage, h⟩ := bind_eq_ok.1 h
    obtain ⟨rfl, rfl⟩ := Prod.mk.inj (Except.ok.inj h)
    obtain ⟨rfl, hauth, hprevious⟩ := encodeWitness_eq_ok hpage
    exact .cons hauth hprevious (ih hrest)

end Mkit.Witness
