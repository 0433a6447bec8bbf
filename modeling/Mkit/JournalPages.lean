import Mkit.Evidence.Pages
import Mkit.Lib.Words

/-!
# Pages of Visited State

Closure verification keeps what it has visited in pages that the host retains
(`closure/journal.rs`): a page holds one record behind the commitment of the page before it in its
bucket. `decode_eq_ok_iff` is the grammar: a page decodes exactly when it is the encoding of a
valid record.
-/

namespace Mkit.Visited

open Evidence Wire

def MAX_PAGE_BYTES : ℕ := 1024

def DOMAIN : Bytes := ascii "mkit-closure-state:v1".toList

/-- What is known of a visited object. -/
inductive State where
  | gray
  | black
  | absent
  | member (fact : MemberFact)
deriving DecidableEq

/-- A visited-state record. -/
structure Record where
  kind : ObjectType
  canonicalLen : UInt64
  state : State
  blobPayloadLen : Option UInt64
deriving DecidableEq

def invalidResponse : Failure := failure .invalidResponse

def validCommitment (page : PageCommitment) : Except Failure Unit :=
  refuseIf (page.kind ≠ .closure ∨ page.items ≠ 1 ∨ page.len = 0 ∨
    MAX_PAGE_BYTES < page.len.toNat) invalidResponse

/-- A payload length that does not fit its record. -/
def payloadMisfits (record : Record) : Bool :=
  match record.blobPayloadLen with
  | none => false
  | some len => record.kind ≠ .blob ∨ Words.checkedSub record.canonicalLen 10 ≠ some len

/-- A member that is not the one of its record. -/
def memberMisfits (id : Hash) (record : Record) : Bool :=
  match record.state with
  | .member fact => fact.object ≠ id ∨ fact.kind ≠ record.kind ∨
      fact.canonicalLen ≠ record.canonicalLen
  | _ => false

def validateRecord (id : Hash) (record : Record) : Except Failure Unit := do
  refuseIf (payloadMisfits record) invalidResponse
  refuseIf (memberMisfits id record) invalidResponse

/-! ### Encoding -/

/-- An optional field behind its marker byte. -/
def optionWire {α : Type} (wire : α → Bytes) : Option α → Bytes
  | none => [0]
  | some a => [1] ++ wire a

def boolByte (b : Bool) : UInt8 :=
  if b then 1 else 0

def u64Wire (n : UInt64) : Bytes :=
  leBytes 8 n.toNat

def previousWire (page : PageCommitment) : Bytes :=
  page.digest.bytes ++ u64Wire page.len

def sourceWire (source : PackSource) : Bytes :=
  source.id.bytes ++ (u64Wire source.len ++ source.binding.bytes)

def memberWire (fact : MemberFact) : Bytes :=
  fact.repository.bytes ++ (fact.incarnation.bytes ++ (fact.object.bytes ++ ([fact.kind.toU8] ++
    (u64Wire fact.canonicalLen ++ (sourceWire fact.supplier ++ (fact.canonicalBinding.bytes ++
    (fact.revision.bytes ++ (leBytes 4 fact.deltaDepth.toNat ++
    ([boolByte fact.published] ++ [boolByte fact.held])))))))))

def stateWire : State → Bytes
  | .gray => [0]
  | .black => [1]
  | .absent => [2]
  | .member fact => [3] ++ memberWire fact

def recordWire (record : Record) : Bytes :=
  [record.kind.toU8] ++ (u64Wire record.canonicalLen ++
    (optionWire u64Wire record.blobPayloadLen ++ stateWire record.state))

/-- The bytes of a page. -/
def pageWire (previous : Option PageCommitment) (id : Hash) (record : Record) : Bytes :=
  [1] ++ (optionWire previousWire previous ++ (id.bytes ++ recordWire record))

/-- `valid_commitment` of the page before, if there is one. -/
def validPrevious : Option PageCommitment → Except Failure Unit
  | none => .ok ()
  | some page => validCommitment page

def encode (previous : Option PageCommitment) (id : Hash) (record : Record) :
    Except Failure Bytes := do
  validPrevious previous
  let out := pageWire previous id record
  refuseIf (MAX_PAGE_BYTES < out.length) (failure .resourceLimit)
  return out

/-! ### Decoding -/

def readByte : Parser Failure UInt8 :=
  byte invalidResponse

def readHash : Parser Failure Hash :=
  ByteArr.read invalidResponse HASH_LEN

def readNumber : Parser Failure UInt64 :=
  word invalidResponse 8 UInt64.ofNat

def boolOfByte : UInt8 → Except Failure Bool
  | 0 => .ok false
  | 1 => .ok true
  | _ => .error invalidResponse

def readBoolean : Parser Failure Bool := do
  let b ← readByte
  accept (boolOfByte b)

def kindOfByte : UInt8 → Except Failure ObjectType
  | 1 => .ok .blob
  | 2 => .ok .tree
  | 3 => .ok .commit
  | 4 => .ok .remix
  | 5 => .ok .chunkedBlob
  | 6 => .ok .delta
  | 7 => .ok .tag
  | _ => .error invalidResponse

def readKind : Parser Failure ObjectType := do
  let b ← readByte
  accept (kindOfByte b)

/-- An optional field behind its marker byte. -/
def readOption {α : Type} (read : Parser Failure α) : Parser Failure (Option α) := do
  if ← readBoolean then
    let a ← read
    return some a
  else return none

/-- The page before: its role and item count are fixed. -/
def readPrevious : Parser Failure PageCommitment := do
  let digest ← readHash
  let len ← readNumber
  accept (validCommitment ⟨digest, .closure, len, 1⟩)
  return ⟨digest, .closure, len, 1⟩

def readSource : Parser Failure PackSource := do
  let id ← readHash
  let len ← readNumber
  let binding ← readHash
  return ⟨id, len, binding⟩

def readMember : Parser Failure MemberFact := do
  let repository ← readHash
  let incarnation ← readHash
  let object ← readHash
  let kind ← readKind
  let canonicalLen ← readNumber
  let supplier ← readSource
  let canonicalBinding ← readHash
  let revision ← readHash
  let deltaDepth ← word invalidResponse 4 UInt32.ofNat
  let published ← readBoolean
  let held ← readBoolean
  return ⟨repository, incarnation, object, kind, canonicalLen, supplier, canonicalBinding,
    revision, deltaDepth, published, held⟩

def readState : Parser Failure State := do
  match ← readByte with
  | 0 => return .gray
  | 1 => return .black
  | 2 => return .absent
  | 3 => return .member (← readMember)
  | _ => throw invalidResponse

def readRecord : Parser Failure Record := do
  let kind ← readKind
  let canonicalLen ← readNumber
  let blobPayloadLen ← readOption readNumber
  let state ← readState
  return ⟨kind, canonicalLen, state, blobPayloadLen⟩

def readPage : Parser Failure (Option PageCommitment × Hash × Record) := do
  let version ← readByte
  if version ≠ 1 then throw invalidResponse
  let previous ← readOption readPrevious
  let id ← readHash
  let record ← readRecord
  return (previous, id, record)

def decode (bytes : Bytes) : Except Failure (Option PageCommitment × Hash × Record) := do
  refuseIf (MAX_PAGE_BYTES < bytes.length) invalidResponse
  let (page, rest) ← readPage bytes
  refuseIf (rest ≠ []) invalidResponse
  validateRecord page.2.1 page.2.2
  return page

/-! ### The grammar -/

theorem validCommitment_eq_ok {page : PageCommitment} :
    validCommitment page = .ok () ↔ page.kind = .closure ∧ page.items = 1 ∧ page.len ≠ 0 ∧
      page.len.toNat ≤ MAX_PAGE_BYTES := by
  rw [validCommitment, refuseIf_eq_ok]
  simp only [not_or, not_not, not_lt]

/-- A byte that stands for a value. -/
theorem parses_enum {α : Type} {f : UInt8 → Except Failure α} {toByte : α → UInt8}
    (h : ∀ b a, f b = .ok a ↔ b = toByte a) :
    Parses (do let b ← readByte; accept (f b)) (fun a bs => bs = [toByte a]) := by
  refine ((Parses.byte _).bind fun b => Parses.accept (f b)).congr fun a bs => ?_
  constructor
  · rintro ⟨b, _, _, rfl, ⟨hb, rfl⟩, rfl⟩
    rw [(h b a).1 hb, List.append_nil]
  · rintro rfl
    exact ⟨toByte a, _, _, rfl, ⟨(h _ a).2 rfl, rfl⟩, (List.append_nil _).symm⟩

theorem boolOfByte_eq_ok (b : UInt8) (a : Bool) : boolOfByte b = .ok a ↔ b = boolByte a := by
  constructor
  · intro h
    unfold boolOfByte at h
    split at h <;> cases h <;> rfl
  · rintro rfl
    cases a <;> rfl

theorem kindOfByte_eq_ok (b : UInt8) (a : ObjectType) : kindOfByte b = .ok a ↔ b = a.toU8 := by
  constructor
  · intro h
    unfold kindOfByte at h
    split at h <;> cases h <;> rfl
  · rintro rfl
    cases a <;> rfl

theorem parses_readBoolean : Parses readBoolean (fun a bs => bs = [boolByte a]) :=
  parses_enum boolOfByte_eq_ok

theorem parses_readKind : Parses readKind (fun a bs => bs = [a.toU8]) :=
  parses_enum kindOfByte_eq_ok

theorem parses_readHash : Parses readHash (fun a bs => bs = a.bytes) :=
  ByteArr.parses_read _ _

theorem parses_readNumber : Parses readNumber (fun a bs => bs = u64Wire a) :=
  Parses.word64 _

theorem parses_readOption {α : Type} {read : Parser Failure α} {V : α → Prop} {w : α → Bytes}
    (h : Parses read (fun a bs => V a ∧ bs = w a)) :
    Parses (readOption read) (fun o bs => (∀ a ∈ o, V a) ∧ bs = optionWire w o) := by
  refine (parses_readBoolean.bind fun marked => Parses.ite
    (h.bind fun a => Parses.pure (some a)) (Parses.pure none)).congr fun o bs => ?_
  constructor
  · rintro ⟨marked, _, _, rfl, ⟨hmarked, a, _, _, ⟨ha, rfl⟩, ⟨rfl, rfl⟩, rfl⟩ |
      ⟨hmarked, rfl, rfl⟩, rfl⟩
    · rw [hmarked]
      exact ⟨fun b hb => Option.some.inj hb ▸ ha, by rw [List.append_nil]; rfl⟩
    · rw [Bool.not_eq_true] at hmarked
      rw [hmarked]
      exact ⟨fun b hb => absurd hb (by simp), rfl⟩
  · rintro ⟨hvalid, rfl⟩
    cases o with
    | none => exact ⟨false, _, _, rfl, .inr ⟨by simp, rfl, rfl⟩, rfl⟩
    | some a =>
      exact ⟨true, _, _, rfl, .inl ⟨rfl, a, _, _, ⟨hvalid a rfl, rfl⟩, ⟨rfl, rfl⟩, rfl⟩,
        by rw [List.append_nil]; rfl⟩

theorem parses_readPrevious :
    Parses readPrevious (fun p bs => validCommitment p = .ok () ∧ bs = previousWire p) := by
  refine (parses_readHash.bind fun digest => parses_readNumber.bind fun len =>
    (Parses.accept _).bind fun _ => Parses.pure _).congr fun p bs => ?_
  constructor
  · rintro ⟨digest, _, _, rfl, ⟨len, _, _, rfl, ⟨_, _, _, ⟨hvalid, rfl⟩, ⟨rfl, rfl⟩, rfl⟩, rfl⟩,
      rfl⟩
    exact ⟨hvalid, by simp [previousWire]⟩
  · rintro ⟨hvalid, rfl⟩
    obtain ⟨hkind, hitems, -⟩ := validCommitment_eq_ok.1 hvalid
    obtain ⟨digest, kind, len, items⟩ := p
    dsimp only at hkind hitems
    subst hkind hitems
    exact ⟨digest, _, _, rfl, ⟨len, _, _, rfl, ⟨(), _, _, ⟨hvalid, rfl⟩, ⟨rfl, rfl⟩, rfl⟩, rfl⟩,
      by simp [previousWire]⟩

theorem parses_readSource : Parses readSource (fun a bs => bs = sourceWire a) := by
  refine (parses_readHash.bind fun id => parses_readNumber.bind fun len =>
    parses_readHash.bind fun binding => Parses.pure _).congr fun a bs => ?_
  constructor
  · rintro ⟨id, _, _, rfl, ⟨len, _, _, rfl, ⟨binding, _, _, rfl, ⟨rfl, rfl⟩, rfl⟩, rfl⟩, rfl⟩
    rw [sourceWire, List.append_nil]
  · rintro rfl
    exact ⟨a.id, _, _, rfl, ⟨a.len, _, _, rfl, ⟨a.binding, _, _, rfl, ⟨rfl, rfl⟩, rfl⟩, rfl⟩,
      by rw [sourceWire, List.append_nil]⟩

theorem parses_readMember : Parses readMember (fun a bs => bs = memberWire a) := by
  refine (parses_readHash.bind fun repository => parses_readHash.bind fun incarnation =>
    parses_readHash.bind fun object => parses_readKind.bind fun kind =>
    parses_readNumber.bind fun canonicalLen => parses_readSource.bind fun supplier =>
    parses_readHash.bind fun canonicalBinding => parses_readHash.bind fun revision =>
    (Parses.word32 _).bind fun deltaDepth => parses_readBoolean.bind fun published =>
    parses_readBoolean.bind fun held => Parses.pure _).congr fun a bs => ?_
  constructor
  · rintro ⟨repository, _, _, rfl, ⟨incarnation, _, _, rfl, ⟨object, _, _, rfl, ⟨kind, _, _, rfl,
      ⟨canonicalLen, _, _, rfl, ⟨supplier, _, _, rfl, ⟨canonicalBinding, _, _, rfl, ⟨revision, _, _,
      rfl, ⟨deltaDepth, _, _, rfl, ⟨published, _, _, rfl, ⟨held, _, _, rfl, ⟨rfl, rfl⟩, rfl⟩, rfl⟩,
      rfl⟩, rfl⟩, rfl⟩, rfl⟩, rfl⟩, rfl⟩, rfl⟩, rfl⟩, rfl⟩
    rw [memberWire, List.append_nil]
  · rintro rfl
    exact ⟨a.repository, _, _, rfl, ⟨a.incarnation, _, _, rfl, ⟨a.object, _, _, rfl, ⟨a.kind, _, _,
      rfl, ⟨a.canonicalLen, _, _, rfl, ⟨a.supplier, _, _, rfl, ⟨a.canonicalBinding, _, _, rfl,
      ⟨a.revision, _, _, rfl, ⟨a.deltaDepth, _, _, rfl, ⟨a.published, _, _, rfl, ⟨a.held, _, _, rfl,
      ⟨rfl, rfl⟩, rfl⟩, rfl⟩, rfl⟩, rfl⟩, rfl⟩, rfl⟩, rfl⟩, rfl⟩, rfl⟩, rfl⟩,
      by rw [memberWire, List.append_nil]⟩

theorem parses_readState : Parses readState (fun a bs => bs = stateWire a) := by
  have hpure : ∀ (tag : UInt8) (state : State), stateWire state = [tag] →
      (∀ a bs, [tag] ++ bs = stateWire a → a = state) →
      Parses (pure state : Parser Failure State) (fun a bs => [tag] ++ bs = stateWire a) := by
    intro tag state hwire honly
    refine (Parses.pure state).congr fun a bs => ?_
    constructor
    · rintro ⟨rfl, rfl⟩
      exact hwire.symm
    · intro h
      obtain rfl := honly a bs h
      rw [hwire] at h
      exact ⟨rfl, List.append_right_eq_self.1 h⟩
  refine (Parses.bind (S := fun tag a bs => [tag] ++ bs = stateWire a) (Parses.byte _)
    fun tag => ?_).congr fun a bs => ?_
  · split
    · exact hpure 0 .gray rfl fun a bs h => by cases a <;> cases h; rfl
    · exact hpure 1 .black rfl fun a bs h => by cases a <;> cases h; rfl
    · exact hpure 2 .absent rfl fun a bs h => by cases a <;> cases h; rfl
    · refine (parses_readMember.bind fun fact => Parses.pure _).congr fun a bs => ?_
      constructor
      · rintro ⟨fact, _, _, rfl, ⟨rfl, rfl⟩, rfl⟩
        rw [List.append_nil]
        rfl
      · intro h
        cases a with
        | member fact => exact ⟨fact, _, _, rfl, ⟨rfl, rfl⟩, by simpa [stateWire] using h⟩
        | _ => cases h
    · rename_i h0 h1 h2 h3
      refine (Parses.throw _).congr fun a bs => iff_of_false id fun h => ?_
      cases a with
      | gray => exact h0 (List.cons.inj h).1
      | black => exact h1 (List.cons.inj h).1
      | absent => exact h2 (List.cons.inj h).1
      | member fact => exact h3 (List.cons.inj h).1
  · constructor
    · rintro ⟨tag, _, v, rfl, hstate, rfl⟩
      exact hstate
    · rintro rfl
      cases a with
      | gray => exact ⟨0, [0], [], rfl, rfl, rfl⟩
      | black => exact ⟨1, [1], [], rfl, rfl, rfl⟩
      | absent => exact ⟨2, [2], [], rfl, rfl, rfl⟩
      | member fact => exact ⟨3, [3], memberWire fact, rfl, rfl, rfl⟩

theorem parses_readRecord : Parses readRecord (fun a bs => bs = recordWire a) := by
  have hpayload : Parses readNumber (fun a bs => True ∧ bs = u64Wire a) :=
    parses_readNumber.congr fun a bs => by rw [true_and]
  refine (parses_readKind.bind fun kind => parses_readNumber.bind fun canonicalLen =>
    (parses_readOption hpayload).bind fun blobPayloadLen =>
    parses_readState.bind fun state => Parses.pure _).congr fun a bs => ?_
  constructor
  · rintro ⟨kind, _, _, rfl, ⟨canonicalLen, _, _, rfl, ⟨blobPayloadLen, _, _, ⟨-, rfl⟩,
      ⟨state, _, _, rfl, ⟨rfl, rfl⟩, rfl⟩, rfl⟩, rfl⟩, rfl⟩
    rw [recordWire, List.append_nil]
  · rintro rfl
    exact ⟨a.kind, _, _, rfl, ⟨a.canonicalLen, _, _, rfl, ⟨a.blobPayloadLen, _, _,
      ⟨fun _ _ => trivial, rfl⟩, ⟨a.state, _, _, rfl, ⟨rfl, rfl⟩, rfl⟩, rfl⟩, rfl⟩,
      by rw [recordWire, List.append_nil]⟩

theorem parses_readPage : Parses readPage (fun a bs => (∀ p ∈ a.1, validCommitment p = .ok ()) ∧
      bs = pageWire a.1 a.2.1 a.2.2) := by
  refine ((Parses.byte _).bind fun version => Parses.check
    ((parses_readOption parses_readPrevious).bind fun previous => parses_readHash.bind fun id =>
    parses_readRecord.bind fun record => Parses.pure _)).congr fun a bs => ?_
  constructor
  · rintro ⟨version, _, _, rfl, ⟨hversion, previous, _, _, ⟨hprevious, rfl⟩, ⟨id, _, _, rfl,
      ⟨record, _, _, rfl, ⟨rfl, rfl⟩, rfl⟩, rfl⟩, rfl⟩, rfl⟩
    rw [not_not.1 hversion]
    exact ⟨hprevious, by rw [pageWire, List.append_nil]⟩
  · rintro ⟨hprevious, rfl⟩
    exact ⟨1, _, _, rfl, ⟨not_not.2 rfl, a.1, _, _, ⟨hprevious, rfl⟩, ⟨a.2.1, _, _, rfl,
      ⟨a.2.2, _, _, rfl, ⟨rfl, rfl⟩, rfl⟩, rfl⟩, rfl⟩, by rw [pageWire, List.append_nil]⟩

/-! ### The codec -/

theorem length_optionWire_le {α : Type} {w : α → Bytes} {n : ℕ} (h : ∀ a, (w a).length ≤ n)
    (o : Option α) : (optionWire w o).length ≤ n + 1 := by
  cases o with
  | none => exact Nat.le_add_left _ _
  | some a =>
    have := h a
    simp only [optionWire, List.length_append, List.length_singleton]
    omega

/-- A page is never too long. -/
theorem length_pageWire_le (previous : Option PageCommitment) (id : Hash) (record : Record) :
    (pageWire previous id record).length ≤ MAX_PAGE_BYTES := by
  have hprevious := length_optionWire_le (w := previousWire) (n := 40)
    (fun p => by simp [previousWire, u64Wire, HASH_LEN]) previous
  have hpayload := length_optionWire_le (w := u64Wire) (n := 8)
    (fun n => by simp [u64Wire]) record.blobPayloadLen
  have hstate : (stateWire record.state).length ≤ 280 := by
    cases record.state <;> simp [stateWire, memberWire, sourceWire, u64Wire, HASH_LEN]
  simp only [pageWire, recordWire, List.length_append, List.length_singleton,
    ByteArr.length_bytes, HASH_LEN, u64Wire, length_leBytes, MAX_PAGE_BYTES] at hpayload ⊢
  omega

theorem pageWire_ne_nil (previous : Option PageCommitment) (id : Hash) (record : Record) :
    pageWire previous id record ≠ [] :=
  List.cons_ne_nil _ _

theorem validPrevious_eq_ok {previous : Option PageCommitment} :
    validPrevious previous = .ok () ↔ ∀ p ∈ previous, validCommitment p = .ok () := by
  cases previous with
  | none => simp [validPrevious]
  | some page => simp [validPrevious]

theorem encode_eq_ok {previous : Option PageCommitment} {id : Hash} {record : Record}
    {bytes : Bytes} : encode previous id record = .ok bytes ↔
      (∀ p ∈ previous, validCommitment p = .ok ()) ∧ pageWire previous id record = bytes := by
  rw [encode, Wire.bind_eq_ok]
  have hlen := length_pageWire_le previous id record
  simp only [refuseIf_bind_eq_ok, ← validPrevious_eq_ok]
  constructor
  · rintro ⟨_, hprevious, -, h⟩
    exact ⟨hprevious, Except.ok.inj h⟩
  · rintro ⟨hprevious, rfl⟩
    exact ⟨(), hprevious, not_lt.2 hlen, rfl⟩

/-- **The page grammar.** A page decodes exactly when it is the encoding of a valid record. -/
theorem decode_eq_ok_iff {bytes : Bytes} {previous : Option PageCommitment} {id : Hash}
    {record : Record} : decode bytes = .ok (previous, id, record) ↔
      encode previous id record = .ok bytes ∧ validateRecord id record = .ok () := by
  rw [encode_eq_ok, decode]
  simp only [Wire.bind_eq_ok, refuseIf_eq_ok, Prod.exists]
  constructor
  · rintro ⟨_, -, previous', id', record', rest, hread, _, hrest, _, hvalid, h⟩
    obtain ⟨rfl, rfl, rfl⟩ : previous' = previous ∧ id' = id ∧ record' = record := by
      simpa using Except.ok.inj h
    obtain ⟨_, ⟨hprevious, rfl⟩, rfl⟩ := (parses_readPage _ _ _).1 hread
    rw [not_not.1 hrest, List.append_nil]
    exact ⟨⟨hprevious, rfl⟩, hvalid⟩
  · rintro ⟨⟨hprevious, rfl⟩, hvalid⟩
    refine ⟨(), not_lt.2 (length_pageWire_le _ _ _), previous, id, record, [], ?_, (),
      not_not.2 rfl, (), hvalid, rfl⟩
    exact (parses_readPage _ (previous, id, record) _).2
      ⟨_, ⟨hprevious, rfl⟩, (List.append_nil _).symm⟩

end Mkit.Visited
