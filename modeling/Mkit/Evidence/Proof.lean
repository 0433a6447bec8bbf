import Mkit.Evidence.PageSpec

/-!
# Path Proofs

A lookup is authenticated by the pages on the way from a root commitment to the leaf a key is
routed to. `verifyPath` reads them from one byte string on one budget, without keeping the
pages it has passed: at every level it carries the expected commitment and height and the
half-open interval of keys the level answers for.

`walkPath_eq_ok` says what a path that is accepted looks like; for a tree built with the page
encoders it is the way to the one leaf that could hold the key.
-/

namespace Mkit.Evidence

open Metered

/-- An authenticated result under one root, binding and key. -/
structure Lookup where
  root : PageCommitment
  binding : EvidenceBinding
  key : Hash
  value : Option Bytes
deriving DecidableEq

def PATH_MAGIC : Bytes := ascii ['M', 'K', 'P', 'F']

/-- The bytes before the first framed page. -/
def PATH_HEADER_BYTES : ℕ := 89

/-- Read the header of a path of `len` bytes: the number of pages and the bytes that frame
them. -/
def readPathHeader (limits : EvidenceLimits) (root : PageCommitment) (query : Hash) (len : ℕ) :
    Cursor (UInt16 × Bytes) := do
  let magic ← array 4
  refuse (magic.bytes ≠ PATH_MAGIC) .invalidEvidence
  let version ← u16
  refuse (version ≠ 1) .unsupportedEvidenceVersion
  let commitment ← readCommitment
  refuse (commitment ≠ root) .evidenceMismatch
  let key ← array HASH_LEN
  refuse (key ≠ query) .evidenceMismatch
  let count ← u16
  refuse (limits.proofPages.toNat < count.toNat) .resourceLimit
  refuse (count.toNat = 0 ∨ 33 < count.toNat) .invalidEvidence
  refuse (len < PATH_HEADER_BYTES) .unexpectedEof
  let body ← takeBytes (len - PATH_HEADER_BYTES)
  return (count, body)

/-- One framed page. -/
def readFrame : Cursor Bytes := do
  let len ← u32
  takeBytes len.toNat

/-- What the next page of a path has to satisfy. -/
structure Level where
  expected : PageCommitment
  height : Option UInt8
  lower : Option Hash
  upper : Option Hash
deriving DecidableEq

/-- The value of the query among the records of a leaf, all of them inside the interval. -/
def leafValue (query : Hash) (lower upper : Option Hash) :
    Option Bytes → List LeafRecord → Except Failure (Option Bytes)
  | value, [] => .ok value
  | value, record :: rest => do
    refuseIf (outsideInterval lower upper record.key) invalidEvidence
    leafValue query lower upper (if record.key = query then some record.value else value) rest

/-- A route that leaves the inherited interval. -/
def leavesInterval (level : Level) (route : Route) : Prop :=
  (∃ low ∈ route.lower, ∃ bound ∈ level.lower, low < bound) ∨
    ∃ high ∈ route.upper, ∃ bound ∈ level.upper, bound < high

instance (level : Level) (route : Route) : Decidable (leavesInterval level route) :=
  inferInstanceAs (Decidable (_ ∨ _))

/-- The level below a branch of the given height. -/
def Level.descend (level : Level) (height : UInt8) (route : Route) : Level :=
  ⟨route.child, if height = 0 then none else some (height - 1), route.lower.or level.lower,
    route.upper.or level.upper⟩

/-- Authenticate the framed pages one by one. -/
def walkPath (B : Blake3) (binding : EvidenceBinding) (query : Hash) (limits : EvidenceLimits) :
    ℕ → Bytes → Level → ℕ → Except Failure (Option Bytes)
  | 0, _, _, _ => .error (failure .unavailableInput)
  | left + 1, remaining, level, work => do
    let (pageBytes, remaining, work) ← readFrame (remaining, work)
    let (page, work) ← decode pageBytes binding limits work
    let work ← page.authenticate B level.expected work
    refuseIf (∃ height ∈ level.height, page.height ≠ height) invalidEvidence
    if page.height = 0 then do
      refuseIf (left ≠ 0 ∨ remaining ≠ []) (failure .trailingData)
      let records ← page.records
      leafValue query level.lower level.upper none records
    else do
      let (route, work) ← page.route query level.lower level.upper work
      refuseIf (leavesInterval level route) invalidEvidence
      walkPath B binding query limits left remaining (level.descend page.height route) work

/-- Authenticate a complete path to the correctly routed leaf. -/
def verifyPath (B : Blake3) (bytes : Bytes) (binding : EvidenceBinding) (root : PageCommitment)
    (query : Hash) (limits : EvidenceLimits) : Except Failure Lookup := do
  refuseIf (limits.proofBytes.toNat < bytes.length) resourceLimit
  let work ← chargeWork limits.work.toNat bytes.length
  let ((count, body), work) ← complete (failure .trailingData)
    (readPathHeader limits root query bytes.length) bytes work
  let value ← walkPath B binding query limits count.toNat body ⟨root, none, none, none⟩ work
  return ⟨root, binding, query, value⟩

/-- A page with its length in front. -/
def writeFrame (page : Bytes) : Bytes :=
  Wire.leBytes 4 page.length ++ page

/-- The path that frames the given pages. -/
def encodePath (root : PageCommitment) (query : Hash) (pages : List Bytes) : Bytes :=
  PATH_MAGIC ++ Wire.leBytes 2 1 ++ writeCommitment root ++ query.bytes ++
    Wire.leBytes 2 pages.length ++ pages.flatMap writeFrame

/-! ### Framing -/

theorem meters_readFrame :
    Meters readFrame (fun a bs m => a.length < 2 ^ 32 ∧ bs = writeFrame a ∧ m = 2) := by
  refine Meters.congr (r := readFrame) (meters_u32.field fun len => meters_takeBytes _)
    fun a bs m => ?_
  constructor
  · rintro ⟨len, _, _, ⟨rfl, hlen, rfl⟩, rfl, rfl⟩
    refine ⟨?_, by rw [writeFrame, hlen], rfl⟩
    rw [hlen]
    exact len.toNat_lt
  · rintro ⟨hlen, rfl, rfl⟩
    have hword : (UInt32.ofNat a.length).toNat = a.length := by
      rw [UInt32.toNat_ofNat', Nat.mod_eq_of_lt hlen]
    exact ⟨UInt32.ofNat a.length, a, 1, ⟨rfl, hword.symm, rfl⟩, by rw [writeFrame, hword], rfl⟩

/-- The header of a path is the encoding of its fields. -/
theorem meters_readPathHeader (limits : EvidenceLimits) (root : PageCommitment) (query : Hash)
    (len : ℕ) : Meters (readPathHeader limits root query len) (fun x bs m =>
      x.1.toNat ≤ limits.proofPages.toNat ∧ x.1.toNat ≠ 0 ∧ x.1.toNat ≤ 33 ∧
      PATH_HEADER_BYTES ≤ len ∧ x.2.length = len - PATH_HEADER_BYTES ∧
      bs = PATH_MAGIC ++ Wire.leBytes 2 1 ++ writeCommitment root ++ query.bytes ++
        Wire.leBytes 2 x.1.toNat ++ x.2 ∧ m = 9) := by
  refine Meters.congr (r := readPathHeader limits root query len) ((meters_array 4).field
    fun magic => (meters_refuse _ _).check fun _ => meters_u16.field fun version =>
    (meters_refuse _ _).check fun _ => meters_readCommitment.field fun commitment =>
    (meters_refuse _ _).check fun _ => (meters_array HASH_LEN).field fun key =>
    (meters_refuse _ _).check fun _ => meters_u16.field fun count =>
    (meters_refuse _ _).check fun _ => (meters_refuse _ _).check fun _ =>
    (meters_refuse _ _).check fun _ => (meters_takeBytes _).bind fun body => Meters.pure _)
    fun x bs m => ?_
  simp only [not_not, not_or, not_lt]
  constructor
  · rintro ⟨magic, _, _, ⟨hmagic, version, _, _, ⟨rfl, commitment, _, _, ⟨rfl, key, _, _, ⟨rfl,
      count, _, _, ⟨hpages, ⟨hzero, hmax⟩, hlen, body, _, _, _, _, ⟨rfl, hbody, rfl⟩,
      ⟨rfl, rfl, rfl⟩, rfl, rfl⟩, rfl, rfl⟩, rfl, rfl⟩, rfl, rfl⟩, rfl, rfl⟩, rfl, rfl⟩
    exact ⟨hpages, hzero, hmax, hlen, hbody, by simp [hmagic], rfl⟩
  · obtain ⟨count, body⟩ := x
    rintro ⟨hpages, hzero, hmax, hlen, hbody, rfl, rfl⟩
    refine ⟨⟨PATH_MAGIC, rfl⟩, _, _, ⟨rfl, 1, _, _, ⟨rfl, root, _, _, ⟨rfl, query, _, _, ⟨rfl,
      count, _, _, ⟨hpages, ⟨hzero, hmax⟩, hlen, body, body, [], _, _, ⟨rfl, hbody, rfl⟩,
      ⟨rfl, rfl, rfl⟩, rfl, rfl⟩, rfl, rfl⟩, rfl, rfl⟩, rfl, rfl⟩, rfl, rfl⟩, ?_, rfl⟩
    simp

/-! ### Accepted paths -/

/-- The value of a key among records. -/
def valueOf (key : Hash) (records : List LeafRecord) : Option Bytes :=
  (records.find? (·.key = key)).map (·.value)

theorem valueOf_cons {key : Hash} {r : LeafRecord} {records : List LeafRecord} :
    valueOf key (r :: records) = if r.key = key then some r.value else valueOf key records := by
  rw [valueOf, List.find?_cons]
  by_cases hkey : r.key = key
  · simp [hkey]
  · simp [hkey, valueOf]

theorem valueOf_eq_none {key : Hash} {records : List LeafRecord}
    (h : ∀ r ∈ records, r.key ≠ key) : valueOf key records = none := by
  rw [valueOf, Option.map_eq_none_iff, List.find?_eq_none]
  simpa using h

/-- Of distinct keys, the value found is the one recorded. -/
theorem valueOf_eq_some {key : Hash} {value : Bytes} {records : List LeafRecord}
    (h : (records.map (·.key)).Nodup) :
    valueOf key records = some value ↔ ⟨key, value⟩ ∈ records := by
  induction records with
  | nil => simp [valueOf]
  | cons r records ih =>
    rw [List.map_cons, List.nodup_cons] at h
    rw [valueOf_cons, List.mem_cons]
    by_cases hkey : r.key = key
    · rw [if_pos hkey, Option.some.injEq]
      constructor
      · rintro rfl
        exact .inl (by rw [← hkey])
      · rintro (rfl | hmem)
        · rfl
        · exact absurd (List.mem_map_of_mem hmem) (hkey ▸ h.1)
    · rw [if_neg hkey, ih h.2]
      constructor
      · exact .inr
      · rintro (rfl | hmem)
        · exact absurd rfl hkey
        · exact hmem

/-- A leaf in order answers with its value of the query, when all of its keys lie in the
interval. -/
theorem leafValue_eq_ok {query : Hash} {lower upper : Option Hash} {value result : Option Bytes}
    {records : List LeafRecord} (h : (records.map (·.key)).Pairwise (· < ·)) :
    leafValue query lower upper value records = .ok result ↔
      (∀ r ∈ records, ¬ outsideInterval lower upper r.key) ∧
        result = (valueOf query records).or value := by
  induction records generalizing value with
  | nil => simp [leafValue, valueOf, eq_comm]
  | cons r records ih =>
    rw [List.map_cons, List.pairwise_cons] at h
    simp only [leafValue, refuseIf_bind_eq_ok, ih h.2, List.forall_mem_cons, and_assoc]
    refine and_congr_right fun _ => and_congr_right fun _ => ?_
    rw [valueOf_cons]
    by_cases hkey : r.key = query
    · have hrest : valueOf query records = none := by
        refine valueOf_eq_none fun r' hr' heq => ?_
        have hlt := h.1 _ (List.mem_map_of_mem hr')
        exact absurd (hkey.trans heq.symm) hlt.ne
      simp [hkey, hrest]
    · simp [hkey]

/-- The bounds of a route are separators it has passed. -/
theorem routeOf_bounds (key : Hash) (child : PageCommitment) (low : Option Hash)
    (rest : List BranchChild) : ((routeOf key child low rest).lower = low ∨
      ∃ c ∈ rest, (routeOf key child low rest).lower = some c.separator) ∧
    ((routeOf key child low rest).upper = none ∨
      ∃ c ∈ rest, (routeOf key child low rest).upper = some c.separator) := by
  induction rest generalizing child low with
  | nil => exact ⟨.inl rfl, .inl rfl⟩
  | cons c rest ih =>
    rw [routeOf]
    split_ifs with hkey
    · exact ⟨.inl rfl, .inr ⟨c, List.mem_cons_self, rfl⟩⟩
    · obtain ⟨hlower, hupper⟩ := ih c.child (some c.separator)
      refine ⟨.inr ?_, hupper.imp_right ?_⟩
      · obtain hlower | ⟨c', hc', hlower⟩ := hlower
        · exact ⟨c, List.mem_cons_self, hlower⟩
        · exact ⟨c', List.mem_cons_of_mem _ hc', hlower⟩
      · rintro ⟨c', hc', hupper⟩
        exact ⟨c', List.mem_cons_of_mem _ hc', hupper⟩

/-- Separators inside the interval never route out of it. -/
theorem not_leavesInterval {level : Level} {key : Hash} {first : PageCommitment}
    {rest : List BranchChild}
    (h : ∀ c ∈ rest, ¬ outsideInterval level.lower level.upper c.separator) :
    ¬ leavesInterval level (routeOf key first none rest) := by
  obtain ⟨hlower, hupper⟩ := routeOf_bounds key first none rest
  rintro (⟨low, hlow, bound, hbound, hlt⟩ | ⟨high, hhigh, bound, hbound, hlt⟩)
  · obtain hnone | ⟨c, hc, hsome⟩ := hlower
    · rw [hnone] at hlow
      cases hlow
    · obtain rfl : c.separator = low := by simpa [hsome] using hlow
      exact h c hc (.inl ⟨bound, hbound, hlt⟩)
  · obtain hnone | ⟨c, hc, hsome⟩ := hupper
    · rw [hnone] at hhigh
      cases hhigh
    · obtain rfl : c.separator = high := by simpa [hsome] using hhigh
      exact h c hc (.inr ⟨bound, hbound, hlt.le⟩)

section Paths

variable (B : Blake3) (binding : EvidenceBinding) (query : Hash) (limits : EvidenceLimits)

/-- The pages lead from a level to the value of the query at the routed leaf. -/
def Leads : List Page → Level → Option Bytes → Prop
  | [], _, _ => False
  | p :: rest, level, value =>
    p.Ok binding limits ∧ p.commitment B binding = level.expected ∧
    (∀ height ∈ level.height, p.height = height) ∧
    match p.body with
    | .leaf records => rest = [] ∧
        (∀ r ∈ records, ¬ outsideInterval level.lower level.upper r.key) ∧
        value = valueOf query records
    | .branch first children =>
      (∀ c ∈ children, ¬ outsideInterval level.lower level.upper c.separator) ∧
      Leads rest (level.descend p.height (routeOf query first none children)) value

/-- The takes of routing a key through a page. -/
def PageBody.routePrice : PageBody → ℕ
  | .leaf _ => 0
  | .branch _ rest => 4 + 5 * rest.length

/-- The work of one page of a path: its frame, decoding, hashing and routing. -/
def pagePrice (p : Page) : ℕ :=
  2 + ((p.bytes binding).length + (13 + p.body.price)) + (p.bytes binding).length +
    p.body.routePrice

variable {B binding query limits}

/-- One page of the walk: it decodes, has the expected commitment and height, and is either the
last leaf or routes the query to the next page. -/
theorem walkPath_succ {count : ℕ} {remaining : Bytes} {level : Level} {work : ℕ}
    {value : Option Bytes} :
    walkPath B binding query limits (count + 1) remaining level work = .ok value ↔
      ∃ (p : Page) (rest : Bytes) (left : ℕ), p.Ok binding limits ∧
        p.commitment B binding = level.expected ∧ (∀ height ∈ level.height, p.height = height) ∧
        remaining = writeFrame (p.bytes binding) ++ rest ∧ work = pagePrice binding p + left ∧
        match p.body with
        | .leaf records => count = 0 ∧ rest = [] ∧
            (∀ r ∈ records, ¬ outsideInterval level.lower level.upper r.key) ∧
            value = valueOf query records
        | .branch first children =>
            (∀ c ∈ children, ¬ outsideInterval level.lower level.upper c.separator) ∧
            walkPath B binding query limits count rest
              (level.descend p.height (routeOf query first none children)) left = .ok value := by
  have hframe := fun r w a rest left => meters_readFrame r w a rest left
  simp only [walkPath, Wire.bind_eq_ok, Prod.exists, hframe, decode_eq_ok]
  constructor
  · rintro ⟨bytes, rest, afterFrame, ⟨_, _, ⟨hlen, rfl, rfl⟩, rfl, rfl⟩, page, afterDecode,
      ⟨⟨kind, height, body⟩, hok, rfl, rfl, rfl⟩, afterHash, hauthenticate, ⟨⟩, hheight, h⟩
    obtain ⟨hexpected, rfl⟩ := Page.authenticate_eq_ok.1 hauthenticate
    have hheight' : ∀ h' ∈ level.height, height = h' := by
      simpa [Page.view] using hheight
    cases body with
    | leaf records =>
      have hzero : (Page.view binding ⟨kind, height, .leaf records⟩).height = 0 := hok.body.1
      rw [if_pos hzero, Page.records_leaf hok] at h
      simp only [refuseIf_bind_eq_ok, not_or, not_not] at h
      obtain ⟨⟨hlast, hrest⟩, hleaf⟩ := h
      obtain ⟨hinside, rfl⟩ := (leafValue_eq_ok hok.body.2.ascends).1 hleaf
      refine ⟨⟨kind, height, .leaf records⟩, rest, afterHash, hok, hexpected, hheight', rfl, ?_,
        hlast, hrest, hinside, Option.or_none⟩
      simp only [pagePrice, PageBody.routePrice]
      omega
    | branch first children =>
      have hzero : ¬ (Page.view binding ⟨kind, height, .branch first children⟩).height = 0 :=
        hok.body.1
      rw [if_neg hzero] at h
      simp only [Wire.bind_eq_ok, Prod.exists, Page.route_eq_ok hok, refuseIf_eq_ok] at h
      obtain ⟨route, left, ⟨hinside, rfl, rfl⟩, ⟨⟩, -, hwalk⟩ := h
      refine ⟨⟨kind, height, .branch first children⟩, rest, left, hok, hexpected, hheight', rfl,
        ?_, hinside, hwalk⟩
      simp only [pagePrice, PageBody.routePrice]
      omega
  · rintro ⟨⟨kind, height, body⟩, rest, left, hok, hexpected, hheight, rfl, rfl, hbody⟩
    have hheight' : ¬ ∃ h' ∈ level.height,
        (Page.view binding ⟨kind, height, body⟩).height ≠ h' := by
      simpa [Page.view] using hheight
    have hwork : pagePrice binding ⟨kind, height, body⟩ + left =
        2 + ((Page.bytes binding ⟨kind, height, body⟩).length + (13 + body.price) +
          ((Page.bytes binding ⟨kind, height, body⟩).length + (body.routePrice + left))) := by
      simp only [pagePrice]
      omega
    refine ⟨_, rest, _, ⟨_, 2, ⟨hok.length_lt, rfl, rfl⟩, rfl, hwork⟩, _, _, ⟨_, hok, rfl, rfl, rfl⟩, _,
      Page.authenticate_eq_ok.2 ⟨hexpected, rfl⟩, (), refuseIf_eq_ok.2 hheight', ?_⟩
    cases body with
    | leaf records =>
      obtain ⟨hlast, hrest, hinside, rfl⟩ := hbody
      have hzero : (Page.view binding ⟨kind, height, .leaf records⟩).height = 0 := hok.body.1
      rw [if_pos hzero, Page.records_leaf hok]
      refine refuseIf_bind_eq_ok.2 ⟨by simp [hlast, hrest], ?_⟩
      exact (leafValue_eq_ok hok.body.2.ascends).2 ⟨hinside, Option.or_none.symm⟩
    | branch first children =>
      obtain ⟨hinside, hwalk⟩ := hbody
      have hzero : ¬ (Page.view binding ⟨kind, height, .branch first children⟩).height = 0 :=
        hok.body.1
      rw [if_neg hzero]
      refine Wire.bind_eq_ok.2 ⟨(routeOf query first none children, left), ?_, ?_⟩
      · exact (Page.route_eq_ok hok).2 ⟨hinside, rfl, rfl⟩
      · exact refuseIf_bind_eq_ok.2 ⟨not_leavesInterval hinside, hwalk⟩

/-- **Accepted paths.** The walk succeeds exactly on the framed pages that lead to a leaf, on any
budget that pays for them. -/
theorem walkPath_eq_ok {count : ℕ} {remaining : Bytes} {level : Level} {work : ℕ}
    {value : Option Bytes} :
    walkPath B binding query limits count remaining level work = .ok value ↔
      ∃ pages : List Page, pages.length = count ∧
        remaining = (pages.map (Page.bytes binding)).flatMap writeFrame ∧
        Leads B binding query limits pages level value ∧
        (pages.map (pagePrice binding)).sum ≤ work := by
  induction count generalizing remaining level work with
  | zero =>
    simp only [walkPath, reduceCtorEq, false_iff]
    rintro ⟨pages, hlen, -, hleads, -⟩
    rw [List.length_eq_zero_iff.1 hlen] at hleads
    exact hleads
  | succ count ih =>
    rw [walkPath_succ]
    constructor
    · rintro ⟨⟨kind, height, body⟩, rest, left, hok, hexpected, hheight, rfl, rfl, hbody⟩
      cases body with
      | leaf records =>
        obtain ⟨rfl, rfl, hinside, rfl⟩ := hbody
        exact ⟨[⟨kind, height, .leaf records⟩], rfl, by simp,
          ⟨hok, hexpected, hheight, rfl, hinside, rfl⟩, by simp⟩
      | branch first children =>
        obtain ⟨hinside, hwalk⟩ := hbody
        obtain ⟨pages, rfl, rfl, hleads, hprice⟩ := ih.1 hwalk
        refine ⟨⟨kind, height, .branch first children⟩ :: pages, rfl, by simp,
          ⟨hok, hexpected, hheight, hinside, hleads⟩, ?_⟩
        rw [List.map_cons, List.sum_cons]
        omega
    · rintro ⟨pages, hlen, rfl, hleads, hprice⟩
      obtain ⟨⟨kind, height, body⟩, pages, rfl⟩ := List.exists_cons_of_length_eq_add_one hlen
      obtain ⟨hok, hexpected, hheight, hbody⟩ := hleads
      rw [List.map_cons, List.sum_cons] at hprice
      obtain ⟨left, rfl⟩ := Nat.exists_eq_add_of_le hprice
      refine ⟨⟨kind, height, body⟩, _, _, hok, hexpected, hheight, List.flatMap_cons,
        Nat.add_assoc _ _ _, ?_⟩
      cases body with
      | leaf records =>
        obtain ⟨rfl, hinside, rfl⟩ := hbody
        exact ⟨by simpa using hlen.symm, rfl, hinside, rfl⟩
      | branch first children =>
        exact ⟨hbody.1, ih.2 ⟨pages, by simpa using hlen, rfl, hbody.2, Nat.le_add_right _ _⟩⟩

theorem length_encodePath (root : PageCommitment) (query : Hash) (pages : List Bytes) :
    (encodePath root query pages).length =
      PATH_HEADER_BYTES + (pages.flatMap writeFrame).length := by
  simp only [encodePath, List.length_append, length_writeCommitment, ByteArr.length_bytes,
    Wire.length_leBytes, PATH_HEADER_BYTES, HASH_LEN]
  rfl

/-- A path is accepted exactly when it frames pages that lead from the root to the leaf of the
query, within the limits. -/
theorem verifyPath_eq_ok {bytes : Bytes} {root : PageCommitment} {lookup : Lookup} :
    verifyPath B bytes binding root query limits = .ok lookup ↔
      ∃ pages : List Page, bytes = encodePath root query (pages.map (Page.bytes binding)) ∧
        Leads B binding query limits pages ⟨root, none, none, none⟩ lookup.value ∧
        lookup = ⟨root, binding, query, lookup.value⟩ ∧
        pages.length ≤ limits.proofPages.toNat ∧ pages.length ≤ 33 ∧
        bytes.length ≤ limits.proofBytes.toNat ∧
        bytes.length + 9 + (pages.map (pagePrice binding)).sum ≤ limits.work.toNat := by
  simp only [verifyPath, Wire.bind_eq_ok, refuseIf_eq_ok, not_lt, chargeWork_eq_ok, Prod.exists,
    (meters_readPathHeader limits root query bytes.length).complete_eq_ok, walkPath_eq_ok]
  constructor
  · rintro ⟨⟨⟩, hcap, afterBytes, hwork, count, body, afterHeader, ⟨m, ⟨hpages, -, hmax, -, -, hbytes,
      rfl⟩, rfl⟩, value, ⟨pages, hcount, rfl, hleads, hprice⟩, hlookup⟩
    obtain rfl := Except.ok.inj hlookup
    refine ⟨pages, ?_, hleads, rfl, by omega, by omega, hcap, by omega⟩
    rw [hbytes, encodePath, List.length_map, hcount]
  · rintro ⟨pages, hbytes, hleads, hlookup, hpages, hmax, hcap, hwork⟩
    have hcount : (UInt16.ofNat pages.length).toNat = pages.length := by
      rw [UInt16.toNat_ofNat', Nat.mod_eq_of_lt]
      omega
    have hnonempty : pages.length ≠ 0 := by
      intro h
      rw [List.length_eq_zero_iff.1 h] at hleads
      exact hleads
    have hlen := length_encodePath root query (pages.map (Page.bytes binding))
    rw [← hbytes] at hlen
    obtain ⟨left, hleft⟩ := Nat.exists_eq_add_of_le hwork
    refine ⟨(), hcap, _, by rw [hleft, Nat.add_assoc, Nat.add_assoc], UInt16.ofNat pages.length,
      _, _, ⟨9, ⟨by rwa [hcount], by rwa [hcount], by rwa [hcount], by omega, by omega, ?_, rfl⟩,
      rfl⟩, lookup.value, ⟨pages, hcount.symm, rfl, hleads, Nat.le_add_right _ _⟩, ?_⟩
    · rw [hcount, hbytes, encodePath, List.length_map]
    · exact congrArg Except.ok hlookup.symm

end Paths

end Mkit.Evidence
