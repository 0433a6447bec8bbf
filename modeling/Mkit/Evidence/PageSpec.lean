import Mkit.Evidence.Pages

/-!
# Pages Read Back

What the readers of a decoded page return in terms of its body: the records of a leaf, and
the child a branch routes a key to. A page is determined by its bytes, so the encoders commit
to exactly the body they were given.
-/

namespace Mkit.Evidence

open Metered

/-! ### Leaves -/

theorem slice_append {a b c : Bytes} :
    slice (a ++ (b ++ c)) a.length (a.length + b.length) = some b := by
  rw [slice, if_pos ⟨Nat.le_add_right _ _, by simp⟩]
  simp

/-- A record is read back in front of anything. -/
theorem nextRecord_append {r : LeafRecord} (hr : r.value.length < 2 ^ 32) (rest : Bytes) :
    nextRecord (writeRecord r ++ rest) = some (r, rest) := by
  have hkey : r.key.bytes.length = 32 := r.key.length_bytes
  have hlen : Wire.ofLeBytes (Wire.leBytes 4 r.value.length) = r.value.length := by
    rw [Wire.ofLeBytes_leBytes, Nat.mod_eq_of_lt]
    exact hr
  have hbytes : writeRecord r ++ rest = [] ++ (r.key.bytes ++ (Wire.leBytes 4 r.value.length ++
      (r.value ++ rest))) := by
    simp [writeRecord]
  have h₁ : slice (writeRecord r ++ rest) 0 32 = some r.key.bytes := by
    rw [hbytes, ← hkey]
    simpa using slice_append (a := []) (b := r.key.bytes)
  have h₂ : slice (writeRecord r ++ rest) 32 36 = some (Wire.leBytes 4 r.value.length) := by
    have h := slice_append (a := r.key.bytes) (b := Wire.leBytes 4 r.value.length)
      (c := r.value ++ rest)
    rw [hkey, Wire.length_leBytes] at h
    rw [hbytes]
    exact h
  have h₃ : slice (writeRecord r ++ rest) 36 (36 + r.value.length) = some r.value := by
    have h := slice_append (a := r.key.bytes ++ Wire.leBytes 4 r.value.length) (b := r.value)
      (c := rest)
    rw [List.length_append, hkey, Wire.length_leBytes] at h
    simpa [hbytes] using h
  have h₄ : slice (writeRecord r ++ rest) (36 + r.value.length) (writeRecord r ++ rest).length =
      some rest := by
    have h := slice_append (a := writeRecord r) (b := rest) (c := [])
    have hwrite : (writeRecord r).length = 36 + r.value.length := by
      simp only [writeRecord, List.length_append, hkey, Wire.length_leBytes]
    rw [List.append_nil, hwrite] at h
    rw [List.length_append, hwrite]
    exact h
  simp only [nextRecord, h₁, h₂, Option.bind_eq_bind, Option.bind_some, hlen, h₃, h₄, toArray,
    dif_pos r.key.length_bytes]
  rfl

/-- The iterator of a leaf yields its records. -/
theorem leafRecords_flatMap {records : List LeafRecord}
    (hvalues : ∀ r ∈ records, r.value.length < 2 ^ 32) :
    leafRecords records.length (records.flatMap writeRecord) = records := by
  induction records with
  | nil => rfl
  | cons r records ih =>
    obtain ⟨hr, hvalues⟩ := List.forall_mem_cons.1 hvalues
    rw [List.flatMap_cons, List.length_cons, leafRecords, nextRecord_append hr]
    exact congrArg (r :: ·) (ih hvalues)

/-! ### Branches -/

/-- A child commitment is read back in front of anything. -/
theorem writeCommitment_append {a b : PageCommitment} {x y : Bytes}
    (h : writeCommitment a ++ x = writeCommitment b ++ y) : a = b ∧ x = y :=
  meters_readCommitment.unique ⟨rfl, rfl⟩ ⟨rfl, rfl⟩ h

theorem writeChild_append {a b : BranchChild} {x y : Bytes}
    (h : writeChild a ++ x = writeChild b ++ y) : a = b ∧ x = y := by
  rw [writeChild, writeChild, List.append_assoc, List.append_assoc] at h
  obtain ⟨hseparator, hrest⟩ := List.append_inj h (by simp)
  obtain ⟨hchild, hxy⟩ := writeCommitment_append hrest
  refine ⟨?_, hxy⟩
  cases a
  cases b
  exact BranchChild.mk.injEq .. ▸ ⟨ByteArr.ext hseparator, hchild⟩

/-- The child a key belongs to, from the children not yet passed. -/
def routeOf (key : Hash) : PageCommitment → Option Hash → List BranchChild → Route
  | child, lower, [] => ⟨child, lower, none⟩
  | child, lower, next :: rest =>
    if key < next.separator then ⟨child, lower, some next.separator⟩
    else routeOf key next.child (some next.separator) rest

/-- The children after the first one are read to the end, also behind the chosen one. -/
theorem meters_routeChildren (key : Hash) (lower upper : Option Hash) (n : ℕ)
    (child : PageCommitment) (low : Option Hash) (result : Option Route) :
    Meters (routeChildren key lower upper n child low result)
      (fun route bs m => ∃ rest : List BranchChild, rest.length = n ∧
        (∀ c ∈ rest, ¬ outsideInterval lower upper c.separator) ∧
        route = result.getD (routeOf key child low rest) ∧ bs = rest.flatMap writeChild ∧
        m = 5 * n) := by
  induction n generalizing child low result with
  | zero =>
    refine Meters.congr (r := routeChildren key lower upper 0 child low result) (Meters.pure _)
      fun route bs m => ?_
    constructor
    · rintro ⟨rfl, rfl, rfl⟩
      exact ⟨[], rfl, by simp, rfl, rfl, rfl⟩
    · rintro ⟨rest, hlen, -, rfl, rfl, rfl⟩
      rw [List.length_eq_zero_iff.1 hlen]
      exact ⟨rfl, rfl, rfl⟩
  | succ n ih =>
    -- the continuation after the next child, whichever way the route is decided
    have hnext : ∀ (body : Cursor Route) (separator : Hash) (next : PageCommitment),
        (∀ route, result = some route → body = routeChildren key lower upper n child low result) →
        (result = none → body = if key < separator then
            routeChildren key lower upper n child low (some ⟨child, low, some separator⟩)
          else routeChildren key lower upper n next (some separator) none) →
        Meters body (fun route bs m => ∃ rest : List BranchChild, rest.length = n ∧
            (∀ c ∈ rest, ¬ outsideInterval lower upper c.separator) ∧
            route = result.getD (routeOf key child low (⟨separator, next⟩ :: rest)) ∧
            bs = rest.flatMap writeChild ∧ m = 5 * n) := by
      intro body separator next hsome hnone
      cases result with
      | some route => exact hsome route rfl ▸ ih child low (some route)
      | none =>
        rw [hnone rfl]
        by_cases hkey : key < separator
        · simp only [hkey, if_true, Option.getD_none, routeOf]
          exact ih child low (some ⟨child, low, some separator⟩)
        · simp only [hkey, if_false, Option.getD_none, routeOf]
          exact ih next (some separator) none
    refine Meters.congr (r := routeChildren key lower upper (n + 1) child low result)
      ((meters_array HASH_LEN).field fun separator => (meters_refuse _ _).check fun _ =>
      meters_readCommitment.field fun next => hnext _ separator next (by rintro _ rfl; rfl)
        (by rintro rfl; rfl)) fun route bs m => ?_
    constructor
    · rintro ⟨separator, _, _, ⟨hseparator, next, _, _, ⟨rest, rfl, hrest, hroute, rfl, rfl⟩, rfl,
        rfl⟩, rfl, rfl⟩
      refine ⟨⟨separator, next⟩ :: rest, rfl, List.forall_mem_cons.2 ⟨hseparator, hrest⟩, hroute,
        ?_, by omega⟩
      simp [writeChild]
    · rintro ⟨rest, hlen, hinside, rfl, rfl, rfl⟩
      obtain ⟨c, rest, rfl⟩ := List.exists_cons_of_length_eq_add_one hlen
      obtain ⟨hc, hrest⟩ := List.forall_mem_cons.1 hinside
      refine ⟨c.separator, _, _, ⟨hc, c.child, _, _,
        ⟨rest, by simpa using hlen, hrest, rfl, rfl, rfl⟩, rfl, rfl⟩, ?_, by omega⟩
      simp [writeChild]

/-! ### Pages are determined by their bytes -/

/-- A leaf and a branch are told apart by the height, and each is read back from its payload. -/
theorem PageBody.eq_of_payload {limits limits' : EvidenceLimits} {kind : PageKind} {height : UInt8}
    {body body' : PageBody} (hok : body.Ok limits kind height) (hok' : body'.Ok limits' kind height)
    (hitems : body.items = body'.items) (hpayload : body.payload = body'.payload) :
    body = body' := by
  cases body with
  | leaf records =>
    cases body' with
    | leaf records' =>
      have hrecords := leafRecords_flatMap fun r hr => (hok.2.values r hr).2
      have hrecords' := leafRecords_flatMap fun r hr => (hok'.2.values r hr).2
      have hlen : records.length = records'.length := hitems
      have hbytes : records.flatMap writeRecord = records'.flatMap writeRecord := hpayload
      rw [← hrecords, ← hrecords', hlen, hbytes]
    | branch first rest => exact absurd hok.1 hok'.1
  | branch first rest =>
    cases body' with
    | leaf records => exact absurd hok'.1 hok.1
    | branch first' rest' =>
      obtain ⟨rfl, hrest⟩ := writeCommitment_append hpayload
      have hlen : rest.length = rest'.length := Nat.succ.inj hitems
      obtain ⟨rfl, -⟩ := Wire.flatMap_append writeChild_append (x := []) (y := []) hlen
        (by simpa using hrest)
      rfl

namespace Page

variable {binding : EvidenceBinding} {limits limits' : EvidenceLimits} {p p' : Page}

/-- Pages with the same bytes are the same. -/
theorem eq_of_bytes (hok : p.Ok binding limits) (hok' : p'.Ok binding limits')
    (h : p.bytes binding = p'.bytes binding) : p = p' := by
  obtain ⟨hheader, -⟩ := (meters_readHeader binding).unique (x := []) (y := [])
    ⟨hok.supported, hok.shaped, hok.length_payload, rfl, rfl⟩
    ⟨hok'.supported, hok'.shaped, hok'.length_payload, rfl, rfl⟩
    (by simpa [hok.items_toNat, hok'.items_toNat, bytes] using h)
  obtain ⟨kind, height, body⟩ := p
  obtain ⟨kind', height', body'⟩ := p'
  simp only [PageHeader.mk.injEq] at hheader
  obtain ⟨rfl, rfl, hitems, hpayload⟩ := hheader
  have hitems' : body.items = body'.items := by
    rw [← hok.items_toNat, ← hok'.items_toNat]
    exact congrArg UInt16.toNat hitems
  exact congrArg (Page.mk kind height) (PageBody.eq_of_payload hok.body hok'.body hitems' hpayload)

/-- The commitment of a page. -/
def commitment (B : Blake3) (binding : EvidenceBinding) (p : Page) : PageCommitment :=
  ⟨B.hash (domainPreimage PAGE_DOMAIN (p.bytes binding)), p.kind,
    UInt64.ofNat (p.bytes binding).length, (UInt16.ofNat p.body.items).toUInt64⟩

theorem view_commitment (B : Blake3) (binding : EvidenceBinding) (p : Page) :
    (p.view binding).commitment B = some (p.commitment B binding) := by
  rw [PageView.commitment, domainDigest_eq _ (by decide)]
  rfl

/-- A page is authenticated for the price of its bytes when it has the expected commitment. -/
theorem authenticate_eq_ok {B : Blake3} {expected : PageCommitment} {work left : ℕ} :
    (p.view binding).authenticate B expected work = .ok left ↔
      p.commitment B binding = expected ∧ work = (p.bytes binding).length + left := by
  simp only [PageView.authenticate, Wire.bind_eq_ok, chargeWork_eq_ok, refuseIf_eq_ok,
    view_commitment, ne_eq, not_not, Option.some.injEq]
  constructor
  · rintro ⟨rest, hwork, ⟨⟩, hexpected, hleft⟩
    obtain rfl := Except.ok.inj hleft
    exact ⟨hexpected, hwork⟩
  · rintro ⟨hexpected, hwork⟩
    exact ⟨left, hwork, (), hexpected, rfl⟩

/-- The records of a leaf page. -/
theorem records_leaf {kind : PageKind} {height : UInt8} {records : List LeafRecord}
    (hok : Page.Ok binding limits ⟨kind, height, .leaf records⟩) :
    (Page.view binding ⟨kind, height, .leaf records⟩).records = .ok records := by
  have hheight : height = 0 := hok.body.1
  have hitems : (UInt16.ofNat records.length).toNat = records.length := hok.items_toNat
  simp only [PageView.records, Wire.bind_eq_ok, refuseIf_eq_ok, view, hheight, ne_eq,
    not_true_eq_false, not_false_eq_true, true_and]
  refine ⟨(), congrArg Except.ok ?_⟩
  simp only [PageBody.items, hitems]
  exact leafRecords_flatMap fun r hr => (hok.body.2.values r hr).2

/-- A branch routes a key to the child it belongs to when all of its separators lie in the
inherited interval. -/
theorem route_eq_ok {kind : PageKind} {height : UInt8} {first : PageCommitment}
    {rest : List BranchChild} (hok : Page.Ok binding limits ⟨kind, height, .branch first rest⟩)
    {key : Hash} {lower upper : Option Hash} {work left : ℕ} {route : Route} :
    (Page.view binding ⟨kind, height, .branch first rest⟩).route key lower upper work =
        .ok (route, left) ↔
      (∀ c ∈ rest, ¬ outsideInterval lower upper c.separator) ∧ route = routeOf key first none rest ∧
        work = 4 + 5 * rest.length + left := by
  have hitems : (UInt16.ofNat (rest.length + 1)).toNat = rest.length + 1 := hok.items_toNat
  have hreader := meters_readCommitment.field fun first =>
    meters_routeChildren key lower upper rest.length first none none
  simp only [PageView.route, Wire.bind_eq_ok, view, PageBody.items, hitems, Nat.add_sub_cancel,
    hreader.complete_eq_ok]
  constructor
  · rintro ⟨⟨⟩, -, _, ⟨first', _, _, ⟨rest', hlen, hinside, rfl, rfl, rfl⟩, hpayload, rfl⟩, rfl⟩
    obtain ⟨rfl, hrest⟩ := writeCommitment_append hpayload
    obtain ⟨rfl, -⟩ := Wire.flatMap_append writeChild_append (x := []) (y := []) hlen.symm
      (by simpa using hrest)
    exact ⟨hinside, rfl, rfl⟩
  · rintro ⟨hinside, rfl, rfl⟩
    exact ⟨(), refuseIf_eq_ok.2 hok.body.1, _, ⟨first, _, _, ⟨rest, rfl, hinside, rfl, rfl, rfl⟩, rfl, rfl⟩, rfl⟩

end Page

/-! ### Encoders -/

/-- Measured records are in order, within the limits, and of the measured length. -/
theorem measureRecords_eq_ok {limits : EvidenceLimits} {len len' : ℕ} {prior : Option Hash}
    {records : List LeafRecord} (h : measureRecords limits len prior records = .ok len') :
    RecordsOk limits prior records ∧ len' = len + (records.flatMap writeRecord).length := by
  induction records generalizing len prior with
  | nil =>
    obtain rfl := Except.ok.inj h
    exact ⟨⟨by cases prior <;> simp [Ascends], by simp⟩, by simp⟩
  | cons r records ih =>
    simp only [measureRecords, Wire.bind_eq_ok, refuseIf_eq_ok, not_or, not_lt, not_le] at h
    obtain ⟨⟨⟩, hkey, ⟨⟩, ⟨hvalue, hsize⟩, ⟨⟩, -, hrest⟩ := h
    obtain ⟨hok, rfl⟩ := ih hrest
    refine ⟨recordsOk_cons.2 ⟨hkey, hvalue, hsize, hok⟩, ?_⟩
    simp only [List.flatMap_cons, List.length_append, writeRecord, ByteArr.length_bytes,
      Wire.length_leBytes, HASH_LEN]
    omega

/-- A sealed page is the encoding of a page within the limits, under its commitment. -/
theorem sealPage_eq_ok {B : Blake3} {binding : EvidenceBinding} {limits : EvidenceLimits}
    {bytes : Bytes} {work : ℕ} {page : EncodedPage}
    (h : sealPage B binding limits bytes work = .ok page) :
    ∃ p : Page, p.Ok binding limits ∧ bytes = p.bytes binding ∧
      page = ⟨p.bytes binding, p.commitment B binding⟩ := by
  simp only [sealPage, Wire.bind_eq_ok, Prod.exists, okOr_eq_ok] at h
  obtain ⟨view, afterDecode, hdecode, afterBytes, -, commitment, hcommitment, hpage⟩ := h
  obtain ⟨p, hok, rfl, rfl, -⟩ := decode_eq_ok.1 hdecode
  rw [Page.view_commitment, Option.some.injEq] at hcommitment
  obtain rfl := Except.ok.inj hpage
  exact ⟨p, hok, rfl, by rw [hcommitment]⟩

/-- A sealed page whose bytes are those of a well-formed body is that page. -/
theorem sealPage_page {B : Blake3} {binding : EvidenceBinding} {limits : EvidenceLimits}
    {work : ℕ} {page : EncodedPage} {p : Page} (hbody : p.body.Ok limits p.kind p.height)
    (hheight : p.height.toNat ≤ 32) (hitems : p.body.items ≤ PAGE_FANOUT)
    (h : sealPage B binding limits (p.bytes binding) work = .ok page) :
    p.Ok binding limits ∧ page = ⟨p.bytes binding, p.commitment B binding⟩ := by
  obtain ⟨p', hok, hbytes, rfl⟩ := sealPage_eq_ok h
  have hp : p.Ok binding limits := by
    refine ⟨hok.supported, hbody, hheight, hitems, ?_⟩
    rw [hbytes]
    exact hok.length_le
  obtain rfl := Page.eq_of_bytes hp hok hbytes
  exact ⟨hp, rfl⟩

/-- An encoded leaf holds the records it was given. -/
theorem encodeLeaf_eq_ok {B : Blake3} {binding : EvidenceBinding} {kind : PageKind}
    {records : List LeafRecord} {limits : EvidenceLimits} {page : EncodedPage}
    (h : encodeLeaf B binding kind records limits = .ok page) :
    Page.Ok binding limits ⟨kind, 0, .leaf records⟩ ∧
      page = ⟨Page.bytes binding ⟨kind, 0, .leaf records⟩,
        Page.commitment B binding ⟨kind, 0, .leaf records⟩⟩ := by
  simp only [encodeLeaf, Wire.bind_eq_ok, refuseIf_eq_ok, not_or, not_lt] at h
  obtain ⟨⟨⟩, ⟨-, hfanout⟩, len, hmeasure, ⟨⟩, -, ⟨⟩, -, work, -, hseal⟩ := h
  obtain ⟨hrecords, rfl⟩ := measureRecords_eq_ok hmeasure
  rw [Nat.add_sub_cancel_left] at hseal
  exact sealPage_page (p := ⟨kind, 0, .leaf records⟩) ⟨rfl, hrecords⟩ (Nat.zero_le _) hfanout hseal

theorem checkSeparators_eq_ok {prior : Option Hash} {rest : List BranchChild}
    (h : checkSeparators prior rest = .ok ()) : Ascends prior (rest.map (·.separator)) := by
  induction rest generalizing prior with
  | nil => cases prior <;> simp [Ascends]
  | cons c rest ih =>
    simp only [checkSeparators, Wire.bind_eq_ok, refuseIf_eq_ok] at h
    obtain ⟨⟨⟩, hkey, hrest⟩ := h
    exact ascends_cons.2 ⟨hkey, ih hrest⟩

@[simp] theorem length_writeCommitment (child : PageCommitment) :
    (writeCommitment child).length = 49 := by
  simp [writeCommitment, HASH_LEN]

theorem length_flatMap_writeChild (rest : List BranchChild) :
    (rest.flatMap writeChild).length = rest.length * 81 := by
  induction rest with
  | nil => rfl
  | cons c rest ih =>
    simp only [List.flatMap_cons, List.length_append, ih, writeChild, ByteArr.length_bytes,
      length_writeCommitment, List.length_cons, HASH_LEN]
    omega

/-- An encoded branch holds the children it was given. -/
theorem encodeInternal_eq_ok {B : Blake3} {binding : EvidenceBinding} {kind : PageKind}
    {height : UInt8} {first : PageCommitment} {rest : List BranchChild} {limits : EvidenceLimits}
    {page : EncodedPage} (h : encodeInternal B binding kind height first rest limits = .ok page) :
    Page.Ok binding limits ⟨kind, height, .branch first rest⟩ ∧
      page = ⟨Page.bytes binding ⟨kind, height, .branch first rest⟩,
        Page.commitment B binding ⟨kind, height, .branch first rest⟩⟩ := by
  simp only [encodeInternal, Wire.bind_eq_ok, refuseIf_eq_ok, not_not, not_le] at h
  obtain ⟨⟨⟩, ⟨hlow, hhigh⟩, ⟨⟩, hfanout, ⟨⟩, hseparators, ⟨⟩, hchildren, ⟨⟩, -, ⟨⟩, -, work, -,
    hseal⟩ := h
  obtain ⟨hfirst, hrest⟩ := List.forall_mem_cons.1 hchildren
  have hlen : (PageBody.branch first rest).payload.length = 49 + rest.length * 81 := by
    rw [PageBody.payload, List.length_append, length_writeCommitment, length_flatMap_writeChild]
  rw [← hlen, List.append_assoc] at hseal
  refine sealPage_page (p := ⟨kind, height, .branch first rest⟩) ⟨?_, hfirst,
    checkSeparators_eq_ok hseparators, fun c hc => hrest _ (List.mem_map_of_mem hc)⟩ hhigh hfanout
    hseal
  rintro rfl
  exact absurd hlow (by decide)

end Mkit.Evidence
