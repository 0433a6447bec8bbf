import Mkit.JournalPages

/-!
# The Journal of Visited State

A verifier keeps 256 commitments, one for each first byte of an object id; everything else is in
pages that the host retains and hands back on request. A put prepends a page to its bucket, and
only the acknowledgement of the host publishes it. Reads and writes share one pending slot.

A run is any sequence of calls, in any order and with any bytes, reopening from the committed
roots included. `Inv` says that the roots of a run lead through retained pages to the acknowledged
records, the latest first, and what the pending slot stands for.

## Main results

* `journal_correct` — a lookup answers with the record acknowledged last, after as many pages as
  its bucket has records at most, and no other bytes than the retained ones are taken; the page
  codec is a bijection.
-/

namespace Mkit.Visited

open Evidence

/-- The bucket of an object: its first byte. -/
def bucketOf (id : Hash) : UInt8 :=
  id.bytes.headD 0

/-- The committed roots. -/
abbrev Roots := UInt8 → Option PageCommitment

inductive Lookup where
  | needPage (page : PageCommitment)
  | found (record : Option Record)
deriving DecidableEq

/-- The one outstanding request. -/
inductive Pending where
  | lookup (id : Hash) (cursor : Option PageCommitment) (found : Option Record)
  | put (bucket : UInt8) (page : PageCommitment)
deriving DecidableEq

structure Journal where
  roots : Roots
  pending : Option Pending

/-- `domain_digest` under the domain of pages, which is short enough. -/
def pageDigest (B : Blake3) (bytes : Bytes) : Hash :=
  (domainDigest B DOMAIN bytes).getD ZERO

theorem pageDigest_eq (B : Blake3) (bytes : Bytes) :
    pageDigest B bytes = B.hash (domainPreimage DOMAIN bytes) := by
  rw [pageDigest, domainDigest_eq bytes (by decide), Option.getD_some]

namespace Journal

def fromRoots (roots : Roots) : Journal :=
  ⟨roots, none⟩

def new : Journal :=
  fromRoots fun _ => none

/-- The journal with a lookup outstanding when nothing else is. -/
def started (journal : Journal) (id : Hash) : Journal :=
  match journal.pending with
  | none => { journal with pending := some (.lookup id (journal.roots (bucketOf id)) none) }
  | some _ => journal

/-- Start or advance a lookup. -/
def lookup (id : Hash) (journal : Journal) : Except Failure Lookup × Journal :=
  let journal := journal.started id
  match journal.pending with
  | some (.lookup requested cursor found) =>
    if requested = id then
      match cursor with
      | some page => (.ok (.needPage page), journal)
      | none => (.ok (.found found), { journal with pending := none })
    else (.error invalidResponse, journal)
  | _ => (.error invalidResponse, journal)

/-- Authenticate the requested page before parsing it. -/
def readSupplied (B : Blake3) (id : Hash) (expected : PageCommitment) (bytes : Bytes) :
    Except Failure Pending := do
  validCommitment expected
  refuseIf (MAX_PAGE_BYTES < bytes.length ∨ UInt64.ofNat bytes.length ≠ expected.len ∨
    pageDigest B bytes ≠ expected.digest) invalidResponse
  let (previous, key, record) ← decode bytes
  refuseIf (bucketOf key ≠ bucketOf id) invalidResponse
  return if key = id then .lookup id none (some record) else .lookup id previous none

/-- Supply the requested page. -/
def supply (B : Blake3) (bytes : Bytes) (journal : Journal) : Except Failure Unit × Journal :=
  match journal.pending with
  | some (.lookup id (some expected) _) =>
    match readSupplied B id expected bytes with
    | .error e => (.error e, journal)
    | .ok pending => (.ok (), { journal with pending := some pending })
  | _ => (.error invalidResponse, journal)

/-- The commitment of a page. -/
def commitment (B : Blake3) (bytes : Bytes) : PageCommitment :=
  ⟨pageDigest B bytes, .closure, UInt64.ofNat bytes.length, 1⟩

/-- The page of a record. -/
def newPage (previous : Option PageCommitment) (id : Hash) (record : Record) :
    Except Failure Bytes := do
  validateRecord id record
  encode previous id record

/-- Produce one page. Only its acknowledgement publishes it. -/
def put (B : Blake3) (id : Hash) (record : Record) (journal : Journal) :
    Except Failure (PageCommitment × Bytes) × Journal :=
  match journal.pending with
  | some _ => (.error invalidResponse, journal)
  | none =>
    match newPage (journal.roots (bucketOf id)) id record with
    | .error e => (.error e, journal)
    | .ok bytes =>
      (.ok (commitment B bytes, bytes),
        { journal with pending := some (.put (bucketOf id) (commitment B bytes)) })

/-- Publish the outstanding page. -/
def acknowledge (page : PageCommitment) (journal : Journal) : Except Failure Unit × Journal :=
  match journal.pending with
  | some (.put bucket written) =>
    if written = page then (.ok (), ⟨Function.update journal.roots bucket (some written), none⟩)
    else (.error invalidResponse, journal)
  | _ => (.error invalidResponse, journal)

end Journal

/-! ### Runs -/

/-- A call, or a new journal on the committed roots. -/
inductive Op where
  | lookup (id : Hash)
  | supply (bytes : Bytes)
  | put (id : Hash) (record : Record)
  | acknowledge (page : PageCommitment)
  | reopen

/-- The journal with what the host retains; the rest is kept for the record: the record that waits
for its acknowledgement, the acknowledged ones with the latest first, and all bytes written or
supplied. -/
structure World where
  journal : Journal
  retained : List (PageCommitment × Bytes)
  draft : Option (Hash × Record)
  log : List (Hash × Record)
  seen : List Bytes

def World.init : World :=
  ⟨.new, [], none, [], []⟩

/-- One call; a put that succeeds has its page retained. -/
def World.step (B : Blake3) (w : World) : Op → World
  | .lookup id => { w with journal := (w.journal.lookup id).2 }
  | .supply bytes =>
    { w with journal := (w.journal.supply B bytes).2, seen := bytes :: w.seen }
  | .put id record =>
    match w.journal.put B id record with
    | (.ok (page, bytes), journal) =>
      { w with
        journal
        retained := (page, bytes) :: w.retained
        draft := some (id, record)
        seen := bytes :: w.seen }
    | (.error _, journal) => { w with journal }
  | .acknowledge page =>
    match w.journal.acknowledge page with
    | (.ok (), journal) => { w with journal, draft := none, log := w.draft.toList ++ w.log }
    | (.error _, journal) => { w with journal }
  | .reopen => { w with journal := .fromRoots w.journal.roots, draft := none }

/-- A sequence of calls on a new journal. -/
def run (B : Blake3) (ops : List Op) : World :=
  ops.foldl (World.step B) .init

/-- The record of an object that was acknowledged last. -/
def recorded (log : List (Hash × Record)) (id : Hash) : Option Record :=
  (log.find? (·.1 = id)).map Prod.snd

/-- The retained bytes of a page. -/
def World.host (w : World) (page : PageCommitment) : Option Bytes :=
  (w.retained.find? (·.1 = page)).map Prod.snd

/-- A lookup of `id` to its end, with at most so many pages from the host. -/
def complete (B : Blake3) (host : PageCommitment → Option Bytes) (id : Hash) (pages : ℕ)
    (journal : Journal) : Except Failure (Option Record) × Journal :=
  match journal.lookup id with
  | (.error e, journal) => (.error e, journal)
  | (.ok (.found record), journal) => (.ok record, journal)
  | (.ok (.needPage page), journal) =>
    match pages, host page with
    | 0, _ => (.error (failure .resourceLimit), journal)
    | _, none => (.error (failure .unavailableInput), journal)
    | pages + 1, some bytes =>
      match journal.supply B bytes with
      | (.error e, journal) => (.error e, journal)
      | (.ok (), journal) => complete B host id pages journal

/-- What the digests of pages are taken of. -/
def pagePreimages (pages : List Bytes) : Set Bytes :=
  {x | x ∈ pages.map (domainPreimage DOMAIN)}

/-! ### Chains of pages -/

/-- A commitment leads through retained pages to the records of a bucket. -/
inductive Chain (B : Blake3) (retained : List (PageCommitment × Bytes)) :
    Option PageCommitment → List (Hash × Record) → Prop
  | nil : Chain B retained none []
  | cons {previous : Option PageCommitment} {id : Hash} {record : Record} {bytes : Bytes}
      {rest : List (Hash × Record)} (hpage : Journal.newPage previous id record = .ok bytes)
      (hkept : (Journal.commitment B bytes, bytes) ∈ retained)
      (h : Chain B retained previous rest) :
      Chain B retained (some (Journal.commitment B bytes)) ((id, record) :: rest)

variable {B : Blake3} {retained : List (PageCommitment × Bytes)}

theorem Chain.mono {retained' : List (PageCommitment × Bytes)} {root : Option PageCommitment}
    {records : List (Hash × Record)} (h : Chain B retained root records)
    (hsub : retained ⊆ retained') : Chain B retained' root records := by
  induction h with
  | nil => exact .nil
  | cons hpage hkept h ih => exact .cons hpage (hsub hkept) ih

/-- What the pending slot stands for. -/
inductive Stands (B : Blake3) (w : World) : Pending → Prop
  | looking {id : Hash} {cursor : Option PageCommitment} {records : List (Hash × Record)}
      (hchain : Chain B w.retained cursor records)
      (hbucket : ∀ entry ∈ records, bucketOf entry.1 = bucketOf id)
      (hrecorded : recorded records id = recorded w.log id) : Stands B w (.lookup id cursor none)
  | found {id : Hash} {record : Record} (hrecorded : recorded w.log id = some record) :
      Stands B w (.lookup id none (some record))
  | putting {id : Hash} {record : Record} {bytes : Bytes} (hdraft : w.draft = some (id, record))
      (hpage : Journal.newPage (w.journal.roots (bucketOf id)) id record = .ok bytes)
      (hkept : (Journal.commitment B bytes, bytes) ∈ w.retained) :
      Stands B w (.put (bucketOf id) (Journal.commitment B bytes))

/-- The invariant of a run. -/
structure Inv (B : Blake3) (w : World) : Prop where
  chains : ∀ bucket, Chain B w.retained (w.journal.roots bucket)
    (w.log.filter fun entry => bucketOf entry.1 = bucket)
  retained : ∀ p ∈ w.retained, p.1 = Journal.commitment B p.2 ∧ p.2 ∈ w.seen ∧
    p.2.length ≤ MAX_PAGE_BYTES
  pending : ∀ p ∈ w.journal.pending, Stands B w p

/-! ### Pages -/

theorem newPage_eq_ok {previous : Option PageCommitment} {id : Hash} {record : Record}
    {bytes : Bytes} : Journal.newPage previous id record = .ok bytes ↔
      decode bytes = .ok (previous, id, record) := by
  rw [decode_eq_ok_iff, Journal.newPage, Wire.bind_eq_ok]
  constructor
  · rintro ⟨_, hvalid, hencode⟩
    exact ⟨hencode, hvalid⟩
  · rintro ⟨hencode, hvalid⟩
    exact ⟨(), hvalid, hencode⟩

theorem length_of_newPage {previous : Option PageCommitment} {id : Hash} {record : Record}
    {bytes : Bytes} (h : Journal.newPage previous id record = .ok bytes) :
    0 < bytes.length ∧ bytes.length ≤ MAX_PAGE_BYTES := by
  obtain ⟨-, -, hencode⟩ := Wire.bind_eq_ok.1 h
  rw [← (encode_eq_ok.1 hencode).2]
  exact ⟨List.length_pos_iff.2 (pageWire_ne_nil _ _ _), length_pageWire_le _ _ _⟩

theorem toNat_length {bytes : Bytes} (h : bytes.length ≤ MAX_PAGE_BYTES) :
    (UInt64.ofNat bytes.length).toNat = bytes.length := by
  rw [MAX_PAGE_BYTES] at h
  rw [UInt64.toNat_ofNat']
  exact Nat.mod_eq_of_lt (by omega)

theorem validCommitment_of_newPage {previous : Option PageCommitment} {id : Hash} {record : Record}
    {bytes : Bytes} (h : Journal.newPage previous id record = .ok bytes) :
    validCommitment (Journal.commitment B bytes) = .ok () := by
  obtain ⟨hpos, hle⟩ := length_of_newPage h
  refine validCommitment_eq_ok.2 ⟨rfl, rfl, fun hzero => ?_, ?_⟩
  · have hlen := toNat_length hle
    rw [show UInt64.ofNat bytes.length = 0 from hzero] at hlen
    exact hpos.ne hlen
  · exact (toNat_length hle).trans_le hle

/-- The pending slot after a page of the bucket. -/
def afterPage (id key : Hash) (previous : Option PageCommitment) (record : Record) : Pending :=
  if key = id then .lookup id none (some record) else .lookup id previous none

/-- The requested page is taken. -/
theorem readSupplied_of_newPage {previous : Option PageCommitment} {id key : Hash}
    {record : Record} {bytes : Bytes} (h : Journal.newPage previous key record = .ok bytes)
    (hbucket : bucketOf key = bucketOf id) :
    Journal.readSupplied B id (Journal.commitment B bytes) bytes =
      .ok (afterPage id key previous record) := by
  have hlen := (length_of_newPage h).2
  rw [Journal.readSupplied, validCommitment_of_newPage h]
  refine refuseIf_bind_eq_ok.2 ⟨?_, ?_⟩
  · rintro (hlong | hlength | hdigest)
    · omega
    · exact hlength rfl
    · exact hdigest rfl
  · rw [newPage_eq_ok.1 h]
    exact refuseIf_bind_eq_ok.2 ⟨not_not.2 hbucket, rfl⟩

/-- Without collisions, a digest names one page. -/
theorem eq_of_pageDigest {pages : List Bytes} (hfree : CollisionFreeOn B (pagePreimages pages))
    {bytes bytes' : Bytes} (hmem : bytes ∈ pages) (hmem' : bytes' ∈ pages)
    (h : pageDigest B bytes = pageDigest B bytes') : bytes = bytes' := by
  rw [pageDigest_eq, pageDigest_eq] at h
  have hpreimage := hfree (List.mem_map_of_mem hmem) (List.mem_map_of_mem hmem') h
  exact (domainPreimage_inj (by decide) (by decide) hpreimage).2

/-- No other page is taken. -/
theorem eq_of_readSupplied {pages : List Bytes} (hfree : CollisionFreeOn B (pagePreimages pages))
    {id : Hash} {bytes bytes' : Bytes} (hmem : bytes ∈ pages) (hmem' : bytes' ∈ pages)
    {pending : Pending}
    (h : Journal.readSupplied B id (Journal.commitment B bytes') bytes = .ok pending) :
    bytes = bytes' := by
  obtain ⟨-, -, h⟩ := Wire.bind_eq_ok.1 h
  obtain ⟨hsame, -⟩ := refuseIf_bind_eq_ok.1 h
  refine eq_of_pageDigest hfree hmem hmem' ?_
  by_contra hdigest
  exact hsame (.inr (.inr hdigest))

/-! ### One call -/

variable {w : World} {p : Pending}

theorem Stands.congr {w' : World} (h : Stands B w p)
    (hretained : w.retained ⊆ w'.retained) (hlog : w'.log = w.log) (hdraft : w'.draft = w.draft)
    (hroots : w'.journal.roots = w.journal.roots) : Stands B w' p := by
  cases h with
  | looking hchain hbucket hrecorded =>
    exact .looking (hchain.mono hretained) hbucket (hlog ▸ hrecorded)
  | found hrecorded => exact .found (hlog ▸ hrecorded)
  | putting hd hpage hkept =>
    exact .putting (hdraft.trans hd) (hroots ▸ hpage) (hretained hkept)

/-- A step that leaves the roots and the pages alone keeps the invariant when the pending slot
stands for something. -/
theorem Inv.of_pending (h : Inv B w) {journal : Journal} {seen : List Bytes}
    (hroots : journal.roots = w.journal.roots) (hseen : w.seen ⊆ seen)
    (hpending : ∀ p ∈ journal.pending, Stands B w p) : Inv B { w with journal, seen } where
  chains bucket := by
    rw [hroots]
    exact h.chains bucket
  retained p hp :=
    have hkept := h.retained p hp
    ⟨hkept.1, hseen hkept.2.1, hkept.2.2⟩
  pending p hp := (hpending p hp).congr (List.Subset.refl _) rfl rfl hroots

theorem recorded_filter (log : List (Hash × Record)) (id : Hash) :
    recorded (log.filter fun entry => bucketOf entry.1 = bucketOf id) id = recorded log id := by
  rw [recorded, List.find?_filter, recorded]
  congr 2
  funext entry
  by_cases h : entry.1 = id
  · simp [h]
  · simp [h]

/-- A lookup starts at the root of its bucket. -/
theorem Inv.stands_root (h : Inv B w) (id : Hash) :
    Stands B w (.lookup id (w.journal.roots (bucketOf id)) none) := by
  refine .looking (h.chains (bucketOf id)) (fun entry hentry => ?_) (recorded_filter w.log id)
  simpa using (List.mem_filter.1 hentry).2

theorem Inv.stands_started (h : Inv B w) (id : Hash) :
    ∀ p ∈ (w.journal.started id).pending, Stands B w p := by
  intro p hp
  rw [Journal.started] at hp
  split at hp
  · rw [← Option.some.inj hp]
    exact h.stands_root id
  · exact h.pending p hp

theorem started_roots (journal : Journal) (id : Hash) :
    (journal.started id).roots = journal.roots := by
  rw [Journal.started]
  split <;> rfl

theorem lookup_roots (journal : Journal) (id : Hash) :
    (journal.lookup id).2.roots = journal.roots := by
  rw [← started_roots journal id, Journal.lookup]
  split
  · split_ifs
    · split <;> rfl
    · rfl
  · rfl

theorem lookup_pending {journal : Journal} {id : Hash}
    (h : p ∈ (journal.lookup id).2.pending) : p ∈ (journal.started id).pending := by
  rw [Journal.lookup] at h
  split at h
  · split_ifs at h
    · split at h
      · exact h
      · cases h
    · exact h
  · exact h

theorem Inv.lookup (h : Inv B w) (id : Hash) : Inv B (w.step B (.lookup id)) :=
  h.of_pending (lookup_roots _ _) (List.Subset.refl _) fun p hp =>
    h.stands_started id p (lookup_pending hp)

/-- A page that is taken is the retained one; its record is looked at. -/
theorem Stands.afterPage {id : Hash} {expected : PageCommitment} {found : Option Record}
    (h : Stands B w (.lookup id (some expected) found)) : ∃ previous key record bytes,
      Journal.newPage previous key record = .ok bytes ∧ expected = Journal.commitment B bytes ∧
        (expected, bytes) ∈ w.retained ∧ bucketOf key = bucketOf id ∧
        Stands B w (afterPage id key previous record) := by
  cases h with
  | looking hchain hbucket hrecorded =>
    cases hchain with
    | @cons previous key record bytes rest hpage hkept hchain =>
      refine ⟨previous, key, record, bytes, hpage, rfl, hkept, hbucket _ List.mem_cons_self, ?_⟩
      rw [Visited.afterPage]
      split_ifs with heq
      · refine .found ?_
        rw [← hrecorded, recorded, List.find?_cons_of_pos (by simpa using heq)]
        rfl
      · refine .looking hchain
          (fun entry hentry => hbucket _ (List.mem_cons_of_mem _ hentry)) ?_
        rw [← hrecorded, recorded, recorded, List.find?_cons_of_neg (by simpa using heq)]

theorem supply_cases (journal : Journal) (bytes : Bytes) :
    (∃ e, journal.supply B bytes = (.error e, journal)) ∨
      ∃ id expected found pending, journal.pending = some (.lookup id (some expected) found) ∧
        Journal.readSupplied B id expected bytes = .ok pending ∧
        journal.supply B bytes = (.ok (), { journal with pending := some pending }) := by
  rw [Journal.supply]
  split
  · rename_i id expected found hpending
    cases hread : Journal.readSupplied B id expected bytes with
    | error e => exact .inl ⟨e, rfl⟩
    | ok pending => exact .inr ⟨id, expected, found, pending, hpending, hread, rfl⟩
  · exact .inl ⟨_, rfl⟩

theorem Inv.supply (h : Inv B w) {bytes : Bytes}
    (hfree : CollisionFreeOn B (pagePreimages (bytes :: w.seen))) :
    Inv B (w.step B (.supply bytes)) := by
  rw [World.step]
  obtain ⟨e, hsupply⟩ | ⟨id, expected, found, pending, hpending, hread, hsupply⟩ :=
    supply_cases (B := B) w.journal bytes
  · rw [hsupply]
    exact h.of_pending rfl (List.subset_cons_self _ _) h.pending
  · rw [hsupply]
    refine h.of_pending rfl (List.subset_cons_self _ _) fun p hp => ?_
    rw [← Option.some.inj hp]
    obtain ⟨previous, key, record, bytes', hpage, rfl, hkept, hbucket, hstands⟩ :=
      (h.pending _ hpending).afterPage
    have hseen := (h.retained _ hkept).2.1
    obtain rfl := eq_of_readSupplied hfree List.mem_cons_self (List.mem_cons_of_mem _ hseen) hread
    rw [readSupplied_of_newPage hpage hbucket] at hread
    rw [← Except.ok.inj hread]
    exact hstands

theorem put_cases (journal : Journal) (id : Hash) (record : Record) :
    (∃ e, journal.put B id record = (.error e, journal)) ∨
      ∃ bytes, Journal.newPage (journal.roots (bucketOf id)) id record = .ok bytes ∧
        journal.put B id record = (.ok (Journal.commitment B bytes, bytes), { journal with
          pending := some (.put (bucketOf id) (Journal.commitment B bytes)) }) := by
  rw [Journal.put]
  split
  · exact .inl ⟨_, rfl⟩
  · cases hpage : Journal.newPage (journal.roots (bucketOf id)) id record with
    | error e => exact .inl ⟨e, rfl⟩
    | ok bytes => exact .inr ⟨bytes, rfl, rfl⟩

theorem Inv.put (h : Inv B w) (id : Hash) (record : Record) :
    Inv B (w.step B (.put id record)) := by
  rw [World.step]
  obtain ⟨e, hput⟩ | ⟨bytes, hpage, hput⟩ := put_cases (B := B) w.journal id record
  · rw [hput]
    exact h
  · rw [hput]
    refine ⟨fun bucket => (h.chains bucket).mono (List.subset_cons_self _ _), fun p hp => ?_,
      fun p hp => ?_⟩
    · obtain rfl | hp := List.mem_cons.1 hp
      · exact ⟨rfl, List.mem_cons_self, (length_of_newPage hpage).2⟩
      · have hold := h.retained p hp
        exact ⟨hold.1, List.mem_cons_of_mem _ hold.2.1, hold.2.2⟩
    · rw [← Option.some.inj hp]
      exact .putting rfl hpage List.mem_cons_self

theorem acknowledge_cases (journal : Journal) (page : PageCommitment) :
    (∃ e, journal.acknowledge page = (.error e, journal)) ∨
      ∃ bucket, journal.pending = some (.put bucket page) ∧
        journal.acknowledge page =
          (.ok (), ⟨Function.update journal.roots bucket (some page), none⟩) := by
  rw [Journal.acknowledge]
  split
  · rename_i bucket written hpending
    split_ifs with heq
    · subst heq
      exact .inr ⟨bucket, hpending, rfl⟩
    · exact .inl ⟨_, rfl⟩
  · exact .inl ⟨_, rfl⟩

theorem Inv.acknowledge (h : Inv B w) (page : PageCommitment) :
    Inv B (w.step B (.acknowledge page)) := by
  rw [World.step]
  obtain ⟨e, hack⟩ | ⟨bucket, hpending, hack⟩ := acknowledge_cases w.journal page
  · rw [hack]
    exact h
  · rw [hack]
    cases h.pending _ hpending with
    | @putting id record bytes hdraft hpage hkept =>
      refine ⟨fun bucket => ?_, h.retained, fun p hp => by cases hp⟩
      dsimp only
      rw [hdraft, Option.toList_some, List.singleton_append]
      by_cases hbucket : bucketOf id = bucket
      · subst hbucket
        rw [Function.update_self, List.filter_cons_of_pos (by simp)]
        exact .cons hpage hkept (h.chains (bucketOf id))
      · rw [Function.update_of_ne (Ne.symm hbucket),
          List.filter_cons_of_neg (by simpa using hbucket)]
        exact h.chains bucket

theorem Inv.reopen (h : Inv B w) : Inv B (w.step B .reopen) :=
  ⟨h.chains, h.retained, fun _ hp => nomatch hp⟩

theorem inv_init : Inv B .init :=
  ⟨fun _ => .nil, fun _ hp => absurd hp List.not_mem_nil, fun _ hp => nomatch hp⟩

/-- All bytes stay on record. -/
theorem seen_step (w : World) (op : Op) : w.seen ⊆ (w.step B op).seen := by
  cases op with
  | lookup id => exact List.Subset.refl _
  | supply bytes => exact List.subset_cons_self _ _
  | put id record =>
    rw [World.step]
    split
    · exact List.subset_cons_self _ _
    · exact List.Subset.refl _
  | acknowledge page =>
    rw [World.step]
    split <;> exact List.Subset.refl _
  | reopen => exact List.Subset.refl _

theorem CollisionFree.mono {pages pages' : List Bytes}
    (h : CollisionFreeOn B (pagePreimages pages')) (hsub : pages ⊆ pages') :
    CollisionFreeOn B (pagePreimages pages) :=
  Set.InjOn.mono (fun _ hx => List.map_subset _ hsub hx) h

theorem Inv.step (h : Inv B w) {op : Op}
    (hfree : CollisionFreeOn B (pagePreimages (w.step B op).seen)) : Inv B (w.step B op) := by
  cases op with
  | lookup id => exact h.lookup id
  | supply bytes => exact h.supply hfree
  | put id record => exact h.put id record
  | acknowledge page => exact h.acknowledge page
  | reopen => exact h.reopen

/-- The invariant of a run, as long as no two of its pages collide. -/
theorem inv_run (ops : List Op) (hfree : CollisionFreeOn B (pagePreimages (run B ops).seen)) :
    Inv B (run B ops) := by
  induction ops using List.reverseRecOn with
  | nil => exact inv_init
  | append_singleton ops op ih =>
    rw [run, List.foldl_append, List.foldl_cons, List.foldl_nil] at hfree ⊢
    exact (ih (CollisionFree.mono hfree (seen_step _ op))).step hfree

/-! ### Complete lookups -/

/-- The host answers with the retained page. -/
theorem Inv.host_eq (h : Inv B w) (hfree : CollisionFreeOn B (pagePreimages w.seen))
    {page : PageCommitment} {bytes : Bytes} (hkept : (page, bytes) ∈ w.retained) :
    w.host page = some bytes := by
  rw [World.host]
  cases hfind : w.retained.find? (·.1 = page) with
  | none =>
    rw [List.find?_eq_none] at hfind
    exact absurd (decide_eq_true rfl) (hfind _ hkept)
  | some p =>
    have hp := List.mem_of_find?_eq_some hfind
    have hpage : p.1 = page := by simpa using List.find?_some hfind
    have hdigest : pageDigest B p.2 = pageDigest B bytes := by
      have hsecond : page = Journal.commitment B bytes := (h.retained _ hkept).1
      have hfirst := (h.retained p hp).1
      rw [hpage, hsecond] at hfirst
      exact congrArg PageCommitment.digest hfirst.symm
    rw [Option.map_some, eq_of_pageDigest hfree (h.retained p hp).2.1 (h.retained _ hkept).2.1
      hdigest]

theorem lookup_idle {journal : Journal} (h : journal.pending = none) (id : Hash) :
    journal.lookup id = ({ journal with
      pending := some (.lookup id (journal.roots (bucketOf id)) none) } : Journal).lookup id := by
  rw [Journal.lookup, Journal.started, h]
  rfl

theorem lookup_found {journal : Journal} {id : Hash} {record : Option Record}
    (h : journal.pending = some (.lookup id none record)) :
    journal.lookup id = (.ok (.found record), { journal with pending := none }) := by
  rw [Journal.lookup, Journal.started, h]
  simp only [h, if_true]

theorem lookup_needPage {journal : Journal} {id : Hash} {page : PageCommitment}
    {record : Option Record} (h : journal.pending = some (.lookup id (some page) record)) :
    journal.lookup id = (.ok (.needPage page), journal) := by
  rw [Journal.lookup, Journal.started, h]
  simp only [h, if_true]

/-- A lookup over a chain of retained pages ends with its first record of the object. -/
theorem complete_of_chain {host : PageCommitment → Option Bytes} {id : Hash}
    (hhost : ∀ page bytes, (page, bytes) ∈ retained → host page = some bytes)
    {cursor : Option PageCommitment} {records : List (Hash × Record)}
    (hchain : Chain B retained cursor records)
    (hbucket : ∀ entry ∈ records, bucketOf entry.1 = bucketOf id) {journal : Journal}
    (hpending : journal.pending = some (.lookup id cursor none)) :
    complete B host id records.length journal =
      (.ok (recorded records id), { journal with pending := none }) := by
  induction hchain generalizing journal with
  | nil =>
    rw [complete, lookup_found hpending]
    rfl
  | @cons previous key record bytes rest hpage hkept hchain ih =>
    have hkey := hbucket _ List.mem_cons_self
    have hsupply : journal.supply B bytes = (.ok (), { journal with
        pending := some (afterPage id key previous record) }) := by
      rw [Journal.supply, hpending]
      dsimp only
      rw [readSupplied_of_newPage hpage hkey]
    rw [complete.eq_def, lookup_needPage hpending, List.length_cons]
    dsimp only
    rw [hhost _ _ hkept]
    dsimp only
    rw [hsupply]
    dsimp only
    by_cases heq : key = id
    · have hfound : recorded ((key, record) :: rest) id = some record := by
        rw [recorded, List.find?_cons_of_pos (by simpa using heq)]
        rfl
      rw [complete.eq_def, lookup_found (by rw [afterPage, if_pos heq]), hfound]
    · have hrest : recorded ((key, record) :: rest) id = recorded rest id := by
        rw [recorded, recorded, List.find?_cons_of_neg (by simpa using heq)]
      rw [hrest, ih (fun entry hentry => hbucket _ (List.mem_cons_of_mem _ hentry))
        (by rw [afterPage, if_neg heq])]

/-- A lookup that answers gives the record acknowledged last. -/
theorem Inv.found (h : Inv B w) {id : Hash} {record : Option Record}
    {journal : Journal} (hfound : w.journal.lookup id = (.ok (.found record), journal)) :
    record = recorded w.log id := by
  rw [Journal.lookup] at hfound
  split at hfound
  · rename_i requested cursor found hpending
    split_ifs at hfound with heq
    · subst heq
      cases cursor with
      | some page => cases hfound
      | none =>
        cases hfound
        cases h.stands_started requested _ hpending with
        | looking hchain _ hrecorded =>
          cases hchain
          exact hrecorded
        | found hrecorded => exact hrecorded.symm
    · cases hfound
  · cases hfound

/-- A lookup from an idle journal ends with the record acknowledged last. -/
theorem Inv.complete (h : Inv B w)
    (hfree : CollisionFreeOn B (pagePreimages w.seen)) (hidle : w.journal.pending = none)
    (id : Hash) :
    complete B w.host id (w.log.filter fun entry => bucketOf entry.1 = bucketOf id).length
      w.journal = (.ok (recorded w.log id), w.journal) := by
  have hbucket : ∀ entry ∈ w.log.filter fun entry => bucketOf entry.1 = bucketOf id,
      bucketOf entry.1 = bucketOf id := by
    intro entry hentry
    simpa using (List.mem_filter.1 hentry).2
  have hstarted : ({ w.journal with
      pending := some (.lookup id (w.journal.roots (bucketOf id)) none) } : Journal).pending =
        some (.lookup id (w.journal.roots (bucketOf id)) none) := rfl
  have hcomplete := complete_of_chain (fun page bytes => h.host_eq hfree) (h.chains (bucketOf id))
    hbucket hstarted
  rw [recorded_filter, complete.eq_def, ← lookup_idle hidle, ← complete.eq_def] at hcomplete
  rw [hcomplete]
  congr 1
  cases hjournal : w.journal
  rw [hjournal] at hidle
  cases hidle
  rfl

/-- Only the retained bytes of the requested page are taken; others change nothing. -/
theorem Inv.supply_only (h : Inv B w) {bytes : Bytes}
    (hfree : CollisionFreeOn B (pagePreimages (bytes :: w.seen))) :
    (∃ e, w.journal.supply B bytes = (.error e, w.journal)) ∨
      ∃ id page found, w.journal.pending = some (.lookup id (some page) found) ∧
        w.host page = some bytes := by
  obtain hfailed | ⟨id, expected, found, pending, hpending, hread, -⟩ :=
    supply_cases (B := B) w.journal bytes
  · exact .inl hfailed
  · obtain ⟨previous, key, record, bytes', hpage, rfl, hkept, -, -⟩ :=
      (h.pending _ hpending).afterPage
    have hseen := (h.retained _ hkept).2.1
    obtain rfl := eq_of_readSupplied hfree List.mem_cons_self (List.mem_cons_of_mem _ hseen) hread
    exact .inr ⟨id, _, found, hpending,
      h.host_eq (CollisionFree.mono hfree (List.subset_cons_self _ _)) hkept⟩

theorem Chain.validCommitment {page : PageCommitment} {records : List (Hash × Record)}
    (h : Chain B retained (some page) records) : validCommitment page = .ok () := by
  cases h with
  | cons hpage _ _ => exact validCommitment_of_newPage hpage

/-- A valid record is put and acknowledged from an idle journal, and then recorded. -/
theorem Inv.put_acknowledge (h : Inv B w) (hidle : w.journal.pending = none) {id : Hash}
    {record : Record} (hvalid : validateRecord id record = .ok ()) :
    ∃ page bytes journal, w.journal.put B id record = (.ok (page, bytes), journal) ∧
      ((w.step B (.put id record)).step B (.acknowledge page)).log = (id, record) :: w.log := by
  have hprevious : ∀ p ∈ w.journal.roots (bucketOf id), validCommitment p = .ok () := by
    intro p hp
    have hchain := h.chains (bucketOf id)
    rw [Option.mem_def.1 hp] at hchain
    exact hchain.validCommitment
  have hencode : encode (w.journal.roots (bucketOf id)) id record =
      .ok (pageWire (w.journal.roots (bucketOf id)) id record) :=
    encode_eq_ok.2 ⟨hprevious, rfl⟩
  have hpage : Journal.newPage (w.journal.roots (bucketOf id)) id record =
      .ok (pageWire (w.journal.roots (bucketOf id)) id record) :=
    Wire.bind_eq_ok.2 ⟨(), hvalid, hencode⟩
  generalize pageWire (w.journal.roots (bucketOf id)) id record = bytes at hpage
  have hput : w.journal.put B id record = (.ok (Journal.commitment B bytes, bytes),
      { w.journal with pending := some (.put (bucketOf id) (Journal.commitment B bytes)) }) := by
    rw [Journal.put, hidle]
    dsimp only
    rw [hpage]
  refine ⟨_, _, _, hput, ?_⟩
  have hack := acknowledge_cases (w.step B (.put id record)).journal (Journal.commitment B bytes)
  rw [World.step, hput] at hack ⊢
  obtain ⟨e, hack⟩ | ⟨bucket, -, hack⟩ := hack
  · rw [Journal.acknowledge] at hack
    simp at hack
  · rw [World.step, hack]
    rfl

/-- **The journal is a map.** The page codec is a bijection between valid records behind valid
commitments and pages. In a run of any calls, with any bytes, in which no two pages collide: a
valid record can be put and acknowledged when nothing is outstanding, and is then the last one of
its object; a lookup that answers gives the record acknowledged last; a lookup that is started
when nothing is outstanding and answered by the host ends, after no more pages than there are
records, and leaves the journal as it was; and bytes that are not the retained ones of the
requested page are refused and change nothing. -/
theorem journal_correct (B : Blake3) :
    (∀ previous id record, (∀ p ∈ previous, validCommitment p = .ok ()) →
      ∃ bytes, encode previous id record = .ok bytes) ∧
    (∀ previous id record bytes, decode bytes = .ok (previous, id, record) ↔
      encode previous id record = .ok bytes ∧ validateRecord id record = .ok ()) ∧
    ∀ ops, CollisionFreeOn B (pagePreimages (run B ops).seen) →
      ((run B ops).journal.pending = none → ∀ id record, validateRecord id record = .ok () →
        ∃ page bytes journal,
          (run B ops).journal.put B id record = (.ok (page, bytes), journal) ∧
          (run B (ops ++ [.put id record, .acknowledge page])).log =
            (id, record) :: (run B ops).log) ∧
      (∀ id record journal, (run B ops).journal.lookup id = (.ok (.found record), journal) →
        record = recorded (run B ops).log id) ∧
      ((run B ops).journal.pending = none → ∀ id, ∃ pages ≤ (run B ops).log.length,
        complete B (run B ops).host id pages (run B ops).journal =
          (.ok (recorded (run B ops).log id), (run B ops).journal)) ∧
      ∀ bytes, CollisionFreeOn B (pagePreimages (bytes :: (run B ops).seen)) →
        (∃ e, (run B ops).journal.supply B bytes = (.error e, (run B ops).journal)) ∨
          ∃ id page found, (run B ops).journal.pending = some (.lookup id (some page) found) ∧
            (run B ops).host page = some bytes := by
  refine ⟨fun previous id record hprevious => ⟨_, encode_eq_ok.2 ⟨hprevious, rfl⟩⟩,
    fun previous id record bytes => decode_eq_ok_iff, fun ops hfree => ?_⟩
  have hinv := inv_run ops hfree
  refine ⟨fun hidle id record hvalid => ?_, fun id record journal => hinv.found,
    fun hidle id => ⟨_, List.length_filter_le _ _, hinv.complete hfree hidle id⟩,
    fun bytes => hinv.supply_only⟩
  obtain ⟨page, bytes, journal, hput, hlog⟩ := hinv.put_acknowledge hidle hvalid
  refine ⟨page, bytes, journal, hput, ?_⟩
  rw [run, List.foldl_append]
  exact hlog

instance (B : Blake3) (pages : List Bytes) : Decidable (CollisionFreeOn B (pagePreimages pages)) :=
  inferInstanceAs (Decidable (CollisionFreeOn B {x | x ∈ pages.map (domainPreimage DOMAIN)}))

/-- An object is put twice, then once more without an acknowledgement. -/
def sampleOps : List Op :=
  let gray : Record := ⟨.blob, 19, .gray, some 9⟩
  let black : Record := { gray with state := .black }
  let first := Journal.commitment toyBlake3 (pageWire none ZERO gray)
  let second := Journal.commitment toyBlake3 (pageWire (some first) ZERO black)
  [.put ZERO gray, .acknowledge first, .put ZERO black, .acknowledge second,
    .put ZERO gray, .reopen]

/-- The second record is found. -/
theorem journal_correct_sample : ∃ pages ≤ 2,
    (complete toyBlake3 (run toyBlake3 sampleOps).host ZERO pages
      (run toyBlake3 sampleOps).journal).1 = .ok (some ⟨.blob, 19, .black, some 9⟩) := by
  have hfree : CollisionFreeOn toyBlake3 (pagePreimages (run toyBlake3 sampleOps).seen) := by
    decide +kernel
  have hlog : recorded (run toyBlake3 sampleOps).log ZERO =
      some ⟨.blob, 19, .black, some 9⟩ := by
    decide +kernel
  have hidle : (run toyBlake3 sampleOps).journal.pending = none := by decide +kernel
  have hlength : (run toyBlake3 sampleOps).log.length = 2 := by decide +kernel
  obtain ⟨-, -, hruns⟩ := journal_correct toyBlake3
  obtain ⟨-, -, hcomplete, -⟩ := hruns sampleOps hfree
  obtain ⟨pages, hpages, hrun⟩ := hcomplete hidle ZERO
  rw [hlength] at hpages
  refine ⟨pages, hpages, ?_⟩
  rw [hrun, hlog]

end Mkit.Visited
