import Mathlib.Data.UInt
import Mkit.Evidence.Proof
import Mkit.Lib.Separators

/-!
# Path Proofs over a Tree of Pages

The trees path proofs speak about: leaves and branches written with the page encoders, all
leaves at one depth, every child within the interval of its separators. A path that verifies
against the root of such a tree tells the value stored under the key, or that there is none;
the pages on the way from the root to the routed leaf do verify; and under any root at all a
key has at most one answer.

Digests of pages are assumed free of collisions on the pages in play: those of the tree and
those framed in the paths.
-/

namespace Mkit.Evidence

open Separators (Inside Separated)

/-! ### Trees -/

/-- A tree of the given height: a leaf of records, or subtrees of the next lower height, each but
the first behind its separator. -/
def Tree : ℕ → Type
  | 0 => List LeafRecord
  | h + 1 => Tree h × List (Hash × Tree h)

/-- The records stored in a tree. -/
def entries : (h : ℕ) → Tree h → List LeafRecord
  | 0, records => records
  | h + 1, (first, rest) => entries h first ++ rest.flatMap fun c => entries h c.2

/-- The keys stored in a tree. -/
def keys (h : ℕ) (t : Tree h) : Set Hash :=
  {k | k ∈ (entries h t).map (·.key)}

/-- Every child holds only keys of its separator interval. -/
def Bounded : (h : ℕ) → Tree h → Prop
  | 0, _ => True
  | h + 1, (first, rest) =>
    Separated (keys h) first none rest ∧ Bounded h first ∧ ∀ c ∈ rest, Bounded h c.2

/-- The commitments of encoded subtrees, behind their separators. -/
def encodeChildren {T : Type} (encode : T → Except Failure EncodedPage) :
    List (Hash × T) → Except Failure (List BranchChild)
  | [] => .ok []
  | c :: rest => do
    let page ← encode c.2
    let children ← encodeChildren encode rest
    return ⟨c.1, page.commitment⟩ :: children

section Encoding

variable (B : Blake3) (binding : EvidenceBinding) (kind : PageKind) (limits : EvidenceLimits)

/-- Encode a tree from its leaves up to its root page. -/
def encodeTree : (h : ℕ) → Tree h → Except Failure EncodedPage
  | 0, records => encodeLeaf B binding kind records limits
  | h + 1, (first, rest) => do
    let page ← encodeTree h first
    let children ← encodeChildren (encodeTree h) rest
    encodeInternal B binding kind (UInt8.ofNat (h + 1)) page.commitment children limits

/-- The bytes of an encoded page. -/
def pageBytes : Except Failure EncodedPage → List Bytes
  | .ok page => [page.bytes]
  | .error _ => []

/-- The bytes of all pages of a tree. -/
def treePages : (h : ℕ) → Tree h → List Bytes
  | 0, t => pageBytes (encodeTree B binding kind limits 0 t)
  | h + 1, (first, rest) =>
    pageBytes (encodeTree B binding kind limits (h + 1) (first, rest)) ++ treePages h first ++
      rest.flatMap fun c => treePages h c.2

/-- The pages from the root of a tree to the leaf of a key. -/
def honestPages (query : Hash) : (h : ℕ) → Tree h → List Bytes
  | 0, t => pageBytes (encodeTree B binding kind limits 0 t)
  | h + 1, (first, rest) =>
    pageBytes (encodeTree B binding kind limits (h + 1) (first, rest)) ++
      honestPages query h (Separators.pick query first none rest).child

end Encoding

/-- The pages framed in the bytes behind a path header. -/
def frames : ℕ → Bytes → List Bytes
  | 0, _ => []
  | fuel + 1, bytes =>
    let len := Wire.ofLeBytes (bytes.take 4)
    let rest := bytes.drop 4
    if bytes.length < 4 ∨ rest.length < len then []
    else rest.take len :: frames fuel (rest.drop len)

/-- The pages framed in a path. -/
def framedPages (path : Bytes) : List Bytes :=
  frames path.length (path.drop PATH_HEADER_BYTES)

/-- What page digests are taken of. -/
def pagePreimages (pages : List Bytes) : Set Bytes :=
  {x | x ∈ pages.map (domainPreimage PAGE_DOMAIN)}

instance (B : Blake3) (pages : List Bytes) : Decidable (CollisionFreeOn B (pagePreimages pages)) :=
  inferInstanceAs (Decidable (CollisionFreeOn B {x | x ∈ pages.map (domainPreimage PAGE_DOMAIN)}))

/-- Limits that do not bind on a path of the given number of pages. -/
structure EvidenceLimits.Suffice (limits : EvidenceLimits) (path : Bytes) (pages : ℕ) : Prop where
  pageBytes : MAX_PAGE_BYTES ≤ limits.pageBytes.toNat
  valueBytes : MAX_PAGE_BYTES ≤ limits.valueBytes.toNat
  proofBytes : path.length ≤ limits.proofBytes.toNat
  proofPages : pages ≤ limits.proofPages.toNat
  work : 5 * path.length ≤ limits.work.toNat

/-! ### Paths and their frames -/

theorem frames_flatMap {pages : List Bytes} {fuel : ℕ} (hfuel : pages.length ≤ fuel)
    (hshort : ∀ page ∈ pages, page.length < 2 ^ 32) :
    frames fuel (pages.flatMap writeFrame) = pages := by
  induction pages generalizing fuel with
  | nil => cases fuel <;> simp [frames]
  | cons page pages ih =>
    cases fuel with
    | zero => simp at hfuel
    | succ fuel =>
      obtain ⟨hpage, hpages⟩ := List.forall_mem_cons.1 hshort
      have hlen : Wire.ofLeBytes (Wire.leBytes 4 page.length) = page.length := by
        rw [Wire.ofLeBytes_leBytes, Nat.mod_eq_of_lt]
        exact hpage
      have htake : ((page :: pages).flatMap writeFrame).take 4 = Wire.leBytes 4 page.length := by
        rw [List.flatMap_cons, writeFrame, List.append_assoc]
        exact List.take_left' (Wire.length_leBytes 4 _)
      have hdrop : ((page :: pages).flatMap writeFrame).drop 4 =
          page ++ pages.flatMap writeFrame := by
        rw [List.flatMap_cons, writeFrame, List.append_assoc]
        exact List.drop_left' (Wire.length_leBytes 4 _)
      have hfits : ¬ (((page :: pages).flatMap writeFrame).length < 4 ∨
          (page ++ pages.flatMap writeFrame).length < page.length) := by
        simp only [List.flatMap_cons, writeFrame, List.length_append, Wire.length_leBytes]
        omega
      simp only [frames, htake, hdrop, hlen]
      rw [if_neg hfits, List.take_left' rfl, List.drop_left' rfl,
        ih (Nat.le_of_succ_le_succ hfuel) hpages]

theorem length_le_length_flatMap (pages : List Bytes) :
    pages.length ≤ (pages.flatMap writeFrame).length := by
  induction pages with
  | nil => simp
  | cons page pages ih =>
    simp only [List.length_cons, List.flatMap_cons, writeFrame, List.length_append,
      Wire.length_leBytes]
    omega

/-- The frames of a path are the pages it was made of. -/
theorem framedPages_encodePath (root : PageCommitment) (query : Hash) {pages : List Bytes}
    (hshort : ∀ page ∈ pages, page.length < 2 ^ 32) :
    framedPages (encodePath root query pages) = pages := by
  have hheader : (PATH_MAGIC ++ Wire.leBytes 2 1 ++ writeCommitment root ++ query.bytes ++
      Wire.leBytes 2 pages.length).length = PATH_HEADER_BYTES := by
    simp only [List.length_append, length_writeCommitment, ByteArr.length_bytes,
      Wire.length_leBytes, PATH_HEADER_BYTES, HASH_LEN]
    rfl
  have hdrop : (encodePath root query pages).drop PATH_HEADER_BYTES = pages.flatMap writeFrame :=
    List.drop_left' hheader
  rw [framedPages, hdrop]
  refine frames_flatMap ?_ hshort
  have hle := length_le_length_flatMap pages
  rw [length_encodePath]
  omega

section Answers

variable {B : Blake3} {binding : EvidenceBinding} {query : Hash} {limits limits' : EvidenceLimits}

theorem Leads.ok {pages : List Page} {level : Level} {value : Option Bytes}
    (h : Leads B binding query limits pages level value) : ∀ p ∈ pages, p.Ok binding limits := by
  induction pages generalizing level with
  | nil => simp
  | cons p pages ih =>
    obtain ⟨hok, -, -, hbody⟩ := h
    refine List.forall_mem_cons.2 ⟨hok, ?_⟩
    cases hb : p.body with
    | leaf records =>
      rw [hb] at hbody
      simp [hbody.1]
    | branch first children =>
      rw [hb] at hbody
      exact ih hbody.2

/-- The frames of a path that leads somewhere are its pages. -/
theorem Leads.framedPages {pages : List Page} {level : Level} {value : Option Bytes}
    (h : Leads B binding query limits pages level value) (root : PageCommitment) (key : Hash) :
    framedPages (encodePath root key (pages.map (Page.bytes binding))) =
      pages.map (Page.bytes binding) := by
  refine framedPages_encodePath root key ?_
  simp only [List.mem_map, forall_exists_index, and_imp, forall_apply_eq_imp_iff₂]
  exact fun p hp => (h.ok p hp).length_lt

variable {L : List Bytes}

/-- Free of collisions, a commitment names one page. -/
theorem eq_of_commitment (hfree : CollisionFreeOn B (pagePreimages L)) {p p' : Page}
    (hok : p.Ok binding limits) (hok' : p'.Ok binding limits')
    (hp : p.bytes binding ∈ L) (hp' : p'.bytes binding ∈ L)
    (h : p.commitment B binding = p'.commitment B binding) : p = p' := by
  refine Page.eq_of_bytes hok hok' ?_
  have hpreimage := hfree (List.mem_map_of_mem hp) (List.mem_map_of_mem hp')
    (congrArg PageCommitment.digest h)
  exact (domainPreimage_inj (by decide) (by decide) hpreimage).2

/-- **One answer.** Pages that lead from the same commitment lead to the same value. -/
theorem Leads.value_unique (hfree : CollisionFreeOn B (pagePreimages L))
    {pages pages' : List Page} {level level' : Level} {value value' : Option Bytes}
    (h : Leads B binding query limits pages level value)
    (h' : Leads B binding query limits' pages' level' value')
    (hexpected : level.expected = level'.expected)
    (hpages : ∀ p ∈ pages, p.bytes binding ∈ L) (hpages' : ∀ p ∈ pages', p.bytes binding ∈ L) :
    value = value' := by
  induction pages generalizing pages' level level' with
  | nil => exact h.elim
  | cons p pages ih =>
    cases pages' with
    | nil => exact h'.elim
    | cons p' pages' =>
      obtain ⟨hok, hcommitment, -, hbody⟩ := h
      obtain ⟨hok', hcommitment', -, hbody'⟩ := h'
      obtain ⟨hp, hrest⟩ := List.forall_mem_cons.1 hpages
      obtain ⟨hp', hrest'⟩ := List.forall_mem_cons.1 hpages'
      obtain rfl := eq_of_commitment hfree hok hok' hp hp'
        (hcommitment.trans (hexpected.trans hcommitment'.symm))
      cases hb : p.body with
      | leaf records =>
        rw [hb] at hbody hbody'
        exact hbody.2.2.trans hbody'.2.2.symm
      | branch first children =>
        rw [hb] at hbody hbody'
        exact ih hbody.2 hbody'.2 rfl hrest hrest'

end Answers

/-! ### Encoded trees -/

theorem outsideInterval_iff {lower upper : Option Hash} {key : Hash} :
    outsideInterval lower upper key ↔ ¬ Inside lower upper key := by
  simp only [outsideInterval, Inside, not_and_or, not_forall, not_le, not_lt, exists_prop]

/-- A child commitment stands for the encoding of a subtree behind the same separator. -/
def Encoded {T : Type} (encode : T → Except Failure EncodedPage) (c : Hash × T) (b : BranchChild) :
    Prop :=
  b.separator = c.1 ∧ ∃ page, encode c.2 = .ok page ∧ b.child = page.commitment

variable {T : Type}

theorem encodeChildren_eq_ok {encode : T → Except Failure EncodedPage}
    {rest : List (Hash × T)} {children : List BranchChild}
    (h : encodeChildren encode rest = .ok children) :
    List.Forall₂ (Encoded encode) rest children := by
  induction rest generalizing children with
  | nil =>
    obtain rfl := Except.ok.inj h
    exact .nil
  | cons c rest ih =>
    simp only [encodeChildren, Wire.bind_eq_ok] at h
    obtain ⟨page, hpage, more, hmore, hchildren⟩ := h
    obtain rfl := Except.ok.inj hchildren
    exact .cons ⟨rfl, page, hpage, rfl⟩ (ih hmore)

/-- A branch routes to the commitment of the subtree the key belongs to. -/
theorem routeOf_encoded {encode : T → Except Failure EncodedPage} (query : Hash)
    {first : T} {page : EncodedPage} (hfirst : encode first = .ok page) (low : Option Hash)
    {rest : List (Hash × T)} {children : List BranchChild}
    (h : List.Forall₂ (Encoded encode) rest children) :
    ∃ page', encode (Separators.pick query first low rest).child = .ok page' ∧
      routeOf query page.commitment low children =
        ⟨page'.commitment, (Separators.pick query first low rest).lower,
          (Separators.pick query first low rest).upper⟩ := by
  induction h generalizing first page low with
  | nil => exact ⟨page, hfirst, rfl⟩
  | @cons c b rest children hb hrest ih =>
    obtain ⟨hseparator, next, hnext, hchild⟩ := hb
    rw [Separators.pick, routeOf, hseparator, hchild]
    split_ifs with hlt
    · exact ⟨page, hfirst, rfl⟩
    · exact ih hnext (some c.1)

theorem Encoded.separators {encode : T → Except Failure EncodedPage}
    {rest : List (Hash × T)} {children : List BranchChild}
    (h : List.Forall₂ (Encoded encode) rest children) :
    children.map (·.separator) = rest.map Prod.fst := by
  induction h with
  | nil => rfl
  | cons hb hrest ih => rw [List.map_cons, List.map_cons, hb.1, ih]

/-- Related lists have a partner for every member. -/
theorem exists_partner {α β : Type} {R : α → β → Prop} {l : List α} {l' : List β}
    (h : List.Forall₂ R l l') {a : α} (ha : a ∈ l) : ∃ b ∈ l', R a b := by
  induction h with
  | nil => simp at ha
  | cons hb hrest ih =>
    obtain rfl | ha := List.mem_cons.1 ha
    · exact ⟨_, List.mem_cons_self, hb⟩
    · obtain ⟨b, hmem, hab⟩ := ih ha
      exact ⟨b, List.mem_cons_of_mem _ hmem, hab⟩

section Trees

variable {B : Blake3} {binding : EvidenceBinding} {kind : PageKind} {limits limits' : EvidenceLimits}
variable {h : ℕ} {page : EncodedPage}

/-- The root page of an encoded tree of positive height. -/
theorem encodeTree_succ {first : Tree h} {rest : List (Hash × Tree h)}
    (hpage : encodeTree B binding kind limits (h + 1) (first, rest) = .ok page) :
    ∃ firstPage children, encodeTree B binding kind limits h first = .ok firstPage ∧
      List.Forall₂ (Encoded (encodeTree B binding kind limits h)) rest children ∧
      Page.Ok binding limits ⟨kind, UInt8.ofNat (h + 1), .branch firstPage.commitment children⟩ ∧
      page = ⟨Page.bytes binding ⟨kind, UInt8.ofNat (h + 1), .branch firstPage.commitment children⟩,
        Page.commitment B binding
          ⟨kind, UInt8.ofNat (h + 1), .branch firstPage.commitment children⟩⟩ := by
  simp only [encodeTree, Wire.bind_eq_ok] at hpage
  obtain ⟨firstPage, hfirst, children, hchildren, hinternal⟩ := hpage
  obtain ⟨hok, rfl⟩ := encodeInternal_eq_ok hinternal
  exact ⟨firstPage, children, hfirst, encodeChildren_eq_ok hchildren, hok, rfl⟩

variable {t : Tree h}

/-- The page of a tree is one of its pages. -/
theorem bytes_mem_treePages (hpage : encodeTree B binding kind limits h t = .ok page) :
    page.bytes ∈ treePages B binding kind limits h t := by
  cases h with
  | zero =>
    rw [treePages, hpage]
    exact List.mem_singleton.2 rfl
  | succ h =>
    obtain ⟨first, rest⟩ := t
    rw [treePages, hpage]
    exact List.mem_append_left _ (List.mem_append_left _ (List.mem_singleton.2 rfl))

/-- The pages of a subtree are pages of the tree. -/
theorem treePages_child {first c : Tree h} {rest : List (Hash × Tree h)}
    (hc : c = first ∨ c ∈ rest.map Prod.snd) {bytes : Bytes}
    (hbytes : bytes ∈ treePages B binding kind limits h c) :
    bytes ∈ treePages B binding kind limits (h + 1) (first, rest) := by
  rw [treePages]
  obtain rfl | hc := hc
  · exact List.mem_append_left _ (List.mem_append_right _ hbytes)
  · obtain ⟨d, hd, rfl⟩ := List.mem_map.1 hc
    exact List.mem_append_right _ (List.mem_flatMap.2 ⟨d, hd, hbytes⟩)

variable {r : LeafRecord}

theorem mem_entries_succ {first : Tree h} {rest : List (Hash × Tree h)} :
    r ∈ entries (h + 1) (first, rest) ↔
      ∃ c, (c = first ∨ c ∈ rest.map Prod.snd) ∧ r ∈ entries h c := by
  simp only [entries, List.mem_append, List.mem_flatMap, List.mem_map, or_and_right, exists_or,
    exists_eq_left]
  refine or_congr_right ⟨?_, ?_⟩
  · rintro ⟨c, hc, hr⟩
    exact ⟨c.2, ⟨c, hc, rfl⟩, hr⟩
  · rintro ⟨_, ⟨c, hc, rfl⟩, hr⟩
    exact ⟨c, hc, hr⟩

/-- Only the subtree the key belongs to can hold it. -/
theorem mem_entries_pick {first : Tree h} {rest : List (Hash × Tree h)}
    (hseparated : Separated (keys h) first none rest)
    (hsorted : (rest.map Prod.fst).Pairwise (· < ·)) : r ∈ entries (h + 1) (first, rest) ↔
      r ∈ entries h (Separators.pick r.key first none rest).child := by
  rw [mem_entries_succ]
  constructor
  · rintro ⟨c, hc, hr⟩
    rw [hseparated.eq_pick_of_mem hsorted hc (List.mem_map_of_mem hr)]
    exact hr
  · intro hr
    exact ⟨_, Separators.pick_mem r.key first none rest, hr⟩

theorem Bounded.child {first c : Tree h} {rest : List (Hash × Tree h)}
    (hbounded : Bounded (h + 1) (first, rest)) (hc : c = first ∨ c ∈ rest.map Prod.snd) :
    Bounded h c := by
  obtain rfl | hc := hc
  · exact hbounded.2.1
  · obtain ⟨d, hd, rfl⟩ := List.mem_map.1 hc
    exact hbounded.2.2 d hd

/-- The separators of an encoded branch ascend. -/
theorem separators_sorted {height : UInt8} {rest : List (Hash × Tree h)}
    {commitment : PageCommitment} {children : List BranchChild}
    (hchildren : List.Forall₂ (Encoded (encodeTree B binding kind limits h)) rest children)
    (hok : Page.Ok binding limits ⟨kind, height, .branch commitment children⟩) :
    (rest.map Prod.fst).Pairwise (· < ·) := by
  have hascends : Ascends none (children.map (·.separator)) := hok.body.2.2.ascends
  rw [Encoded.separators hchildren] at hascends
  exact hascends

/-- **Soundness.** Pages that lead from the root of a tree lead to the value stored under the
query, or to none when nothing is. -/
theorem Leads.value_of_tree {L : List Bytes} {query : Hash}
    (hfree : CollisionFreeOn B (pagePreimages L))
    (hpage : encodeTree B binding kind limits h t = .ok page) (hbounded : Bounded h t)
    (htree : ∀ bytes ∈ treePages B binding kind limits h t, bytes ∈ L) {pages : List Page}
    {level : Level} {value : Option Bytes}
    (hleads : Leads B binding query limits' pages level value)
    (hpages : ∀ p ∈ pages, p.bytes binding ∈ L) (hexpected : level.expected = page.commitment)
    (v : Bytes) : value = some v ↔ ⟨query, v⟩ ∈ entries h t := by
  induction h generalizing page pages level with
  | zero =>
    cases pages with
    | nil => exact hleads.elim
    | cons p pages =>
      obtain ⟨hok, hcommitment, -, hbody⟩ := hleads
      have hmem := htree _ (bytes_mem_treePages hpage)
      obtain ⟨hleaf, rfl⟩ := encodeLeaf_eq_ok hpage
      obtain rfl := eq_of_commitment hfree hok hleaf (hpages _ List.mem_cons_self) hmem
        (hcommitment.trans hexpected)
      obtain ⟨-, -, rfl⟩ := hbody
      have hascends : (t.map (·.key)).Pairwise (· < ·) := hleaf.body.2.ascends
      exact valueOf_eq_some (hascends.imp fun hlt => hlt.ne)
  | succ h ih =>
    obtain ⟨first, rest⟩ := t
    cases pages with
    | nil => exact hleads.elim
    | cons p pages =>
      obtain ⟨hok, hcommitment, -, hbody⟩ := hleads
      have hmem := htree _ (bytes_mem_treePages hpage)
      obtain ⟨firstPage, children, hfirst, hchildren, hbranch, rfl⟩ := encodeTree_succ hpage
      obtain rfl := eq_of_commitment hfree hok hbranch (hpages _ List.mem_cons_self) hmem
        (hcommitment.trans hexpected)
      obtain ⟨-, hleads⟩ := hbody
      obtain ⟨childPage, hchild, hroute⟩ := routeOf_encoded query hfirst none hchildren
      have hpick := Separators.pick_mem query first none rest
      have hstored := ih hchild (hbounded.child hpick)
        (fun bytes hbytes => htree bytes (treePages_child hpick hbytes)) hleads
        (fun p hp => hpages p (List.mem_cons_of_mem _ hp)) (by rw [hroute]; rfl)
      rw [hstored]
      exact (mem_entries_pick hbounded.1 (separators_sorted hchildren hbranch)
        (r := ⟨query, v⟩)).symm

/-- A page that was encoded decodes under any limits that leave room for the largest page. -/
theorem Page.Ok.widen {p : Page} (hok : p.Ok binding limits)
    (hbytes : MAX_PAGE_BYTES ≤ limits'.pageBytes.toNat)
    (hvalues : MAX_PAGE_BYTES ≤ limits'.valueBytes.toNat) : p.Ok binding limits' := by
  have hcap : limits'.pageCap = MAX_PAGE_BYTES := min_eq_right hbytes
  have hcap' : limits.pageCap ≤ MAX_PAGE_BYTES := min_le_right _ _
  have hlen : (p.bytes binding).length ≤ MAX_PAGE_BYTES := hok.length_le.trans hcap'
  have hchild : ∀ child, childOk limits p.kind child → childOk limits' p.kind child := by
    rintro child ⟨hkind, hitems, hfanout, hheader, hchild⟩
    refine ⟨hkind, hitems, hfanout, hheader, ?_⟩
    rw [hcap]
    exact hchild.trans hcap'
  refine ⟨hok.supported, ?_, hok.height_le, hok.items_le, by rwa [hcap]⟩
  have hbody := hok.body
  cases hb : p.body with
  | leaf records =>
    rw [hb] at hbody
    refine ⟨hbody.1, hbody.2.ascends, fun r hr => ⟨?_, (hbody.2.values r hr).2⟩⟩
    have hpart : r.value.length ≤ (p.bytes binding).length := by
      have hwrite : r.value.length ≤ (writeRecord r).length := by
        rw [writeRecord, List.length_append]
        omega
      have hsub := (List.sublist_flatten_of_mem
        (List.mem_map_of_mem (f := writeRecord) hr)).length_le
      rw [Page.bytes, hb, PageBody.payload, List.length_append, List.flatMap_def]
      omega
    omega
  | branch first rest =>
    rw [hb] at hbody
    exact ⟨hbody.1, hchild _ hbody.2.1, hbody.2.2.ascends,
      fun c hc => hchild _ (hbody.2.2.children c hc)⟩

/-- A tree whose root page has items stores something. -/
theorem entries_ne_nil (hpage : encodeTree B binding kind limits h t = .ok page)
    (hitems : page.commitment.items.toNat ≠ 0) : entries h t ≠ [] := by
  induction h generalizing page with
  | zero =>
    obtain ⟨-, rfl⟩ := encodeLeaf_eq_ok hpage
    rintro hnil
    rw [entries] at hnil
    rw [hnil] at hitems
    exact hitems rfl
  | succ h ih =>
    obtain ⟨first, rest⟩ := t
    obtain ⟨firstPage, children, hfirst, -, hbranch, -⟩ := encodeTree_succ hpage
    have hsome := ih hfirst hbranch.body.2.1.2.1
    rw [entries]
    exact fun hnil => hsome (List.append_eq_nil_iff.1 hnil).1

/-- No subtree of an encoded branch is empty. -/
theorem keys_nonempty {height : UInt8} {first c : Tree h} {rest : List (Hash × Tree h)}
    {firstPage : EncodedPage} {children : List BranchChild}
    (hfirst : encodeTree B binding kind limits h first = .ok firstPage)
    (hchildren : List.Forall₂ (Encoded (encodeTree B binding kind limits h)) rest children)
    (hok : Page.Ok binding limits ⟨kind, height, .branch firstPage.commitment children⟩)
    (hc : c = first ∨ c ∈ rest.map Prod.snd) : (keys h c).Nonempty := by
  have hstored : entries h c ≠ [] := by
    obtain rfl | hc := hc
    · exact entries_ne_nil hfirst hok.body.2.1.2.1
    · obtain ⟨d, hd, rfl⟩ := List.mem_map.1 hc
      obtain ⟨b, hb, -, page, hpage, hcommitment⟩ := exists_partner hchildren hd
      have hitems := (hok.body.2.2.children b hb).2.1
      rw [hcommitment] at hitems
      exact entries_ne_nil hpage hitems
  obtain ⟨r, hr⟩ := List.exists_mem_of_ne_nil _ hstored
  exact ⟨r.key, List.mem_map_of_mem hr⟩

/-- Encoded trees have at most 32 levels of branches. -/
theorem height_le (hpage : encodeTree B binding kind limits h t = .ok page) : h ≤ 32 := by
  induction h generalizing page with
  | zero => exact Nat.zero_le _
  | succ h ih =>
    obtain ⟨first, rest⟩ := t
    obtain ⟨firstPage, children, hfirst, -, hbranch, -⟩ := encodeTree_succ hpage
    have hle := ih hfirst
    have hheight : (UInt8.ofNat (h + 1)).toNat ≤ 32 := hbranch.height_le
    rw [UInt8.toNat_ofNat', Nat.mod_eq_of_lt (by omega)] at hheight
    exact hheight

/-- **Completeness.** The pages from the root of a tree to the leaf of the query lead there. -/
theorem exists_leads (query : Hash) (hbytes : MAX_PAGE_BYTES ≤ limits'.pageBytes.toNat)
    (hvalues : MAX_PAGE_BYTES ≤ limits'.valueBytes.toNat)
    (hpage : encodeTree B binding kind limits h t = .ok page) (hbounded : Bounded h t)
    (level : Level) (hexpected : page.commitment = level.expected)
    (hheight : ∀ height ∈ level.height, UInt8.ofNat h = height)
    (hinside : ∀ r ∈ entries h t, Inside level.lower level.upper r.key) :
    ∃ pages value, pages.map (Page.bytes binding) = honestPages B binding kind limits query h t ∧
      pages.length = h + 1 ∧ Leads B binding query limits' pages level value := by
  induction h generalizing page level with
  | zero =>
    obtain ⟨hok, rfl⟩ := encodeLeaf_eq_ok hpage
    refine ⟨[⟨kind, 0, .leaf t⟩], valueOf query t, ?_, rfl, hok.widen hbytes hvalues, hexpected,
      hheight, rfl, fun r hr => ?_, rfl⟩
    · rw [honestPages, hpage]
      rfl
    · rw [outsideInterval_iff, not_not]
      exact hinside r hr
  | succ h ih =>
    obtain ⟨first, rest⟩ := t
    have hle := height_le hpage
    obtain ⟨firstPage, children, hfirst, hchildren, hok, hpage'⟩ := encodeTree_succ hpage
    obtain ⟨childPage, hchild, hroute⟩ := routeOf_encoded query hfirst none hchildren
    have hpick := Separators.pick_mem query first none rest
    have hall : ∀ c, c = first ∨ c ∈ rest.map Prod.snd → ∀ k ∈ keys h c,
        Inside level.lower level.upper k := by
      rintro c hc k hk
      obtain ⟨r, hr, rfl⟩ := List.mem_map.1 hk
      exact hinside r (mem_entries_succ.2 ⟨c, hc, hr⟩)
    have hseparators : ∀ c ∈ children, ¬ outsideInterval level.lower level.upper c.separator := by
      intro b hb
      obtain ⟨c, hc, hseparator, -⟩ := exists_partner hchildren.flip hb
      rw [outsideInterval_iff, not_not, hseparator]
      exact hbounded.1.separator_inside (fun d hd => keys_nonempty hfirst hchildren hok hd) hall hc
    have hnext : ∀ height ∈ (level.descend (UInt8.ofNat (h + 1))
        (routeOf query firstPage.commitment none children)).height, UInt8.ofNat h = height := by
      simp [Level.descend]
    -- the interval of the child is the one its separators leave of the inherited one
    have hdescend : ∀ r ∈ entries h (Separators.pick query first none rest).child,
        Inside (level.descend (UInt8.ofNat (h + 1))
          (routeOf query firstPage.commitment none children)).lower
          (level.descend (UInt8.ofNat (h + 1))
          (routeOf query firstPage.commitment none children)).upper r.key := by
      intro r hr
      have hkey : r.key ∈ keys h (Separators.pick query first none rest).child :=
        List.mem_map_of_mem hr
      have hown := hbounded.1.pick_inside hkey
      have hinherited := hall _ hpick _ hkey
      rw [hroute]
      refine ⟨fun low hlow => ?_, fun high hhigh => ?_⟩
      · rcases Option.or_eq_some_iff.1 hlow with hlow | ⟨-, hlow⟩
        · exact hown.1 low hlow
        · exact hinherited.1 low hlow
      · rcases Option.or_eq_some_iff.1 hhigh with hhigh | ⟨-, hhigh⟩
        · exact hown.2 high hhigh
        · exact hinherited.2 high hhigh
    obtain ⟨pages, value, hmap, hlen, hleads⟩ := ih hchild (hbounded.child hpick)
      (level.descend (UInt8.ofNat (h + 1)) (routeOf query firstPage.commitment none children))
      (by rw [hroute]; rfl) hnext hdescend
    refine ⟨⟨kind, UInt8.ofNat (h + 1), .branch firstPage.commitment children⟩ :: pages, value,
      ?_, by rw [List.length_cons, hlen], hok.widen hbytes hvalues, ?_, hheight, hseparators,
      hleads⟩
    · rw [List.map_cons, hmap, honestPages, hpage, hpage']
      rfl
    · rw [← hexpected, hpage']

theorem length_writeHeader (binding : EvidenceBinding) (kind : PageKind) (height : UInt8)
    (items payloadLen : ℕ) :
    (writeHeader binding kind height items payloadLen).length = HEADER_BYTES := by
  simp only [writeHeader, List.length_append, ByteArr.length_bytes, Wire.length_leBytes, HASH_LEN,
    HEADER_BYTES]
  rfl

/-- A page of a path costs at most four units for each of its bytes. -/
theorem pagePrice_le {p : Page} (hok : p.Ok binding limits) :
    pagePrice binding p ≤ 4 * (p.bytes binding).length := by
  have hlen : HEADER_BYTES ≤ (p.bytes binding).length := by
    rw [Page.bytes, List.length_append, length_writeHeader]
    exact Nat.le_add_right _ _
  have hitems := hok.items_le
  rw [HEADER_BYTES] at hlen
  rw [PAGE_FANOUT] at hitems
  rw [pagePrice]
  cases hb : p.body with
  | leaf records =>
    rw [hb, PageBody.items] at hitems
    rw [PageBody.price, PageBody.routePrice]
    omega
  | branch first rest =>
    rw [hb, PageBody.items] at hitems
    rw [PageBody.price, PageBody.routePrice]
    omega

theorem sum_pagePrice_le {pages : List Page} (hok : ∀ p ∈ pages, p.Ok binding limits) :
    (pages.map (pagePrice binding)).sum ≤
      4 * ((pages.map (Page.bytes binding)).flatMap writeFrame).length := by
  induction pages with
  | nil => exact Nat.zero_le _
  | cons p pages ih =>
    obtain ⟨hp, hpages⟩ := List.forall_mem_cons.1 hok
    have hprice := pagePrice_le hp
    have hrest := ih hpages
    simp only [List.map_cons, List.sum_cons, List.flatMap_cons, writeFrame, List.length_append,
      Wire.length_leBytes] at hrest ⊢
    omega

end Trees

/-- **Path proofs are sound, complete and unambiguous.** Over a tree built with the page encoders,
every path that verifies carries the value stored under its key, or tells that nothing is; the
pages from the root to the leaf of a key verify. Under any root, a key has one answer. -/
theorem verifyPath_sound_complete (B : Blake3) (binding : EvidenceBinding) :
    (∀ (kind : PageKind) (limits : EvidenceLimits) (h : ℕ) (t : Tree h) (root : EncodedPage)
        (query : Hash) (limits' : EvidenceLimits),
      encodeTree B binding kind limits h t = .ok root → Bounded h t →
      (∀ bytes lookup,
        CollisionFreeOn B
          (pagePreimages (treePages B binding kind limits h t ++ framedPages bytes)) →
        verifyPath B bytes binding root.commitment query limits' = .ok lookup →
        (∀ v, lookup.value = some v ↔ ⟨query, v⟩ ∈ entries h t) ∧
        (lookup.value = none ↔ ∀ r ∈ entries h t, r.key ≠ query)) ∧
      (limits'.Suffice
          (encodePath root.commitment query (honestPages B binding kind limits query h t)) (h + 1) →
        ∃ lookup, verifyPath B
          (encodePath root.commitment query (honestPages B binding kind limits query h t)) binding
          root.commitment query limits' = .ok lookup)) ∧
    (∀ (root : PageCommitment) (query : Hash) (limits limits' : EvidenceLimits) (bytes bytes' : Bytes)
        (lookup lookup' : Lookup),
      CollisionFreeOn B (pagePreimages (framedPages bytes ++ framedPages bytes')) →
      verifyPath B bytes binding root query limits = .ok lookup →
      verifyPath B bytes' binding root query limits' = .ok lookup' →
      lookup.value = lookup'.value) := by
  refine ⟨fun kind limits h t root query limits' hroot hbounded => ⟨?_, ?_⟩, ?_⟩
  · intro bytes lookup hfree hverify
    obtain ⟨pages, rfl, hleads, -⟩ := verifyPath_eq_ok.1 hverify
    rw [hleads.framedPages] at hfree
    have hvalue := hleads.value_of_tree hfree hroot hbounded
      (fun bytes hbytes => List.mem_append_left _ hbytes)
      (fun p hp => List.mem_append_right _ (List.mem_map_of_mem hp)) rfl
    refine ⟨hvalue, ?_⟩
    rw [Option.eq_none_iff_forall_not_mem]
    constructor
    · rintro hnone ⟨key, v⟩ hr rfl
      exact hnone v ((hvalue v).2 hr)
    · intro hnowhere v hv
      exact hnowhere _ ((hvalue v).1 hv) rfl
  · rintro ⟨hbytes, hvalues, hproof, hpages, hwork⟩
    obtain ⟨pages, value, hmap, hlen, hleads⟩ := exists_leads query hbytes hvalues hroot
      hbounded ⟨root.commitment, none, none, none⟩ rfl (by simp) (by simp [Inside])
    have hheight := height_le hroot
    have hprice := sum_pagePrice_le hleads.ok
    have hpath := length_encodePath root.commitment query (pages.map (Page.bytes binding))
    rw [← hmap] at hproof hwork ⊢
    refine ⟨⟨root.commitment, binding, query, value⟩, verifyPath_eq_ok.2 ⟨pages, rfl, hleads, rfl,
      by omega, by omega, hproof, ?_⟩⟩
    rw [PATH_HEADER_BYTES] at hpath
    omega
  · intro root query limits limits' bytes bytes' lookup lookup' hfree hverify hverify'
    obtain ⟨pages, rfl, hleads, -⟩ := verifyPath_eq_ok.1 hverify
    obtain ⟨pages', rfl, hleads', -⟩ := verifyPath_eq_ok.1 hverify'
    rw [hleads.framedPages, hleads'.framedPages] at hfree
    exact hleads.value_unique hfree hleads' rfl
      (fun p hp => List.mem_append_left _ (List.mem_map_of_mem hp))
      (fun p hp => List.mem_append_right _ (List.mem_map_of_mem hp))

/-- The bounded codec profile for indexed evidence. -/
def EvidenceLimits.indexed : EvidenceLimits :=
  ⟨2 ^ 20, 2 ^ 20, 16 * 2 ^ 20, 16, 128 * 2 ^ 20, 4 * 2 ^ 20⟩

/-- A binding of a small source. -/
def sampleBinding : EvidenceBinding :=
  ⟨⟨ByteArr.fill HASH_LEN 1, 44, ByteArr.fill HASH_LEN 7⟩, ByteArr.fill HASH_LEN 9, ⟨1, .indexed⟩⟩

/-- Two leaves behind one separator. -/
def sampleTree : Tree 1 :=
  ([⟨ByteArr.fill HASH_LEN 2, [1]⟩, ⟨ByteArr.fill HASH_LEN 4, []⟩],
    [(ByteArr.fill HASH_LEN 6, [⟨ByteArr.fill HASH_LEN 7, [3]⟩])])

/-- The path to a key of the sample tree. -/
def samplePath (root : EncodedPage) (query : Hash) : Bytes :=
  encodePath root.commitment query
    (honestPages toyBlake3 sampleBinding .objects .indexed query 1 sampleTree)

/-- The separator itself is a key of the right leaf: it is absent there, and 7 is present. -/
theorem verifyPath_sound_complete_sample :
    ∃ root, encodeTree toyBlake3 sampleBinding .objects .indexed 1 sampleTree = .ok root ∧
      ∀ query ∈ [ByteArr.fill HASH_LEN 6, ByteArr.fill HASH_LEN 7],
      ∃ lookup, verifyPath toyBlake3 (samplePath root query) sampleBinding root.commitment query
          .indexed = .ok lookup ∧
        (lookup.value = some [3] ↔ ⟨query, [3]⟩ ∈ entries 1 sampleTree) := by
  have hok : ∃ root ∈ (encodeTree toyBlake3 sampleBinding .objects .indexed 1 sampleTree).toOption,
      ∀ query ∈ [ByteArr.fill HASH_LEN 6, ByteArr.fill HASH_LEN 7],
        (samplePath root query).length ≤ 1000 ∧
        CollisionFreeOn toyBlake3 (pagePreimages
          (treePages toyBlake3 sampleBinding .objects .indexed 1 sampleTree ++
            framedPages (samplePath root query))) := by
    decide +kernel
  obtain ⟨root, hroot, hqueries⟩ := hok
  have hroot : encodeTree toyBlake3 sampleBinding .objects .indexed 1 sampleTree = .ok root := by
    revert hroot
    cases encodeTree toyBlake3 sampleBinding .objects .indexed 1 sampleTree <;>
      simp [Except.toOption]
  have hbounded : Bounded 1 sampleTree := by
    have hleft : ByteArr.fill HASH_LEN 2 < ByteArr.fill HASH_LEN 6 ∧
        ByteArr.fill HASH_LEN 4 < ByteArr.fill HASH_LEN 6 ∧
        ByteArr.fill HASH_LEN 6 ≤ ByteArr.fill HASH_LEN 7 := by
      decide +kernel
    simp [Bounded, Separated, keys, entries, sampleTree, Inside, hleft]
  refine ⟨root, hroot, fun query hquery => ?_⟩
  obtain ⟨hlen, hfree⟩ := hqueries query hquery
  obtain ⟨hsound, hcomplete⟩ := (verifyPath_sound_complete toyBlake3 sampleBinding).1 .objects
    .indexed 1 sampleTree root query .indexed hroot hbounded
  have hcost : 5 * (samplePath root query).length ≤ EvidenceLimits.indexed.work.toNat :=
    (Nat.mul_le_mul_left 5 hlen).trans (by decide)
  obtain ⟨lookup, hlookup⟩ := hcomplete ⟨by decide, by decide, hlen.trans (by decide), by decide,
    hcost⟩
  exact ⟨lookup, hlookup, (hsound _ lookup hfree hlookup).1 [3]⟩

end Mkit.Evidence
