import Mathlib.Data.List.Sort
import Mkit.Lib.Bmt
import Mkit.Lib.Fallible
import Mkit.Object

/-!
# Merkle Identities and Inclusion Proofs

Trees and chunked blobs are addressed by the root of a binary Merkle tree over their leaves
(`merkle.rs`): leaves are hashed with their position, an odd node is paired with itself, the
top node is hashed with the leaf count, and the result is wrapped with the type domain of the
object kind. A proof lists the sibling nodes a verifier needs to rebuild the root from some
of the leaves.

A panic of the source (`u32_of` on a count that does not fit) is the outer `none`; errors are
values of `MerkleError`.

Collision freedom is assumed on the byte strings a computation hashes; these are listed by
`treePreimages`, `chunkedPreimages` and the `…VerifyPreimages` functions.

## Main results

* `computeTreeId_inj`, `computeChunkedId_inj` — equal ids come from equal objects;
* `multi_proofs_sound` — an accepted multi-leaf proof names leaves of the object behind the
  id, and no proof is accepted against an id of the other kind.
-/

namespace Mkit

/-! ### Domains and kinds -/

/-- Type domain for the identity wrap of a chunked blob. -/
def CHUNKED_TYPE_DOMAIN : Bytes :=
  ascii ['m', 'k', 'i', 't', '.', 'c', 'h', 'u', 'n', 'k', 'e', 'd'] ++ [0]

/-- Type domain for the identity wrap of a tree. -/
def TREE_TYPE_DOMAIN : Bytes :=
  ascii ['m', 'k', 'i', 't', '.', 't', 'r', 'e', 'e'] ++ [0]

/-- Leaf domain binding the sizes of a chunked blob. -/
def CBLOB_META_DOMAIN : Bytes :=
  ascii ['m', 'k', 'i', 't', '-', 'c', 'b', 'l', 'o', 'b', '-', 'm', 'e', 't', 'a', '-', 'v',
    '1']

/-- Leaf domain for the `(name, mode, object_hash)` triple of a tree entry. -/
def TREE_ENTRY_DOMAIN : Bytes :=
  ascii ['m', 'k', 'i', 't', '-', 't', 'r', 'e', 'e', '-', 'e', 'n', 't', 'r', 'y', '-', 'v',
    '1']

/-- The two object kinds addressed by a Merkle root. -/
inductive ObjectKind where
  | tree
  | chunkedBlob
deriving DecidableEq

/-- The domain a kind's ids are wrapped with. -/
def ObjectKind.typeDomain : ObjectKind → Bytes
  | .tree => TREE_TYPE_DOMAIN
  | .chunkedBlob => CHUNKED_TYPE_DOMAIN

/-- Wrap a bare inner root into an object id. -/
def wrapId (B : Blake3) (kind : ObjectKind) (inner_root : Hash) : Option Hash :=
  domainDigest B kind.typeDomain inner_root.bytes

/-- Errors of building, encoding and verifying proofs. -/
inductive MerkleError where
  | positionOutOfRange (position : UInt32)
  | duplicatePosition (position : UInt32)
  | noPositions
  | invalidRange (start stop : UInt32)
  | malformedProof
  | unalignedProof
  | verificationFailed
deriving DecidableEq

/-! ### The tree -/

/-- A leaf or index count as `u32`; `none` is the panic. -/
def u32Of (n : ℕ) : Option UInt32 :=
  if n < 2 ^ 32 then some (UInt32.ofNat n) else none

/-- `BLAKE3(a ‖ b)`. -/
def h2 (B : Blake3) (a b : Bytes) : Hash :=
  let h := B.new
  let h := B.update h a
  let h := B.update h b
  B.finalize h

/-- Position-hash a leaf: `H(index_be32 ‖ leaf)`. -/
def positionLeaf (B : Blake3) (index : UInt32) (leaf : Hash) : Hash :=
  h2 B (Wire.beBytes 4 index.toNat) leaf.bytes

/-- An inner node: `H(left ‖ right)`. -/
def nodeHash (B : Blake3) (left right : Hash) : Hash :=
  h2 B left.bytes right.bytes

/-- The number of levels of a tree with `leaf_count` leaves. -/
def levelsInTree (leaf_count : UInt32) : ℕ :=
  Nat.size (leaf_count.toNat - 1) + 1

/-- A built tree: every level from the position-hashed leaves up to the single top node, and
the finalised root. -/
structure BmtTree where
  leaf_count : UInt32
  empty : Bool
  levels : List (List Hash)
  root : Hash

/-- The lowest level over some leaves. The empty tree has the single placeholder node
`H("")`. -/
def positionHashed (B : Blake3) (leaves : List Hash) : Option (List Hash) :=
  if leaves.isEmpty then some [B.hash []]
  else leaves.zipIdx.mapM fun (l, i) => do
    let i ← u32Of i
    some (positionLeaf B i l)

/-- Build the tree over some leaves. -/
def buildBmt (B : Blake3) (leaves : List Hash) : Option BmtTree := do
  let leaf_count ← u32Of leaves.length
  let empty := leaves.isEmpty
  let position_hashed ← positionHashed B leaves
  let levels := Bmt.levels (nodeHash B) position_hashed
  let tree_root ← levels.getLast?.bind List.head?
  let root := h2 B (Wire.beBytes 4 leaf_count.toNat) tree_root.bytes
  some { leaf_count, empty, levels, root }

/-! ### Leaf digests and identities -/

/-- The metadata leaf at position 0 of a chunked blob, from its two sizes. -/
def chunkedMetaLeafRaw (B : Blake3) (total_size : UInt64) (chunk_size : UInt32) : Option Hash :=
  domainDigest B CBLOB_META_DOMAIN
    (Wire.leBytes 8 total_size.toNat ++ Wire.leBytes 4 chunk_size.toNat)

/-- The metadata leaf of a chunked blob. -/
def chunkedMetaLeaf (B : Blake3) (cb : ChunkedBlob) : Option Hash :=
  chunkedMetaLeafRaw B cb.total_size cb.chunk_size

/-- The leaf of one tree entry. -/
def treeEntryLeaf (B : Blake3) (e : TreeEntry) : Option Hash := do
  let name_len ← u32Of e.name.length
  domainDigest B TREE_ENTRY_DOMAIN
    (Wire.leBytes 4 name_len.toNat ++ e.name ++ [e.mode.toU8] ++ e.object_hash.bytes)

/-- The leaves of a chunked blob: the metadata leaf, then the chunks. -/
def chunkedLeaves (B : Blake3) (cb : ChunkedBlob) : Option (List Hash) := do
  let m ← chunkedMetaLeaf B cb
  some (m :: cb.chunks)

/-- The leaves of a tree: one for each entry. -/
def treeLeaves (B : Blake3) (tree : Tree) : Option (List Hash) :=
  tree.entries.mapM (treeEntryLeaf B)

/-- Bare root over the leaves of a chunked blob. -/
def chunkedInnerRoot (B : Blake3) (cb : ChunkedBlob) : Option Hash := do
  let leaves ← chunkedLeaves B cb
  (buildBmt B leaves).map (·.root)

/-- Bare root over the leaves of a tree. -/
def treeInnerRoot (B : Blake3) (tree : Tree) : Option Hash := do
  let leaves ← treeLeaves B tree
  (buildBmt B leaves).map (·.root)

/-- The id of a chunked blob. -/
def computeChunkedId (B : Blake3) (cb : ChunkedBlob) : Option Hash := do
  let r ← chunkedInnerRoot B cb
  wrapId B .chunkedBlob r

/-- The id of a tree. -/
def computeTreeId (B : Blake3) (tree : Tree) : Option Hash := do
  let r ← treeInnerRoot B tree
  wrapId B .tree r

/-! ### Proof verification -/

/-- An inclusion proof: the announced leaf count and the sibling nodes, bottom-up and left to
right. -/
structure Proof where
  leaf_count : UInt32
  siblings : List Hash
deriving DecidableEq

/-- The first position that stands twice in a list sorted by position. -/
def firstDuplicate : List (UInt32 × Hash) → Option UInt32
  | a :: b :: l => if a.1 = b.1 then some b.1 else firstDuplicate (b :: l)
  | _ => none

/-- The claimed leaves, position-hashed and sorted by position. -/
def sortedElements (B : Blake3) (elements : List (Hash × UInt32)) : List (UInt32 × Hash) :=
  (elements.map fun (leaf, pos) => (pos, positionLeaf B pos leaf)).insertionSort
    (fun a b => a.1 ≤ b.1)

/-- The held nodes at level 0. Positions are below `leaf_count` here, so no index computed
from them overflows a `u32`. -/
def heldElements (B : Blake3) (elements : List (Hash × UInt32)) : List (ℕ × Hash) :=
  (sortedElements B elements).map fun (pos, digest) => (pos.toNat, digest)

/-- Rebuild the inner root a proof implies for some claimed leaves, given in any order. -/
def Proof.reconstructMultiRoot (B : Blake3) (p : Proof) (elements : List (Hash × UInt32)) :
    Except MerkleError Hash :=
  if elements.isEmpty then .error .noPositions
  else
    match elements.find? fun (_, position) => p.leaf_count ≤ position with
    | some (_, position) => .error (.positionOutOfRange position)
    | none =>
      match firstDuplicate (sortedElements B elements) with
      | some position => .error (.duplicatePosition position)
      | none =>
        match Bmt.climb (nodeHash B) (levelsInTree p.leaf_count - 1) p.leaf_count.toNat
            (heldElements B elements) p.siblings with
        | some ([(_, top)], []) => .ok (h2 B (Wire.beBytes 4 p.leaf_count.toNat) top.bytes)
        -- Too few siblings, siblings left over, or more than one node left.
        | _ => .error .unalignedProof

/-- Wrap a root and compare it with the expected id. -/
def checkWrapped (B : Blake3) (kind : ObjectKind) (root expected_id : Hash) :
    ExceptT MerkleError Option Unit := do
  let id ← wrapId B kind root
  if id = expected_id then pure () else throw .verificationFailed

/-- The claimed leaves behind some claimed entries. -/
def entryElements (B : Blake3) (entries : List (TreeEntry × UInt32)) :
    Option (List (Hash × UInt32)) :=
  entries.mapM fun (e, pos) => do
    let leaf ← treeEntryLeaf B e
    some (leaf, pos)

/-- Verify that some entries, each with its position, belong to the tree with this id. -/
def verifyTreeEntriesMulti (B : Blake3) (tree_id : Hash) (entries : List (TreeEntry × UInt32))
    (proof : Proof) : ExceptT MerkleError Option Unit := do
  let elements ← entryElements B entries
  let root ← proof.reconstructMultiRoot B elements
  checkWrapped B .tree root tree_id

/-- Verify that some chunks, each with its position, belong to the chunked blob with this id.
Position 0 is the metadata leaf and never a chunk. -/
def verifyChunksMulti (B : Blake3) (chunked_id : Hash) (chunks : List (Hash × UInt32))
    (proof : Proof) : ExceptT MerkleError Option Unit := do
  if chunks.any fun (_, pos) => pos == 0 then
    throw (.positionOutOfRange 0)
  let root ← proof.reconstructMultiRoot B chunks
  checkWrapped B .chunkedBlob root chunked_id

/-- Verify the two sizes of a chunked blob together with one of its chunks. The metadata leaf
is computed here from the claimed sizes. -/
def verifyChunkWithMetaLeaf (B : Blake3) (chunked_id : Hash) (total_size : UInt64)
    (chunk_size : UInt32) (chunk_hash : Hash) (chunk_position : UInt32) (proof : Proof) :
    ExceptT MerkleError Option Unit := do
  if chunk_position == 0 then
    throw (.positionOutOfRange 0)
  let meta_leaf ← chunkedMetaLeafRaw B total_size chunk_size
  let root ← proof.reconstructMultiRoot B [(meta_leaf, 0), (chunk_hash, chunk_position)]
  checkWrapped B .chunkedBlob root chunked_id

/-! ### What is hashed

The byte strings behind each digest, and closed forms of the functions above over them. -/

section Preimages

variable (B : Blake3)

/-- The preimage of a position-hashed leaf, and of a finalised root. -/
def countedPreimage (n : ℕ) (d : Hash) : Bytes :=
  Wire.beBytes 4 n ++ d.bytes

/-- The preimage of an inner node. -/
def nodePreimage (p : Hash × Hash) : Bytes :=
  p.1.bytes ++ p.2.bytes

/-- The preimage of the id of an object of some kind. -/
def wrapPreimage (kind : ObjectKind) (root : Hash) : Bytes :=
  domainPreimage kind.typeDomain root.bytes

/-- The preimage of a metadata leaf. -/
def metaPreimage (total_size : UInt64) (chunk_size : UInt32) : Bytes :=
  domainPreimage CBLOB_META_DOMAIN
    (Wire.leBytes 8 total_size.toNat ++ Wire.leBytes 4 chunk_size.toNat)

/-- The preimage of a tree entry's leaf. -/
def entryPreimage (e : TreeEntry) : Bytes :=
  domainPreimage TREE_ENTRY_DOMAIN
    (Wire.leBytes 4 e.name.length ++ e.name ++ [e.mode.toU8] ++ e.object_hash.bytes)

/-- The preimages of the nodes of the lowest level. -/
def bottomPreimages (leaves : List Hash) : List Bytes :=
  if leaves.isEmpty then [[]] else leaves.mapIdx countedPreimage

/-- The lowest level. -/
def bottomLevel (leaves : List Hash) : List Hash :=
  (bottomPreimages leaves).map B.hash

/-- The top node of the tree over some leaves. -/
def bmtTop (leaves : List Hash) : Hash :=
  (Bmt.topLevel (nodeHash B) (bottomLevel B leaves)).headD ZERO

/-- The finalised root of the tree over some leaves. -/
def bmtRoot (leaves : List Hash) : Hash :=
  B.hash (countedPreimage leaves.length (bmtTop B leaves))

/-- Everything that is hashed to make an id of some kind out of some leaves. -/
def idPreimages (kind : ObjectKind) (leaves : List Hash) : List Bytes :=
  bottomPreimages leaves ++
    (Bmt.nodePairs (nodeHash B) (bottomLevel B leaves)).map nodePreimage ++
    [countedPreimage leaves.length (bmtTop B leaves), wrapPreimage kind (bmtRoot B leaves)]

/-- The leaves of a tree. -/
def treeLeafHashes (t : Tree) : List Hash :=
  t.entries.map fun e => B.hash (entryPreimage e)

/-- The leaves of a chunked blob. -/
def chunkedLeafHashes (cb : ChunkedBlob) : List Hash :=
  B.hash (metaPreimage cb.total_size cb.chunk_size) :: cb.chunks

/-- Everything that `computeTreeId` hashes. -/
def treePreimages (t : Tree) : List Bytes :=
  t.entries.map entryPreimage ++ idPreimages B .tree (treeLeafHashes B t)

/-- Everything that `computeChunkedId` hashes. -/
def chunkedPreimages (cb : ChunkedBlob) : List Bytes :=
  metaPreimage cb.total_size cb.chunk_size ::
    idPreimages B .chunkedBlob (chunkedLeafHashes B cb)

/-- Everything that is hashed to check a proof of some leaves against an id of some kind. -/
def Proof.preimages (kind : ObjectKind) (p : Proof) (elements : List (Hash × UInt32)) :
    List Bytes :=
  let rounds := levelsInTree p.leaf_count - 1
  let held := heldElements B elements
  elements.map (fun x => countedPreimage x.2.toNat x.1) ++
    (Bmt.climbPairs (nodeHash B) rounds p.leaf_count.toNat held p.siblings).map nodePreimage ++
    (match Bmt.climb (nodeHash B) rounds p.leaf_count.toNat held p.siblings with
      | some (cur, _) => cur.map fun x => countedPreimage p.leaf_count.toNat x.2
      | none => []) ++
    (match p.reconstructMultiRoot B elements with
      | .ok root => [wrapPreimage kind root]
      | .error _ => [])

/-- Everything that `verifyTreeEntriesMulti` hashes. -/
def treeVerifyPreimages (entries : List (TreeEntry × UInt32)) (p : Proof) : List Bytes :=
  entries.map (fun x => entryPreimage x.1) ++
    p.preimages B .tree (entries.map fun x => (B.hash (entryPreimage x.1), x.2))

/-- Everything that `verifyChunksMulti` hashes. -/
def chunksVerifyPreimages (chunks : List (Hash × UInt32)) (p : Proof) : List Bytes :=
  p.preimages B .chunkedBlob chunks

/-- Everything that `verifyChunkWithMetaLeaf` hashes. -/
def metaVerifyPreimages (total_size : UInt64) (chunk_size : UInt32) (chunk_hash : Hash)
    (chunk_position : UInt32) (p : Proof) : List Bytes :=
  metaPreimage total_size chunk_size ::
    p.preimages B .chunkedBlob
      [(B.hash (metaPreimage total_size chunk_size), 0), (chunk_hash, chunk_position)]

end Preimages

/-! ### The preimages are unambiguous -/

theorem countedPreimage_inj {n n' : ℕ} {d d' : Hash} (hn : n < 2 ^ 32) (hn' : n' < 2 ^ 32)
    (h : countedPreimage n d = countedPreimage n' d') : n = n' ∧ d = d' := by
  obtain ⟨hl, hr⟩ := List.append_inj h (by simp)
  exact ⟨Wire.beBytes_inj hn hn' hl, ByteArr.ext hr⟩

theorem nodePreimage_inj {p p' : Hash × Hash} (h : nodePreimage p = nodePreimage p') : p = p' := by
  obtain ⟨hl, hr⟩ := List.append_inj h (by simp)
  exact Prod.ext (ByteArr.ext hl) (ByteArr.ext hr)

theorem typeDomain_length (kind : ObjectKind) : kind.typeDomain.length < 2 ^ 16 := by
  cases kind <;> decide

theorem wrapPreimage_inj {kind kind' : ObjectKind} {r r' : Hash}
    (h : wrapPreimage kind r = wrapPreimage kind' r') : kind = kind' ∧ r = r' := by
  obtain ⟨hk, hr⟩ := domainPreimage_inj (typeDomain_length kind) (typeDomain_length kind') h
  refine ⟨?_, ByteArr.ext hr⟩
  cases kind <;> cases kind' <;> first | rfl | exact absurd hk (by decide)

theorem metaPreimage_inj {t t' : UInt64} {c c' : UInt32}
    (h : metaPreimage t c = metaPreimage t' c') : t = t' ∧ c = c' := by
  obtain ⟨-, h⟩ := domainPreimage_inj (by decide) (by decide) h
  obtain ⟨ht, hc⟩ := List.append_inj h (by simp)
  have ht := Wire.leBytes_inj t.toNat_lt t'.toNat_lt ht
  have hc := Wire.leBytes_inj c.toNat_lt c'.toNat_lt hc
  exact ⟨UInt64.toNat_inj.1 ht, UInt32.toNat_inj.1 hc⟩

theorem entryPreimage_inj {e e' : TreeEntry} (he : e.name.length < 2 ^ 32)
    (he' : e'.name.length < 2 ^ 32) (h : entryPreimage e = entryPreimage e') : e = e' := by
  obtain ⟨-, h⟩ := domainPreimage_inj (by decide) (by decide) h
  simp only [List.append_assoc] at h
  -- The length prefix says where the name ends.
  obtain ⟨hlen, h⟩ := List.append_inj h (by simp)
  have hlen := Wire.leBytes_inj he he' hlen
  obtain ⟨hname, h⟩ := List.append_inj h hlen
  obtain ⟨hmode, hhash⟩ := List.append_inj h (by simp)
  have hmode : e.mode.toU8 = e'.mode.toU8 := by simpa using hmode
  obtain ⟨name, mode, object_hash⟩ := e
  obtain ⟨name', mode', object_hash'⟩ := e'
  rw [TreeEntry.mk.injEq]
  exact ⟨hname, EntryMode.toU8_inj hmode, ByteArr.ext hhash⟩

/-! ### Closed forms -/

section ClosedForms

variable {B : Blake3}

theorem h2_eq (a b : Bytes) : h2 B a b = B.hash (a ++ b) := by
  have h := B.finalize_update [a, b]
  simp only [List.foldl_cons, List.foldl_nil, List.flatten_cons, List.flatten_nil,
    List.append_nil] at h
  exact h

theorem nodeHash_eq (l r : Hash) : nodeHash B l r = B.hash (nodePreimage (l, r)) :=
  h2_eq _ _

theorem positionLeaf_eq (i : UInt32) (leaf : Hash) :
    positionLeaf B i leaf = B.hash (countedPreimage i.toNat leaf) :=
  h2_eq _ _

theorem wrapId_eq (kind : ObjectKind) (root : Hash) :
    wrapId B kind root = some (B.hash (wrapPreimage kind root)) :=
  domainDigest_eq _ (typeDomain_length kind)

theorem chunkedMetaLeafRaw_eq (t : UInt64) (c : UInt32) :
    chunkedMetaLeafRaw B t c = some (B.hash (metaPreimage t c)) :=
  domainDigest_eq _ (by decide)

theorem u32Of_of_lt {n : ℕ} (h : n < 2 ^ 32) : ∃ w, u32Of n = some w ∧ w.toNat = n :=
  ⟨UInt32.ofNat n, by rw [u32Of, if_pos h], UInt32.toNat_ofNat_of_lt' h⟩

theorem u32Of_eq_some {n : ℕ} {w : UInt32} (h : u32Of n = some w) : n < 2 ^ 32 ∧ w.toNat = n := by
  by_cases hn : n < 2 ^ 32
  · obtain ⟨w', hw', hn'⟩ := u32Of_of_lt hn
    obtain rfl : w' = w := Option.some.inj (hw'.symm.trans h)
    exact ⟨hn, hn'⟩
  · rw [u32Of, if_neg hn] at h
    simp at h

/-- An entry's leaf is the digest of its preimage, and a name too long for the length prefix
is a panic. -/
theorem treeEntryLeaf_eq_some {e : TreeEntry} {l : Hash} :
    treeEntryLeaf B e = some l ↔ e.name.length < 2 ^ 32 ∧ l = B.hash (entryPreimage e) := by
  unfold treeEntryLeaf
  rw [Option.bind_eq_bind, Option.bind_eq_some_iff]
  refine ⟨fun ⟨w, hw, hl⟩ => ?_, fun ⟨hlen, hl⟩ => ?_⟩
  · obtain ⟨hlen, hw⟩ := u32Of_eq_some hw
    rw [hw, domainDigest_eq _ (by decide), Option.some.injEq] at hl
    exact ⟨hlen, hl.symm⟩
  · obtain ⟨w, hw, hwn⟩ := u32Of_of_lt hlen
    refine ⟨w, hw, ?_⟩
    rw [hwn, domainDigest_eq _ (by decide), hl]
    rfl

/-- A step that succeeds exactly under a condition, over a list: every element meets the
condition and the results are the values. -/
theorem mapM_eq_some_iff {α β : Type} {g : α → Option β} {P : α → Prop} {v : α → β}
    (hg : ∀ a b, g a = some b ↔ P a ∧ b = v a) (l : List α) (r : List β) :
    l.mapM g = some r ↔ (∀ a ∈ l, P a) ∧ r = l.map v := by
  induction l generalizing r with
  | nil => simp [eq_comm]
  | cons a l ih =>
    rw [List.mapM_cons, Option.bind_eq_bind, Option.bind_eq_some_iff]
    simp only [Option.bind_eq_bind, Option.bind_eq_some_iff, hg, ih, Option.pure_def,
      Option.some.injEq, List.forall_mem_cons, List.map_cons]
    refine ⟨?_, ?_⟩
    · rintro ⟨b, ⟨ha, rfl⟩, bs, ⟨hl, rfl⟩, rfl⟩
      exact ⟨⟨ha, hl⟩, rfl⟩
    · rintro ⟨⟨ha, hl⟩, rfl⟩
      exact ⟨v a, ⟨ha, rfl⟩, l.map v, ⟨hl, rfl⟩, rfl⟩

theorem treeLeaves_eq_some {t : Tree} {ls : List Hash} : treeLeaves B t = some ls ↔
      (∀ e ∈ t.entries, e.name.length < 2 ^ 32) ∧ ls = treeLeafHashes B t :=
  mapM_eq_some_iff (fun _ _ => treeEntryLeaf_eq_some) _ _

/-- The names of the entries behind some claimed leaves fit their length prefix. -/
theorem entryElements_eq_some {entries : List (TreeEntry × UInt32)} {els : List (Hash × UInt32)} :
    entryElements B entries = some els ↔
      (∀ x ∈ entries, x.1.name.length < 2 ^ 32) ∧
        els = entries.map fun x => (B.hash (entryPreimage x.1), x.2) := by
  refine mapM_eq_some_iff (fun x y => ?_) _ _
  rw [Option.bind_eq_bind, Option.bind_eq_some_iff]
  refine ⟨fun ⟨l, hl, hy⟩ => ?_, fun ⟨hlen, hy⟩ => ?_⟩
  · obtain ⟨hlen, rfl⟩ := treeEntryLeaf_eq_some.1 hl
    exact ⟨hlen, (Option.some.inj hy).symm⟩
  · exact ⟨_, treeEntryLeaf_eq_some.2 ⟨hlen, rfl⟩, by rw [hy]⟩

/-- The lowest level has a node for each leaf, and one for the empty tree. -/
theorem length_bottomLevel (leaves : List Hash) :
    (bottomLevel B leaves).length = max leaves.length 1 := by
  cases leaves <;> simp [bottomLevel, bottomPreimages]

theorem topLevel_bottomLevel (leaves : List Hash) :
    Bmt.topLevel (nodeHash B) (bottomLevel B leaves) = [bmtTop B leaves] := by
  have hne : bottomLevel B leaves ≠ [] := by
    rw [← List.length_pos_iff, length_bottomLevel]
    omega
  obtain ⟨top, htop⟩ := List.length_eq_one_iff.1 (Bmt.length_topLevel (f := nodeHash B) hne)
  rw [bmtTop, htop]
  rfl

variable {leaves : List Hash}

/-- The lowest level, when the positions fit. -/
theorem positionHashed_eq (hlen : leaves.length < 2 ^ 32) :
    positionHashed B leaves = some (bottomLevel B leaves) := by
  unfold positionHashed bottomLevel bottomPreimages
  split
  · rfl
  · rw [mapM_eq_some_iff (P := fun x : Hash × ℕ => x.2 < 2 ^ 32)
      (v := fun x => B.hash (countedPreimage x.2 x.1))]
    · refine ⟨fun x hx => ?_, ?_⟩
      · have := List.snd_lt_of_mem_zipIdx hx
        omega
      · rw [List.mapIdx_eq_zipIdx_map, List.map_map]
        rfl
    · intro x d
      rw [Option.bind_eq_bind, Option.bind_eq_some_iff]
      refine ⟨fun ⟨w, hw, hd⟩ => ?_, fun ⟨hx, hd⟩ => ?_⟩
      · obtain ⟨hx, hw⟩ := u32Of_eq_some hw
        rw [positionLeaf_eq, hw, Option.some.injEq] at hd
        exact ⟨hx, hd.symm⟩
      · obtain ⟨w, hw, hwn⟩ := u32Of_of_lt hx
        exact ⟨w, hw, by rw [positionLeaf_eq, hd, hwn]⟩

/-- The root of the built tree; too many leaves are a panic. -/
theorem buildBmt_root_eq_some {r : Hash} : (buildBmt B leaves).map (·.root) = some r ↔
      leaves.length < 2 ^ 32 ∧ r = bmtRoot B leaves := by
  by_cases hlen : leaves.length < 2 ^ 32
  · have hroot : (buildBmt B leaves).map (·.root) = some (bmtRoot B leaves) := by
      obtain ⟨w, hw, hwn⟩ := u32Of_of_lt hlen
      unfold buildBmt
      simp only [hw, positionHashed_eq hlen, Bmt.getLast?_levels, topLevel_bottomLevel,
        Option.bind_eq_bind, Option.bind_some, List.head?_cons, Option.map_some, h2_eq, hwn]
      rfl
    rw [hroot, Option.some.injEq]
    exact ⟨fun h => ⟨hlen, h.symm⟩, fun h => h.2.symm⟩
  · have hnone : buildBmt B leaves = none := by
      unfold buildBmt
      rw [u32Of, if_neg hlen]
      rfl
    rw [hnone]
    exact ⟨fun h => absurd h (by simp), fun h => absurd h.1 hlen⟩

/-- The id over some leaves, in closed form. -/
theorem wrapId_buildBmt_eq_some {kind : ObjectKind} {id : Hash} :
    (do let r ← (buildBmt B leaves).map (·.root); wrapId B kind r) = some id ↔
      leaves.length < 2 ^ 32 ∧ id = B.hash (wrapPreimage kind (bmtRoot B leaves)) := by
  rw [Option.bind_eq_bind, Option.bind_eq_some_iff]
  refine ⟨fun ⟨r, hr, hid⟩ => ?_, fun ⟨hlen, hid⟩ => ?_⟩
  · obtain ⟨hlen, rfl⟩ := buildBmt_root_eq_some.1 hr
    rw [wrapId_eq] at hid
    exact ⟨hlen, (Option.some.inj hid).symm⟩
  · exact ⟨_, buildBmt_root_eq_some.2 ⟨hlen, rfl⟩, by rw [wrapId_eq, hid]⟩

/-- The id of a tree, in closed form. -/
theorem computeTreeId_eq_some {t : Tree} {id : Hash} : computeTreeId B t = some id ↔
      (∀ e ∈ t.entries, e.name.length < 2 ^ 32) ∧ (treeLeafHashes B t).length < 2 ^ 32 ∧
        id = B.hash (wrapPreimage .tree (bmtRoot B (treeLeafHashes B t))) := by
  have hunfold : computeTreeId B t = (treeLeaves B t).bind fun leaves =>
      (do let r ← (buildBmt B leaves).map (·.root); wrapId B .tree r) := by
    unfold computeTreeId treeInnerRoot
    cases treeLeaves B t <;> rfl
  rw [hunfold, Option.bind_eq_some_iff]
  refine ⟨fun ⟨ls, hls, hid⟩ => ?_, fun ⟨hnames, hid⟩ => ?_⟩
  · obtain ⟨hnames, rfl⟩ := treeLeaves_eq_some.1 hls
    exact ⟨hnames, wrapId_buildBmt_eq_some.1 hid⟩
  · exact ⟨_, treeLeaves_eq_some.2 ⟨hnames, rfl⟩, wrapId_buildBmt_eq_some.2 hid⟩

/-- The id of a chunked blob, in closed form. -/
theorem computeChunkedId_eq_some {cb : ChunkedBlob} {id : Hash} : computeChunkedId B cb = some id ↔
      (chunkedLeafHashes B cb).length < 2 ^ 32 ∧
        id = B.hash (wrapPreimage .chunkedBlob (bmtRoot B (chunkedLeafHashes B cb))) := by
  have hleaves : chunkedLeaves B cb = some (chunkedLeafHashes B cb) := by
    rw [chunkedLeaves, chunkedMetaLeaf, chunkedMetaLeafRaw_eq]
    rfl
  have hunfold : computeChunkedId B cb =
      (do let r ← (buildBmt B (chunkedLeafHashes B cb)).map (·.root); wrapId B .chunkedBlob r) := by
    rw [computeChunkedId, chunkedInnerRoot, hleaves]
    rfl
  rw [hunfold]
  exact wrapId_buildBmt_eq_some

end ClosedForms

/-! ### Ids determine leaves, and proofs are sound -/

section Security

variable {B : Blake3} {T : Set Bytes}

/-- Without collisions, a node determines its children. -/
theorem injOn_parent (hT : CollisionFreeOn B T) :
    Set.InjOn (Bmt.parent (nodeHash B)) (Set.preimage nodePreimage T) := by
  intro p hp q hq h
  refine nodePreimage_inj (hT hp hq ?_)
  rwa [Bmt.parent, Bmt.parent, nodeHash_eq, nodeHash_eq] at h

variable {ls : List Hash}

/-- The four kinds of byte strings behind an id. -/
theorem forall_mem_idPreimages {kind : ObjectKind} : (∀ x ∈ idPreimages B kind ls, x ∈ T) ↔
      (∀ x ∈ bottomPreimages ls, x ∈ T) ∧
      (∀ p ∈ Bmt.nodePairs (nodeHash B) (bottomLevel B ls), p ∈ Set.preimage nodePreimage T) ∧
      countedPreimage ls.length (bmtTop B ls) ∈ T ∧ wrapPreimage kind (bmtRoot B ls) ∈ T := by
  simp only [idPreimages, List.forall_mem_append, List.forall_mem_map, List.forall_mem_cons,
    List.not_mem_nil, false_implies, implies_true, and_true, and_assoc, Set.mem_preimage]

variable {ls' : List Hash}

/-- Lowest levels over the same number of leaves have the same preimages only when the leaves
are the same. -/
theorem bottomPreimages_inj (hl : ls.length < 2 ^ 32)
    (hlen : ls.length = ls'.length) (h : bottomPreimages ls = bottomPreimages ls') : ls = ls' := by
  unfold bottomPreimages at h
  cases ls with
  | nil => exact (List.length_eq_zero_iff.1 hlen.symm).symm
  | cons a ls =>
    cases ls' with
    | nil => simp at hlen
    | cons a' ls' =>
      simp only [List.isEmpty_cons, Bool.false_eq_true, if_false] at h
      refine List.ext_getElem hlen fun i hi hi' => ?_
      have hget := congrArg (fun l => l[i]?) h
      simp only [List.getElem?_mapIdx, List.getElem?_eq_getElem hi,
        List.getElem?_eq_getElem hi', Option.map_some, Option.some.injEq] at hget
      exact (countedPreimage_inj (by omega) (by omega) hget).2

/-- Without collisions, the id determines the kind of the object and its leaves. -/
theorem leaves_eq_of_id_eq (hT : CollisionFreeOn B T) {kind kind' : ObjectKind}
    (hl : ls.length < 2 ^ 32) (hl' : ls'.length < 2 ^ 32)
    (hls : ∀ x ∈ idPreimages B kind ls, x ∈ T) (hls' : ∀ x ∈ idPreimages B kind' ls', x ∈ T)
    (h : B.hash (wrapPreimage kind (bmtRoot B ls)) =
      B.hash (wrapPreimage kind' (bmtRoot B ls'))) : kind = kind' ∧ ls = ls' := by
  obtain ⟨hbot, hnodes, hcount, hwrap⟩ := forall_mem_idPreimages.1 hls
  obtain ⟨hbot', hnodes', hcount', hwrap'⟩ := forall_mem_idPreimages.1 hls'
  obtain ⟨rfl, hroot⟩ := wrapPreimage_inj (hT hwrap hwrap' h)
  obtain ⟨hlen, htop⟩ := countedPreimage_inj hl hl' (hT hcount hcount' hroot)
  have hbottom : bottomLevel B ls = bottomLevel B ls' := by
    refine Bmt.topLevel_inj (injOn_parent hT) ?_ hnodes hnodes' ?_
    · rw [length_bottomLevel, length_bottomLevel, hlen]
    · rw [topLevel_bottomLevel, topLevel_bottomLevel, htop]
  have hpre : bottomPreimages ls = bottomPreimages ls' := Bmt.map_injOn hT hbot hbot' hbottom
  exact ⟨rfl, bottomPreimages_inj hl hlen hpre⟩

/-- **Tree ids are injective.** -/
theorem computeTreeId_inj (hT : CollisionFreeOn B T) {t t' : Tree} {id : Hash}
    (ht : ∀ x ∈ treePreimages B t, x ∈ T) (ht' : ∀ x ∈ treePreimages B t', x ∈ T)
    (h : computeTreeId B t = some id) (h' : computeTreeId B t' = some id) : t = t' := by
  obtain ⟨hnames, hlen, hid⟩ := computeTreeId_eq_some.1 h
  obtain ⟨hnames', hlen', hid'⟩ := computeTreeId_eq_some.1 h'
  obtain ⟨-, hleaves⟩ := leaves_eq_of_id_eq hT hlen hlen'
    (fun x hx => ht x (List.mem_append_right _ hx))
    (fun x hx => ht' x (List.mem_append_right _ hx)) (hid.symm.trans hid')
  -- Entries with the same leaf are the same.
  have hinj : Set.InjOn (fun e => B.hash (entryPreimage e))
      {e | e.name.length < 2 ^ 32 ∧ entryPreimage e ∈ T} :=
    fun e he e' he' heq => entryPreimage_inj he.1 he'.1 (hT he.2 he'.2 heq)
  have hentries : t.entries = t'.entries := by
    refine Bmt.map_injOn hinj (fun e he => ⟨hnames e he, ?_⟩)
      (fun e he => ⟨hnames' e he, ?_⟩) hleaves
    · exact ht _ (List.mem_append_left _ (List.mem_map_of_mem he))
    · exact ht' _ (List.mem_append_left _ (List.mem_map_of_mem he))
  obtain ⟨entries⟩ := t
  obtain ⟨entries'⟩ := t'
  exact congrArg Tree.mk hentries

variable {cb : ChunkedBlob}

/-- **Chunked-blob ids are injective.** -/
theorem computeChunkedId_inj (hT : CollisionFreeOn B T) {cb' : ChunkedBlob} {id : Hash}
    (hc : ∀ x ∈ chunkedPreimages B cb, x ∈ T) (hc' : ∀ x ∈ chunkedPreimages B cb', x ∈ T)
    (h : computeChunkedId B cb = some id) (h' : computeChunkedId B cb' = some id) : cb = cb' := by
  obtain ⟨hlen, hid⟩ := computeChunkedId_eq_some.1 h
  obtain ⟨hlen', hid'⟩ := computeChunkedId_eq_some.1 h'
  obtain ⟨-, hleaves⟩ := leaves_eq_of_id_eq hT hlen hlen'
    (fun x hx => hc x (List.mem_cons_of_mem _ hx))
    (fun x hx => hc' x (List.mem_cons_of_mem _ hx)) (hid.symm.trans hid')
  obtain ⟨hmeta, hchunks⟩ := List.cons.inj hleaves
  obtain ⟨htotal, hsize⟩ :=
    metaPreimage_inj (hT (hc _ List.mem_cons_self) (hc' _ List.mem_cons_self) hmeta)
  obtain ⟨total_size, chunk_size, chunks⟩ := cb
  obtain ⟨total_size', chunk_size', chunks'⟩ := cb'
  rw [ChunkedBlob.mk.injEq]
  exact ⟨htotal, hsize, hchunks⟩

variable {p : Proof} {els : List (Hash × UInt32)}

/-- What a successful reconstruction has checked. -/
theorem reconstructMultiRoot_eq_ok {root : Hash} (h : p.reconstructMultiRoot B els = .ok root) :
    els ≠ [] ∧ (∀ x ∈ els, x.2.toNat < p.leaf_count.toNat) ∧
      ∃ i top, Bmt.climb (nodeHash B) (Nat.size (p.leaf_count.toNat - 1)) p.leaf_count.toNat
          (heldElements B els) p.siblings = some ([(i, top)], []) ∧
        root = B.hash (countedPreimage p.leaf_count.toNat top) := by
  unfold Proof.reconstructMultiRoot at h
  split at h
  · cases h
  rename_i hne
  split at h
  · cases h
  rename_i hrange
  split at h
  · cases h
  split at h
  · rename_i i top hclimb
    refine ⟨by simpa using hne, fun x hx => ?_, i, top, hclimb, ?_⟩
    · have := List.find?_eq_none.1 hrange x hx
      rw [decide_eq_true_eq, UInt32.not_le] at this
      exact UInt32.lt_iff_toNat_lt.1 this
    · rw [h2_eq] at h
      exact (Except.ok.inj h).symm
  · cases h

/-- Sorting only reorders the claimed leaves. -/
theorem mem_heldElements {y : ℕ × Hash} : y ∈ heldElements B els ↔
      ∃ x ∈ els, y = (x.2.toNat, B.hash (countedPreimage x.2.toNat x.1)) := by
  simp only [heldElements, sortedElements, List.mem_map, List.mem_insertionSort,
    positionLeaf_eq]
  refine ⟨?_, ?_⟩
  · rintro ⟨z, ⟨x, hx, rfl⟩, rfl⟩
    exact ⟨x, hx, rfl⟩
  · rintro ⟨x, hx, rfl⟩
    exact ⟨_, ⟨x, hx, rfl⟩, rfl⟩

/-- The byte strings hashed by a successful check of a proof. -/
theorem forall_mem_preimages {kind : ObjectKind} {root top : Hash} {i : ℕ}
    (hclimb : Bmt.climb (nodeHash B) (Nat.size (p.leaf_count.toNat - 1)) p.leaf_count.toNat
      (heldElements B els) p.siblings = some ([(i, top)], []))
    (hroot : p.reconstructMultiRoot B els = .ok root) (h : ∀ x ∈ p.preimages B kind els, x ∈ T) :
    (∀ x ∈ els, countedPreimage x.2.toNat x.1 ∈ T) ∧
      (∀ q ∈ Bmt.climbPairs (nodeHash B) (Nat.size (p.leaf_count.toNat - 1))
        p.leaf_count.toNat (heldElements B els) p.siblings, q ∈ Set.preimage nodePreimage T) ∧
      countedPreimage p.leaf_count.toNat top ∈ T ∧ wrapPreimage kind root ∈ T := by
  simp only [Proof.preimages, levelsInTree, Nat.add_sub_cancel, hclimb, hroot,
    List.forall_mem_append, List.forall_mem_map, List.forall_mem_cons, List.not_mem_nil,
    false_implies, implies_true, and_true, and_assoc] at h
  exact h

/-- **Soundness of a reconstruction.** When the root implied by a proof, wrapped, is the id
over some leaves, the kinds agree, the proof announces their number, and each claimed leaf is
the leaf at its position. -/
theorem reconstructMultiRoot_sound (hT : CollisionFreeOn B T) {kind kind' : ObjectKind}
     {root : Hash} (hl : ls.length < 2 ^ 32) (hls : ∀ x ∈ idPreimages B kind ls, x ∈ T)
    (hp : ∀ x ∈ p.preimages B kind' els, x ∈ T) (h : p.reconstructMultiRoot B els = .ok root)
    (hid : B.hash (wrapPreimage kind' root) = B.hash (wrapPreimage kind (bmtRoot B ls))) :
    kind' = kind ∧ p.leaf_count.toNat = ls.length ∧ ∀ x ∈ els, ls[x.2.toNat]? = some x.1 := by
  obtain ⟨hne, hrange, i, top, hclimb, hroot⟩ := reconstructMultiRoot_eq_ok h
  obtain ⟨hbot, hnodes, hcount, hwrap⟩ := forall_mem_idPreimages.1 hls
  obtain ⟨hels, hpairs, hcount', hwrap'⟩ := forall_mem_preimages hclimb h hp
  obtain ⟨hkind, hrr⟩ := wrapPreimage_inj (hT hwrap' hwrap hid)
  rw [hroot] at hrr
  obtain ⟨hlen, rfl⟩ :=
    countedPreimage_inj p.leaf_count.toNat_lt hl (hT hcount' hcount hrr)
  refine ⟨hkind, hlen, ?_⟩
  -- A claimed position is below the leaf count, so there are leaves.
  obtain ⟨x₀, hx₀⟩ := List.exists_mem_of_ne_nil _ hne
  have hpos : 0 < ls.length := hlen ▸ Nat.zero_lt_of_lt (hrange x₀ hx₀)
  have hbl : (bottomLevel B ls).length = ls.length := by
    rw [length_bottomLevel]
    omega
  rw [hlen, ← hbl] at hclimb hpairs
  have hcur : ∀ y ∈ heldElements B els, y.1 < (bottomLevel B ls).length := by
    intro y hy
    obtain ⟨x, hx, rfl⟩ := mem_heldElements.1 hy
    rw [hbl, ← hlen]
    exact hrange x hx
  have hzero := Bmt.climb_index (by omega) hclimb hcur
  have hheld : Bmt.Held (bottomLevel B ls) (heldElements B els) := by
    refine Bmt.climb_sound (injOn_parent hT) hclimb hcur hnodes hpairs fun y hy => ?_
    obtain rfl := List.mem_singleton.1 hy
    have hi : i = 0 := hzero _ (List.mem_singleton.2 rfl)
    rw [topLevel_bottomLevel, hi]
    rfl
  -- Read the lowest level back at each claimed position.
  intro x hx
  have hget := hheld _ (mem_heldElements.2 ⟨x, hx, rfl⟩)
  have hxl : x.2.toNat < ls.length := hlen ▸ hrange x hx
  have hbp : bottomPreimages ls = ls.mapIdx countedPreimage := by
    rw [bottomPreimages, if_neg (by simpa using List.length_pos_iff.1 hpos)]
  rw [bottomLevel, hbp, List.getElem?_map, List.getElem?_mapIdx,
    List.getElem?_eq_getElem hxl] at hget
  simp only [Option.map_some, Option.some.injEq] at hget
  have hmem : countedPreimage x.2.toNat ls[x.2.toNat] ∈ T := by
    refine hbot _ ?_
    rw [hbp]
    exact List.mem_mapIdx.2 ⟨x.2.toNat, hxl, rfl⟩
  obtain ⟨-, hx1⟩ :=
    countedPreimage_inj x.2.toNat_lt x.2.toNat_lt (hT hmem (hels x hx) hget)
  rw [List.getElem?_eq_getElem hxl, hx1]

theorem returns_checkWrapped {kind : ObjectKind} {root id : Hash} :
    Fallible.Returns (checkWrapped B kind root id) () ↔
      B.hash (wrapPreimage kind root) = id := by
  simp only [checkWrapped, Fallible.returns_bind, Fallible.returns_liftOption, wrapId_eq,
    Option.some.injEq, exists_eq_left']
  split <;> simp [*]

/-- What an accepted proof of tree entries has checked. -/
theorem returns_verifyTreeEntriesMulti {id : Hash} {entries : List (TreeEntry × UInt32)}
    (h : Fallible.Returns (verifyTreeEntriesMulti B id entries p) ()) :
    (∀ x ∈ entries, x.1.name.length < 2 ^ 32) ∧
      ∃ root, p.reconstructMultiRoot B
          (entries.map fun x => (B.hash (entryPreimage x.1), x.2)) = .ok root ∧
        B.hash (wrapPreimage .tree root) = id := by
  rw [verifyTreeEntriesMulti, Fallible.returns_bind] at h
  obtain ⟨els, hels, h⟩ := h
  obtain ⟨hnames, rfl⟩ := entryElements_eq_some.1 (Fallible.returns_liftOption.1 hels)
  obtain ⟨root, hroot, h⟩ := Fallible.returns_bind.1 h
  exact ⟨hnames, root, Fallible.returns_liftExcept.1 hroot, returns_checkWrapped.1 h⟩

/-- What an accepted proof of chunks has checked. -/
theorem returns_verifyChunksMulti {id : Hash} {chunks : List (Hash × UInt32)}
    (h : Fallible.Returns (verifyChunksMulti B id chunks p) ()) : (∀ x ∈ chunks, x.2 ≠ 0) ∧
      ∃ root, p.reconstructMultiRoot B chunks = .ok root ∧
        B.hash (wrapPreimage .chunkedBlob root) = id := by
  unfold verifyChunksMulti at h
  split at h
  · obtain ⟨_, h, -⟩ := Fallible.returns_bind.1 h
    exact absurd h Fallible.returns_throw
  · rename_i hzero
    obtain ⟨root, hroot, h⟩ := Fallible.returns_bind.1 h
    refine ⟨fun x hx h0 => hzero (List.any_eq_true.2 ⟨x, hx, beq_iff_eq.2 h0⟩), root, ?_, ?_⟩
    · exact Fallible.returns_liftExcept.1 hroot
    · exact returns_checkWrapped.1 h

variable {chunk_hash : Hash}

/-- What an accepted proof of a chunk and the two sizes has checked. -/
theorem returns_verifyChunkWithMetaLeaf {id : Hash} {total_size : UInt64} {chunk_size : UInt32}
    {pos : UInt32} (h : Fallible.Returns
      (verifyChunkWithMetaLeaf B id total_size chunk_size chunk_hash pos p) ()) : pos ≠ 0 ∧
      ∃ root, p.reconstructMultiRoot B
          [(B.hash (metaPreimage total_size chunk_size), 0), (chunk_hash, pos)] = .ok root ∧
        B.hash (wrapPreimage .chunkedBlob root) = id := by
  unfold verifyChunkWithMetaLeaf at h
  split at h
  · obtain ⟨_, h, -⟩ := Fallible.returns_bind.1 h
    exact absurd h Fallible.returns_throw
  · rename_i hzero
    obtain ⟨l, hl, h⟩ := Fallible.returns_bind.1 h
    rw [Fallible.returns_liftOption, chunkedMetaLeafRaw_eq, Option.some.injEq] at hl
    obtain ⟨root, hroot, h⟩ := Fallible.returns_bind.1 h
    refine ⟨fun h0 => hzero (beq_iff_eq.2 h0), root, ?_, returns_checkWrapped.1 h⟩
    rw [hl]
    exact Fallible.returns_liftExcept.1 hroot

/-- Accepted tree entries are entries of the tree. -/
theorem verifyTreeEntriesMulti_sound (hT : CollisionFreeOn B T) {t : Tree} {id : Hash}
    {pairs : List (TreeEntry × UInt32)} (ht : computeTreeId B t = some id)
    (hid : ∀ x ∈ treePreimages B t, x ∈ T) (hver : ∀ x ∈ treeVerifyPreimages B pairs p, x ∈ T)
    (h : Fallible.Returns (verifyTreeEntriesMulti B id pairs p) ()) :
    p.leaf_count.toNat = t.entries.length ∧
      ∀ x ∈ pairs, t.entries[x.2.toNat]? = some x.1 := by
  obtain ⟨hnames, hlen, rfl⟩ := computeTreeId_eq_some.1 ht
  obtain ⟨hnames', root, hroot, hwrap⟩ := returns_verifyTreeEntriesMulti h
  obtain ⟨hentries, hbmt⟩ := List.forall_mem_append.1 hid
  obtain ⟨hentries', hproof⟩ := List.forall_mem_append.1 hver
  obtain ⟨-, hcount, hleaves⟩ :=
    reconstructMultiRoot_sound hT hlen hbmt hproof hroot hwrap
  refine ⟨by rw [hcount, treeLeafHashes, List.length_map], fun x hx => ?_⟩
  -- The leaf at the position is the claimed entry's leaf, so the entry is the claimed one.
  have hleaf := hleaves _ (List.mem_map_of_mem hx)
  rw [treeLeafHashes, List.getElem?_map, Option.map_eq_some_iff] at hleaf
  obtain ⟨e, he, heq⟩ := hleaf
  have hmem : e ∈ t.entries := List.mem_of_getElem? he
  have hpre : entryPreimage e = entryPreimage x.1 :=
    hT (hentries _ (List.mem_map_of_mem hmem)) (hentries' _ (List.mem_map_of_mem hx)) heq
  rw [he, entryPreimage_inj (hnames e hmem) (hnames' x hx) hpre]

/-- The chunk at a position that is not the metadata leaf's. -/
theorem getElem?_chunkedLeafHashes {pos : UInt32} {d : Hash}
    (hpos : pos ≠ 0) (h : (chunkedLeafHashes B cb)[pos.toNat]? = some d) :
    cb.chunks[pos.toNat - 1]? = some d := by
  have hne : pos.toNat ≠ 0 := fun h0 => hpos (UInt32.toNat_inj.1 h0)
  obtain ⟨k, hk⟩ := Nat.exists_eq_succ_of_ne_zero hne
  rw [chunkedLeafHashes, hk, List.getElem?_cons_succ] at h
  rw [hk]
  exact h

/-- Accepted chunks are chunks of the chunked blob. -/
theorem verifyChunksMulti_sound (hT : CollisionFreeOn B T) {id : Hash}
    {chunks : List (Hash × UInt32)} (hcb : computeChunkedId B cb = some id)
    (hid : ∀ x ∈ chunkedPreimages B cb, x ∈ T)
    (hver : ∀ x ∈ chunksVerifyPreimages B chunks p, x ∈ T)
    (h : Fallible.Returns (verifyChunksMulti B id chunks p) ()) :
    p.leaf_count.toNat = cb.chunks.length + 1 ∧
      ∀ x ∈ chunks, x.2 ≠ 0 ∧ cb.chunks[x.2.toNat - 1]? = some x.1 := by
  obtain ⟨hlen, rfl⟩ := computeChunkedId_eq_some.1 hcb
  obtain ⟨hzero, root, hroot, hwrap⟩ := returns_verifyChunksMulti h
  obtain ⟨-, hcount, hleaves⟩ := reconstructMultiRoot_sound hT hlen
    (List.forall_mem_cons.1 hid).2 hver hroot hwrap
  refine ⟨hcount, fun x hx => ⟨hzero x hx, ?_⟩⟩
  exact getElem?_chunkedLeafHashes (hzero x hx) (hleaves x hx)

/-- An accepted chunk with its sizes is a chunk of the chunked blob, and the sizes are its
own. -/
theorem verifyChunkWithMetaLeaf_sound (hT : CollisionFreeOn B T)
    {id : Hash} {total_size : UInt64} {chunk_size : UInt32} {pos : UInt32}
    (hcb : computeChunkedId B cb = some id) (hid : ∀ x ∈ chunkedPreimages B cb, x ∈ T)
    (hver : ∀ x ∈ metaVerifyPreimages B total_size chunk_size chunk_hash pos p, x ∈ T)
    (h : Fallible.Returns
      (verifyChunkWithMetaLeaf B id total_size chunk_size chunk_hash pos p) ()) :
    p.leaf_count.toNat = cb.chunks.length + 1 ∧ total_size = cb.total_size ∧
      chunk_size = cb.chunk_size ∧ pos ≠ 0 ∧ cb.chunks[pos.toNat - 1]? = some chunk_hash := by
  obtain ⟨hlen, rfl⟩ := computeChunkedId_eq_some.1 hcb
  obtain ⟨hzero, root, hroot, hwrap⟩ := returns_verifyChunkWithMetaLeaf h
  obtain ⟨hmeta, hbmt⟩ := List.forall_mem_cons.1 hid
  obtain ⟨hmeta', hproof⟩ := List.forall_mem_cons.1 hver
  obtain ⟨-, hcount, hleaves⟩ :=
    reconstructMultiRoot_sound hT hlen hbmt hproof hroot hwrap
  obtain ⟨hfirst, hchunk⟩ := List.forall_mem_cons.1 hleaves
  obtain ⟨hchunk, -⟩ := List.forall_mem_cons.1 hchunk
  have heq : B.hash (metaPreimage cb.total_size cb.chunk_size) =
      B.hash (metaPreimage total_size chunk_size) := by
    simpa [chunkedLeafHashes] using hfirst
  obtain ⟨ht, hc⟩ := metaPreimage_inj (hT hmeta hmeta' heq)
  exact ⟨hcount, ht.symm, hc.symm, hzero, getElem?_chunkedLeafHashes hzero hchunk⟩

end Security

/-- **Multi-leaf proofs are sound against the object id.** Whatever leaf count and siblings a
proof has, and in whatever order the positions come, an accepted proof of tree entries, of
chunks, or of a chunk with the two sizes, tells the truth about the object behind the id; and
no proof is accepted against the id of an object of the other kind. Collisions are excluded
among the byte strings hashed to make the id and to check the proof. -/
theorem multi_proofs_sound (B : Blake3) (p : Proof) :
    (∀ (t : Tree) (id : Hash) (pairs : List (TreeEntry × UInt32)),
      computeTreeId B t = some id →
      CollisionFreeOn B {x | x ∈ treePreimages B t ++ treeVerifyPreimages B pairs p} →
      Fallible.Returns (verifyTreeEntriesMulti B id pairs p) () →
        p.leaf_count.toNat = t.entries.length ∧
          ∀ x ∈ pairs, x.2.toNat < t.entries.length ∧ t.entries[x.2.toNat]? = some x.1) ∧
    (∀ (cb : ChunkedBlob) (id : Hash) (chunks : List (Hash × UInt32)),
      computeChunkedId B cb = some id →
      CollisionFreeOn B {x | x ∈ chunkedPreimages B cb ++ chunksVerifyPreimages B chunks p} →
      Fallible.Returns (verifyChunksMulti B id chunks p) () →
        p.leaf_count.toNat = cb.chunks.length + 1 ∧
          ∀ x ∈ chunks, x.2 ≠ 0 ∧ cb.chunks[x.2.toNat - 1]? = some x.1) ∧
    (∀ (cb : ChunkedBlob) (id : Hash) (total_size : UInt64) (chunk_size : UInt32)
        (chunk_hash : Hash) (pos : UInt32),
      computeChunkedId B cb = some id →
      CollisionFreeOn B {x | x ∈ chunkedPreimages B cb ++
        metaVerifyPreimages B total_size chunk_size chunk_hash pos p} →
      Fallible.Returns
        (verifyChunkWithMetaLeaf B id total_size chunk_size chunk_hash pos p) () →
        p.leaf_count.toNat = cb.chunks.length + 1 ∧ total_size = cb.total_size ∧
          chunk_size = cb.chunk_size ∧ pos ≠ 0 ∧ cb.chunks[pos.toNat - 1]? = some chunk_hash) ∧
    (∀ (cb : ChunkedBlob) (id : Hash) (pairs : List (TreeEntry × UInt32)),
      computeChunkedId B cb = some id →
      CollisionFreeOn B {x | x ∈ chunkedPreimages B cb ++ treeVerifyPreimages B pairs p} →
        ¬ Fallible.Returns (verifyTreeEntriesMulti B id pairs p) ()) ∧
    (∀ (t : Tree) (id : Hash) (chunks : List (Hash × UInt32)),
      computeTreeId B t = some id →
      CollisionFreeOn B {x | x ∈ treePreimages B t ++ chunksVerifyPreimages B chunks p} →
        ¬ Fallible.Returns (verifyChunksMulti B id chunks p) ()) ∧
    (∀ (t : Tree) (id : Hash) (total_size : UInt64) (chunk_size : UInt32)
        (chunk_hash : Hash) (pos : UInt32),
      computeTreeId B t = some id →
      CollisionFreeOn B {x | x ∈ treePreimages B t ++
        metaVerifyPreimages B total_size chunk_size chunk_hash pos p} →
        ¬ Fallible.Returns
          (verifyChunkWithMetaLeaf B id total_size chunk_size chunk_hash pos p) ()) := by
  refine ⟨?_, ?_, ?_, ?_, ?_, ?_⟩
  · intro t id pairs ht hT h
    obtain ⟨hcount, hpairs⟩ := verifyTreeEntriesMulti_sound hT ht
      (fun x hx => List.mem_append_left _ hx) (fun x hx => List.mem_append_right _ hx) h
    exact ⟨hcount, fun x hx =>
      ⟨(List.getElem?_eq_some_iff.1 (hpairs x hx)).1, hpairs x hx⟩⟩
  · intro cb id chunks hcb hT h
    exact verifyChunksMulti_sound hT hcb (fun x hx => List.mem_append_left _ hx)
      (fun x hx => List.mem_append_right _ hx) h
  · intro cb id total_size chunk_size chunk_hash pos hcb hT h
    exact verifyChunkWithMetaLeaf_sound hT hcb (fun x hx => List.mem_append_left _ hx)
      (fun x hx => List.mem_append_right _ hx) h
  · intro cb id pairs hcb hT h
    obtain ⟨hlen, rfl⟩ := computeChunkedId_eq_some.1 hcb
    obtain ⟨-, root, hroot, hwrap⟩ := returns_verifyTreeEntriesMulti h
    have hkind := reconstructMultiRoot_sound hT hlen
      (fun x hx => List.mem_append_left _ (List.mem_cons_of_mem _ hx))
      (fun x hx => List.mem_append_right _ (List.mem_append_right _ hx)) hroot hwrap
    exact absurd hkind.1 (by decide)
  · intro t id chunks ht hT h
    obtain ⟨-, hlen, rfl⟩ := computeTreeId_eq_some.1 ht
    obtain ⟨-, root, hroot, hwrap⟩ := returns_verifyChunksMulti h
    have hkind := reconstructMultiRoot_sound hT hlen
      (fun x hx => List.mem_append_left _ (List.mem_append_right _ hx))
      (fun x hx => List.mem_append_right _ hx) hroot hwrap
    exact absurd hkind.1 (by decide)
  · intro t id total_size chunk_size chunk_hash pos ht hT h
    obtain ⟨-, hlen, rfl⟩ := computeTreeId_eq_some.1 ht
    obtain ⟨-, root, hroot, hwrap⟩ := returns_verifyChunkWithMetaLeaf h
    have hkind := reconstructMultiRoot_sound hT hlen
      (fun x hx => List.mem_append_left _ (List.mem_append_right _ hx))
      (fun x hx => List.mem_append_right _ (List.mem_cons_of_mem _ hx)) hroot hwrap
    exact absurd hkind.1 (by decide)

/-- A tree of a file and a directory. -/
def twoEntryTree : Tree :=
  ⟨[⟨ascii ['R'], .blob, ByteArr.fill 32 1⟩, ⟨ascii ['s'], .tree, ByteArr.fill 32 2⟩]⟩

/-- A chunked blob of one chunk. -/
def oneChunkBlob : ChunkedBlob :=
  ⟨7, 64, [ByteArr.fill 32 3]⟩

/-- The proof of one leaf out of two: the other leaf, position-hashed. -/
def siblingProof (leaves : Option (List Hash)) (sibling : UInt32) : Proof :=
  ⟨2, (leaves.bind fun ls => ls[sibling.toNat]?).toList.map (positionLeaf toyBlake3 sibling)⟩

theorem multi_proofs_sound_two_leaves : (∃ id, computeTreeId toyBlake3 twoEntryTree = some id ∧
      Fallible.Returns (verifyTreeEntriesMulti toyBlake3 id
        [(⟨ascii ['R'], .blob, ByteArr.fill 32 1⟩, 0)]
        (siblingProof (treeLeaves toyBlake3 twoEntryTree) 1)) () ∧
      twoEntryTree.entries[0]? = some ⟨ascii ['R'], .blob, ByteArr.fill 32 1⟩ ∧
      ¬ Fallible.Returns (verifyChunksMulti toyBlake3 id [(ByteArr.fill 32 3, 1)]
        (siblingProof (treeLeaves toyBlake3 twoEntryTree) 1)) ()) ∧
    (∃ id, computeChunkedId toyBlake3 oneChunkBlob = some id ∧
      Fallible.Returns (verifyChunksMulti toyBlake3 id [(ByteArr.fill 32 3, 1)]
        (siblingProof (chunkedLeaves toyBlake3 oneChunkBlob) 0)) () ∧
      oneChunkBlob.chunks[0]? = some (ByteArr.fill 32 3)) ∧
    (∃ id, computeChunkedId toyBlake3 oneChunkBlob = some id ∧
      Fallible.Returns
        (verifyChunkWithMetaLeaf toyBlake3 id 7 64 (ByteArr.fill 32 3) 1 ⟨2, []⟩) () ∧
      (7 : UInt64) = oneChunkBlob.total_size) := by
  refine ⟨?_, ?_, ?_⟩
  · have hid : computeTreeId toyBlake3 twoEntryTree =
        some ((computeTreeId toyBlake3 twoEntryTree).getD ZERO) := by decide +kernel
    refine ⟨_, hid, by decide +kernel, ?_, ?_⟩
    · have h := (multi_proofs_sound toyBlake3 _).1 twoEntryTree _
        [(⟨ascii ['R'], .blob, ByteArr.fill 32 1⟩, 0)] hid (by decide +kernel)
        (by decide +kernel : Fallible.Returns (verifyTreeEntriesMulti toyBlake3 _ _
          (siblingProof (treeLeaves toyBlake3 twoEntryTree) 1)) ())
      exact (h.2 _ List.mem_cons_self).2
    · exact (multi_proofs_sound toyBlake3 _).2.2.2.2.1 twoEntryTree _ _ hid (by decide +kernel)
  · have hid : computeChunkedId toyBlake3 oneChunkBlob =
        some ((computeChunkedId toyBlake3 oneChunkBlob).getD ZERO) := by decide +kernel
    refine ⟨_, hid, by decide +kernel, ?_⟩
    have h := (multi_proofs_sound toyBlake3 _).2.1 oneChunkBlob _ [(ByteArr.fill 32 3, 1)] hid
      (by decide +kernel)
      (by decide +kernel : Fallible.Returns (verifyChunksMulti toyBlake3 _ _
        (siblingProof (chunkedLeaves toyBlake3 oneChunkBlob) 0)) ())
    exact (h.2 _ List.mem_cons_self).2
  · have hid : computeChunkedId toyBlake3 oneChunkBlob =
        some ((computeChunkedId toyBlake3 oneChunkBlob).getD ZERO) := by decide +kernel
    refine ⟨_, hid, by decide +kernel, ?_⟩
    have h := (multi_proofs_sound toyBlake3 _).2.2.1 oneChunkBlob _ 7 64 (ByteArr.fill 32 3) 1 hid
      (by decide +kernel)
      (by decide +kernel : Fallible.Returns (verifyChunkWithMetaLeaf toyBlake3 _ 7 64 _ 1
        ⟨2, []⟩) ())
    exact h.2.1

end Mkit
