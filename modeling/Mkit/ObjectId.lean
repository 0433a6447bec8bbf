import Mkit.Merkle
import Mkit.Serialize

/-!
# Object Ids

The content address of an object (`object.rs`): trees and chunked blobs are addressed by
their Merkle root, every other type by the hash of its canonical bytes. The same id is
computed along four paths — from the object alone, from the object with its bytes at hand,
from the bytes alone, and from the bytes cut into parts — each of which decides by itself
which of the two schemes applies.

## Main results

* `id_paths_agree_iff` — the four paths agree, except for a Merkle-addressed object whose
  first part is empty;
* `id_injective` — different objects have different ids.
-/

namespace Mkit

open Wire

section Paths

variable (B : Blake3)

/-- The Merkle id of a tree or chunked blob; `none` for the byte-hashed types. The outer
option is the panic of the Merkle functions. -/
def merkleId : Object → Option (Option Hash)
  | .tree t => (computeTreeId B t).map some
  | .chunkedBlob cb => (computeChunkedId B cb).map some
  | _ => some none

/-- The id of an object in memory. -/
def Object.id (o : Object) : ExceptT MkitError Option Hash := do
  match ← (merkleId B o : Option (Option Hash)) with
  | some h => pure h
  | none => do
    let bytes ← serialize o
    pure (B.hash bytes)

/-- The id of a decoded object whose canonical encoding is at hand. -/
def idFromObject (obj : Object) (bytes : Bytes) : Option Hash := do
  match ← merkleId B obj with
  | some h => some h
  | none => some (B.hash bytes)

/-- Whether a leading byte, if there is one, is the tag of a Merkle-addressed type. -/
def isMerkleTag (first : Option UInt8) : Bool :=
  match first with
  | none => false
  | some b =>
    match ObjectType.fromU8 b with
    | .ok t => t.isMerkle
    | .error _ => false

/-- The id of an object given by its bytes, with the decoded object when the type is
Merkle-addressed. Bytes that fail to decode are byte-hashed. -/
def verifiedIdAndObject (bytes : Bytes) : Option (Hash × Option Object) :=
  if isMerkleTag bytes.head? then
    match deserialize bytes with
    | .ok obj => do
      let id ← idFromObject B obj bytes
      some (id, some obj)
    | .error _ => some (B.hash bytes, none)
  else some (B.hash bytes, none)

/-- The id of an object given by its bytes. -/
def objectIdFromBytes (bytes : Bytes) : Option Hash := do
  let (id, _) ← verifiedIdAndObject B bytes
  some id

/-- The id of an object given by its bytes in parts. The type is read off the first byte of
the first part. -/
def objectIdFromParts (parts : List Bytes) : Option Hash :=
  if isMerkleTag (parts.head?.bind List.head?) then objectIdFromBytes B parts.flatten
  else some (B.finalize (parts.foldl B.update B.new))

/-- All four paths give one id. -/
def IdPathsAgree (o : Object) (b : Bytes) (parts : List Bytes) : Prop :=
  ∃ h, Fallible.Returns (o.id B) h ∧ idFromObject B o b = some h ∧
    objectIdFromBytes B b = some h ∧ objectIdFromParts B parts = some h

/-! ### What an id is the digest of -/

/-- The byte string whose digest is the id of an object with encoding `b`. -/
def Object.addressed (o : Object) (b : Bytes) : Bytes :=
  match o with
  | .tree t => wrapPreimage .tree (bmtRoot B (treeLeafHashes B t))
  | .chunkedBlob cb => wrapPreimage .chunkedBlob (bmtRoot B (chunkedLeafHashes B cb))
  | _ => b

/-- Everything that is hashed to make the id of an object with encoding `b`. -/
def Object.preimages (o : Object) (b : Bytes) : List Bytes :=
  match o with
  | .tree t => treePreimages B t
  | .chunkedBlob cb => chunkedPreimages B cb
  | _ => [b]

end Paths

section Closed

variable {B : Blake3}

variable {o : Object} {b : Bytes}

/-- The first byte of an encoding is the tag of the type. -/
theorem head?_serialize (h : serialize o = .ok b) : b.head? = some o.objectType.toU8 := by
  rw [serialize, bind_eq_ok] at h
  obtain ⟨body, -, hb⟩ := h
  rw [← Except.ok.inj hb]
  rfl

theorem isMerkleTag_toU8 (t : ObjectType) : isMerkleTag (some t.toU8) = t.isMerkle := by
  rw [isMerkleTag, ObjectType.fromU8_eq_ok.2 rfl]

/-- A decodable tree is small enough for its id to be computed. -/
theorem computeTreeId_of_decodable {t : Tree} (h : (Object.tree t).Decodable) :
    computeTreeId B t = some (B.hash (wrapPreimage .tree (bmtRoot B (treeLeafHashes B t)))) := by
  obtain ⟨hmax, hv, -⟩ := h
  refine computeTreeId_eq_some.2 ⟨fun e he => ?_, ?_, rfl⟩
  · have := TreeEntry.length_le_of_validateName (hv e he)
    omega
  · rw [treeLeafHashes, List.length_map]
    exact lt_of_le_of_lt hmax (by decide)

/-- A decodable chunked blob is small enough for its id to be computed. -/
theorem computeChunkedId_of_decodable {cb : ChunkedBlob} (h : (Object.chunkedBlob cb).Decodable) :
    computeChunkedId B cb =
      some (B.hash (wrapPreimage .chunkedBlob (bmtRoot B (chunkedLeafHashes B cb)))) := by
  refine computeChunkedId_eq_some.2 ⟨?_, rfl⟩
  rw [chunkedLeafHashes, List.length_cons]
  exact lt_of_le_of_lt (Nat.succ_le_succ h) (by decide)

/-- The Merkle id of a decodable object, by its type. -/
theorem merkleId_of_decodable (h : o.Decodable) (b : Bytes) : merkleId B o =
      some (if o.objectType.isMerkle then some (B.hash (o.addressed B b)) else none) := by
  cases o with
  | tree t => rw [merkleId, computeTreeId_of_decodable h]; rfl
  | chunkedBlob cb => rw [merkleId, computeChunkedId_of_decodable h]; rfl
  | _ => rfl

/-- A byte-hashed object is addressed by its encoding. -/
theorem addressed_of_not_isMerkle (h : o.objectType.isMerkle = false) (b : Bytes) :
    o.addressed B b = b := by
  cases o <;> first | rfl | exact absurd h (by simp [Object.objectType, ObjectType.isMerkle])

theorem idFromObject_of_decodable (h : o.Decodable) (b : Bytes) :
    idFromObject B o b = some (B.hash (o.addressed B b)) := by
  rw [idFromObject, merkleId_of_decodable h b]
  by_cases hm : o.objectType.isMerkle = true
  · rw [if_pos hm]
    rfl
  · rw [if_neg hm, addressed_of_not_isMerkle (by simpa using hm)]
    rfl

theorem returns_id_of_decodable (h : o.Decodable)
    (hs : serialize o = .ok b) : Fallible.Returns (o.id B) (B.hash (o.addressed B b)) := by
  unfold Object.id
  rw [Fallible.returns_bind]
  refine ⟨_, Fallible.returns_liftOption.2 (merkleId_of_decodable h b), ?_⟩
  by_cases hm : o.objectType.isMerkle = true
  · rw [if_pos hm]
    exact Fallible.returns_pure.2 rfl
  · rw [if_neg hm, addressed_of_not_isMerkle (by simpa using hm)]
    refine Fallible.returns_bind.2 ⟨b, Fallible.returns_liftExcept.2 hs, ?_⟩
    exact Fallible.returns_pure.2 rfl

theorem objectIdFromBytes_of_deserialize
    (h : deserialize b = .ok o) : objectIdFromBytes B b = some (B.hash (o.addressed B b)) := by
  obtain ⟨hd, hs⟩ := deserialize_eq_ok_iff.1 h
  rw [objectIdFromBytes, verifiedIdAndObject, head?_serialize hs, isMerkleTag_toU8]
  by_cases hm : o.objectType.isMerkle = true
  · rw [if_pos hm, h]
    simp only [idFromObject_of_decodable hd, Option.bind_eq_bind, Option.bind_some]
  · rw [if_neg hm, addressed_of_not_isMerkle (by simpa using hm)]
    rfl

/-- With a first part that is not empty, cutting the bytes into parts changes nothing. -/
theorem objectIdFromParts_of_head_ne_nil {p : Bytes} {parts : List Bytes}
    (hp : p ≠ []) (h : deserialize (p :: parts).flatten = .ok o) :
    objectIdFromParts B (p :: parts) =
      some (B.hash (o.addressed B (p :: parts).flatten)) := by
  obtain ⟨-, hs⟩ := deserialize_eq_ok_iff.1 h
  have hhead : (p :: parts).head?.bind List.head? = some o.objectType.toU8 := by
    rw [← head?_serialize hs, List.flatten_cons, List.head?_append_of_ne_nil _ hp]
    rfl
  rw [objectIdFromParts, hhead, isMerkleTag_toU8]
  by_cases hm : o.objectType.isMerkle = true
  · rw [if_pos hm, objectIdFromBytes_of_deserialize h]
  · rw [if_neg hm, addressed_of_not_isMerkle (by simpa using hm), B.finalize_update]

/-- With an empty first part the bytes are hashed flat, whatever their type. -/
theorem objectIdFromParts_of_head_nil (parts : List Bytes) :
    objectIdFromParts B ([] :: parts) = some (B.hash parts.flatten) := by
  have h := B.finalize_update ([] :: parts)
  rw [List.flatten_cons, List.nil_append] at h
  rw [objectIdFromParts, h]
  rfl

/-- The bytes an id is wrapped from do not start with a type tag. -/
theorem head?_wrapPreimage (kind : ObjectKind) (root : Hash) (t : ObjectType) :
    (wrapPreimage kind root).head? ≠ some t.toU8 := by
  have h : (wrapPreimage kind root).head? = some (UInt8.ofNat kind.typeDomain.length) := by
    cases kind <;> rfl
  rw [h]
  cases kind <;> cases t <;> decide

/-- A Merkle-addressed object is not addressed by its encoding. -/
theorem addressed_ne_of_isMerkle {t : ObjectType}
    (hm : o.objectType.isMerkle = true) (hb : b.head? = some t.toU8) (b' : Bytes) :
    o.addressed B b' ≠ b := by
  intro h
  rw [← h] at hb
  cases o with
  | tree t' => exact head?_wrapPreimage _ _ _ hb
  | chunkedBlob cb => exact head?_wrapPreimage _ _ _ hb
  | _ => exact absurd hm (by simp [Object.objectType, ObjectType.isMerkle])

/-- The addressed bytes are among the hashed ones. -/
theorem addressed_mem_preimages (o : Object) (b : Bytes) : o.addressed B b ∈ o.preimages B b := by
  cases o with
  | tree t => simp [Object.addressed, Object.preimages, treePreimages, idPreimages]
  | chunkedBlob cb => simp [Object.addressed, Object.preimages, chunkedPreimages, idPreimages]
  | _ => exact List.mem_singleton.2 rfl

end Closed

/-! ### The paths agree -/

/-- **When the id paths agree.** For an object that can be decoded, its encoding, and any way
of cutting the encoding into parts: the four paths agree when the object is byte-hashed or the
first part is not empty, and, without collisions, only then. -/
theorem id_paths_agree_iff (B : Blake3) (o : Object) (b : Bytes) (parts : List Bytes)
    (ho : ∃ b', deserialize b' = .ok o) (hb : serialize o = .ok b) (hp : parts.flatten = b) :
    ((o.objectType.isMerkle = false ∨ parts.head? ≠ some []) → IdPathsAgree B o b parts) ∧
      (CollisionFreeOn B {x | x ∈ b :: o.preimages B b} →
        (IdPathsAgree B o b parts ↔
          o.objectType.isMerkle = false ∨ parts.head? ≠ some [])) := by
  obtain ⟨b', hb'⟩ := ho
  have hd := (deserialize_eq_ok_iff.1 hb').1
  have hdes : deserialize b = .ok o := deserialize_eq_ok_iff.2 ⟨hd, hb⟩
  have hhead := head?_serialize hb
  have hagree : objectIdFromParts B parts = some (B.hash (o.addressed B b)) →
      IdPathsAgree B o b parts := fun h =>
    ⟨_, returns_id_of_decodable hd hb, idFromObject_of_decodable hd b,
      objectIdFromBytes_of_deserialize hdes, h⟩
  have hif : (o.objectType.isMerkle = false ∨ parts.head? ≠ some []) →
      IdPathsAgree B o b parts := by
    intro hcond
    refine hagree ?_
    match parts, hp, hcond with
    | [], hp, _ =>
      rw [← hp] at hhead
      simp at hhead
    | [] :: ps, hp, hcond =>
      rw [List.flatten_cons, List.nil_append] at hp
      rcases hcond with hm | hne
      · rw [objectIdFromParts_of_head_nil, addressed_of_not_isMerkle hm, hp]
      · exact absurd rfl hne
    | (c :: p) :: ps, hp, _ =>
      subst hp
      exact objectIdFromParts_of_head_ne_nil (List.cons_ne_nil c p) hdes
  refine ⟨hif, fun hcf => ⟨fun h => ?_, hif⟩⟩
  by_contra hcond
  obtain ⟨hm, hne⟩ := not_or.1 hcond
  -- A Merkle-addressed object whose first part is empty: the parts are hashed flat.
  match parts, hp, hne with
  | [], _, hne => exact hne (by simp)
  | (c :: p) :: ps, _, hne => exact hne (by simp)
  | [] :: ps, hp, _ =>
    rw [List.flatten_cons, List.nil_append] at hp
    obtain ⟨id, -, hid, -, hparts⟩ := h
    rw [objectIdFromParts_of_head_nil, hp] at hparts
    rw [idFromObject_of_decodable hd, ← hparts, Option.some.injEq] at hid
    have heq := hcf (List.mem_cons_of_mem _ (addressed_mem_preimages o b))
      List.mem_cons_self hid
    exact addressed_ne_of_isMerkle (by simpa using hm) hhead b heq

/-- The paths agree on the empty tree cut after its tag byte. -/
theorem id_paths_agree_iff_cut : IdPathsAgree toyBlake3 (.tree ⟨[]⟩)
      (writePrologue .tree ++ [0, 0, 0, 0])
      [[2], MAGIC ++ [SCHEMA_VERSION] ++ [0, 0, 0, 0]] :=
  (id_paths_agree_iff toyBlake3 (.tree ⟨[]⟩) _ _
    ⟨_, deserialize_eq_ok_iff.2 ⟨⟨by decide, by decide, List.IsChain.nil⟩, rfl⟩⟩ rfl
    rfl).1 (.inr (by decide))

/-- The paths do not agree on every way of cutting: an empty part before the bytes of the
empty tree makes the part-wise path hash them flat. -/
theorem id_paths_disagree : ¬ ∀ (B : Blake3) (o : Object) (b : Bytes) (parts : List Bytes),
      (∃ b', deserialize b' = .ok o) → serialize o = .ok b → parts.flatten = b →
        IdPathsAgree B o b parts := by
  intro h
  have hdes : deserialize (writePrologue .tree ++ [0, 0, 0, 0]) = .ok (.tree ⟨[]⟩) :=
    deserialize_eq_ok_iff.2 ⟨⟨by decide, by decide, List.IsChain.nil⟩, rfl⟩
  obtain ⟨id, -, hid, -, hparts⟩ := h toyBlake3 (.tree ⟨[]⟩)
    (writePrologue .tree ++ [0, 0, 0, 0]) [[], writePrologue .tree ++ [0, 0, 0, 0]]
    ⟨_, hdes⟩ rfl rfl
  have hne : idFromObject toyBlake3 (.tree ⟨[]⟩) (writePrologue .tree ++ [0, 0, 0, 0]) ≠
      objectIdFromParts toyBlake3 [[], writePrologue .tree ++ [0, 0, 0, 0]] := by
    decide +kernel
  exact hne (hid.trans hparts.symm)

/-! ### Ids determine objects -/

/-- Merkle-addressed objects with one id are equal. -/
theorem eq_of_addressed_eq {B : Blake3} {T : Set Bytes} (hT : CollisionFreeOn B T)
    {o o' : Object} {b b' : Bytes} (hd : o.Decodable) (hd' : o'.Decodable)
    (hm : o.objectType.isMerkle = true) (hm' : o'.objectType.isMerkle = true)
    (hmem : ∀ x ∈ o.preimages B b, x ∈ T) (hmem' : ∀ x ∈ o'.preimages B b', x ∈ T)
    (h : o.addressed B b = o'.addressed B b') : o = o' := by
  have hbyte : ∀ {o : Object}, o.objectType.isMerkle = true →
      (∃ t, o = .tree t) ∨ ∃ cb, o = .chunkedBlob cb := by
    intro o hm
    cases o <;> simp [Object.objectType, ObjectType.isMerkle] at hm ⊢
  rcases hbyte hm with ⟨t, rfl⟩ | ⟨cb, rfl⟩
  · rcases hbyte hm' with ⟨t', rfl⟩ | ⟨cb', rfl⟩
    · have hid' : computeTreeId B t' = some (B.hash ((Object.tree t).addressed B b)) := by
        rw [h]
        exact computeTreeId_of_decodable hd'
      rw [computeTreeId_inj hT hmem hmem' (computeTreeId_of_decodable hd) hid']
    · exact absurd (wrapPreimage_inj h).1 (by decide)
  · rcases hbyte hm' with ⟨t', rfl⟩ | ⟨cb', rfl⟩
    · exact absurd (wrapPreimage_inj h).1 (by decide)
    · have hid' : computeChunkedId B cb' =
          some (B.hash ((Object.chunkedBlob cb).addressed B b)) := by
        rw [h]
        exact computeChunkedId_of_decodable hd'
      rw [computeChunkedId_inj hT hmem hmem' (computeChunkedId_of_decodable hd) hid']

/-- **Content addressing is injective.** Two objects that can be decoded and have one id are
equal, when no two of the byte strings hashed to make their ids collide. -/
theorem id_injective (B : Blake3) (o o' : Object) (b b' : Bytes)
    (ho : deserialize b = .ok o) (ho' : deserialize b' = .ok o')
    (hcf : CollisionFreeOn B {x | x ∈ o.preimages B b ++ o'.preimages B b'})
    (h : (o.id B).run = (o'.id B).run) : o = o' := by
  obtain ⟨hd, hs⟩ := deserialize_eq_ok_iff.1 ho
  obtain ⟨hd', hs'⟩ := deserialize_eq_ok_iff.1 ho'
  have hmem : ∀ x ∈ o.preimages B b, x ∈ {x | x ∈ o.preimages B b ++ o'.preimages B b'} :=
    fun x hx => List.mem_append_left _ hx
  have hmem' : ∀ x ∈ o'.preimages B b', x ∈ {x | x ∈ o.preimages B b ++ o'.preimages B b'} :=
    fun x hx => List.mem_append_right _ hx
  have hid : B.hash (o.addressed B b) = B.hash (o'.addressed B b') := by
    have hr := returns_id_of_decodable (B := B) hd hs
    have hr' := returns_id_of_decodable (B := B) hd' hs'
    rw [Fallible.Returns, h, hr'] at hr
    simpa using hr.symm
  have haddr : o.addressed B b = o'.addressed B b' :=
    hcf (hmem _ (addressed_mem_preimages o b)) (hmem' _ (addressed_mem_preimages o' b')) hid
  -- The types of the two objects decide between the two addressing schemes.
  by_cases hm : o.objectType.isMerkle = true
  · by_cases hm' : o'.objectType.isMerkle = true
    · exact eq_of_addressed_eq hcf hd hd' hm hm' hmem hmem' haddr
    · rw [addressed_of_not_isMerkle (o := o') (by simpa using hm')] at haddr
      exact absurd haddr (addressed_ne_of_isMerkle hm (head?_serialize hs') b)
  · rw [addressed_of_not_isMerkle (o := o) (by simpa using hm)] at haddr
    by_cases hm' : o'.objectType.isMerkle = true
    · exact absurd haddr.symm (addressed_ne_of_isMerkle hm' (head?_serialize hs) b')
    · rw [addressed_of_not_isMerkle (o := o') (by simpa using hm')] at haddr
      subst haddr
      exact Except.ok.inj (ho.symm.trans ho')

/-- The ids of the empty tree and of a chunked blob without chunks differ. -/
theorem id_injective_empty :
    ((Object.tree ⟨[]⟩).id toyBlake3).run ≠ ((Object.chunkedBlob ⟨0, 0, []⟩).id toyBlake3).run := by
  intro h
  have hdes : deserialize (writePrologue .tree ++ [0, 0, 0, 0]) = .ok (.tree ⟨[]⟩) :=
    deserialize_eq_ok_iff.2 ⟨⟨by decide, by decide, List.IsChain.nil⟩, rfl⟩
  have hdes' : deserialize (writePrologue .chunkedBlob ++ List.replicate 16 0) =
      .ok (.chunkedBlob ⟨0, 0, []⟩) :=
    deserialize_eq_ok_iff.2 ⟨Nat.zero_le _, rfl⟩
  have heq := id_injective toyBlake3 _ _ _ _ hdes hdes' (by decide +kernel) h
  exact Object.noConfusion heq

end Mkit
