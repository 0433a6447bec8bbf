import Mathlib.Data.Prod.Lex
import Mkit.Lib.BmtProof
import Mkit.Lib.SortedSet
import Mkit.Merkle

/-!
# Building and Encoding Inclusion Proofs

The builder of `merkle.rs` walks up the tree with the set of proven positions and collects the
siblings a verifier cannot compute itself; the proof holds these nodes level by level. A range
proof collects the neighbours of the two ends instead. On the wire a proof is the leaf count, the
number of siblings as a variable-length number, and the siblings.

## Main results

* `multi_proof_complete` — every set of positions has a proof, with which the true leaves rebuild
  the root; a range proof is the multi-leaf proof of its positions;
* `proof_encoding_exact` — the predicted size is the size of the encoding, and the decoder accepts
  what the builder made.
-/

namespace Mkit

/-! ### Building -/

/-- A position in a tree: the level and the index in it, compared in this order. -/
abbrev NodePosition := ℕ ×ₗ ℕ

/-- The requested positions as a set. -/
def collectPositions (leaf_count : UInt32) :
    List UInt32 → SortedSet ℕ → Except MerkleError (SortedSet ℕ)
  | [], current => .ok current
  | pos :: rest, current =>
    if leaf_count ≤ pos then .error (.positionOutOfRange pos)
    else if pos.toNat ∈ current then .error (.duplicatePosition pos)
    else collectPositions leaf_count rest (current.insert pos.toNat)

/-- The siblings that one level adds. -/
def addLevel (level level_size : ℕ) (current : SortedSet ℕ) (acc : SortedSet NodePosition) :
    SortedSet NodePosition :=
  current.elems.foldl (fun acc index =>
    let sibling_index := Bmt.siblingIndex level_size index
    if sibling_index ≠ index ∧ sibling_index ∉ current then
      acc.insert (toLex (level, sibling_index))
    else acc) acc

/-- The siblings that the levels from `level` on add. -/
def addSiblings : ℕ → ℕ → ℕ → SortedSet ℕ → SortedSet NodePosition → SortedSet NodePosition
  | 0, _, _, _, acc => acc
  | rounds + 1, level, level_size, current, acc =>
    addSiblings rounds (level + 1) ((level_size + 1) / 2)
      (SortedSet.ofList (current.elems.map (· / 2))) (addLevel level level_size current acc)

/-- The siblings a proof of some leaves needs. -/
def siblingsRequiredForMultiProof (leaf_count : UInt32) (positions : List UInt32) :
    Except MerkleError (SortedSet NodePosition) :=
  match collectPositions leaf_count positions ∅ with
  | .error e => .error e
  | .ok current =>
    if current.elems.isEmpty then .error .noPositions
    else .ok (addSiblings (levelsInTree leaf_count - 1) 0 leaf_count.toNat current ∅)

/-- The neighbours of a range that the levels from `level` on add. -/
def addRangeSiblings : ℕ → ℕ → ℕ → ℕ → ℕ → SortedSet NodePosition → SortedSet NodePosition
  | 0, _, _, _, _, acc => acc
  | rounds + 1, level, level_size, level_start, level_end, acc =>
    let acc := if level_start % 2 ≠ 0 then acc.insert (toLex (level, level_start - 1)) else acc
    let acc := if level_end % 2 = 0 ∧ level_end + 1 < level_size then
      acc.insert (toLex (level, level_end + 1)) else acc
    addRangeSiblings rounds (level + 1) ((level_size + 1) / 2) (level_start / 2)
      (level_end / 2) acc

/-- The siblings a proof of the leaves from `start` to `stop` needs. -/
def siblingsRequiredForRangeProof (leaf_count start stop : UInt32) :
    Except MerkleError (SortedSet NodePosition) :=
  if leaf_count = 0 then .error .noPositions
  else if stop < start then .error (.invalidRange start stop)
  else if leaf_count ≤ start then .error (.positionOutOfRange start)
  else if leaf_count ≤ stop then .error (.positionOutOfRange stop)
  else .ok (addRangeSiblings (levelsInTree leaf_count - 1) 0 leaf_count.toNat start.toNat
    stop.toNat ∅)

/-- The proof made of the nodes at some positions; a position outside the tree is a panic. -/
def BmtTree.proofAt (tree : BmtTree) (positions : SortedSet NodePosition) : Option Proof := do
  let siblings ← Bmt.nodesAt tree.levels (positions.elems.map ofLex)
  some ⟨tree.leaf_count, siblings⟩

/-- A proof of the leaves from `start` to `stop`, both included. -/
def BmtTree.rangeProof (tree : BmtTree) (start stop : UInt32) :
    ExceptT MerkleError Option Proof := do
  if tree.empty then throw (.positionOutOfRange start)
  if stop < start then throw (.invalidRange start stop)
  if tree.leaf_count ≤ start then throw (.positionOutOfRange start)
  if tree.leaf_count ≤ stop then throw (.positionOutOfRange stop)
  let positions ← siblingsRequiredForRangeProof tree.leaf_count start stop
  tree.proofAt positions

/-- A proof of the leaves at some positions, given in any order. -/
def BmtTree.multiProof (tree : BmtTree) (positions : List UInt32) :
    ExceptT MerkleError Option Proof := do
  match positions with
  | [] => throw .noPositions
  | first :: _ => do
    if tree.empty then throw (.positionOutOfRange first)
    let siblings ← siblingsRequiredForMultiProof tree.leaf_count positions
    tree.proofAt siblings

/-- `u32::checked_add`. -/
def u32CheckedAdd (a b : UInt32) : Option UInt32 :=
  if a.toNat + b.toNat < 2 ^ 32 then some (a + b) else none

/-- The claimed leaves of a range, each with its position. -/
def rangeElements (position : UInt32) (leaves : List Hash) : Option (List (Hash × UInt32)) :=
  leaves.zipIdx.mapM fun (l, i) => do
    let i ← u32Of i
    some (l, position + i)

/-- Rebuild the inner root for the leaves from `position` on. -/
def Proof.reconstructRangeRoot (B : Blake3) (p : Proof) (position : UInt32)
    (leaves : List Hash) : ExceptT MerkleError Option Hash := do
  if leaves.isEmpty && position != 0 then throw (.positionOutOfRange position)
  if !leaves.isEmpty then
    let leaves_len ← u32Of leaves.length
    match u32CheckedAdd position (leaves_len - 1) with
    | none => throw (.positionOutOfRange position)
    | some stop =>
      if p.leaf_count ≤ stop then throw (.positionOutOfRange stop)
  let elements ← rangeElements position leaves
  p.reconstructMultiRoot B elements

/-! ### Encoding -/

/-- The minimal unsigned LEB128 form of a number. -/
def leb128 (n : ℕ) : Bytes :=
  if n < 128 then [UInt8.ofNat n] else UInt8.ofNat (n % 128 + 128) :: leb128 (n / 128)
termination_by n
decreasing_by omega

/-- The length prefix of a vector in the codec library: minimal LEB128, which is read back.
Lengths fit in a `u32` there. -/
structure LengthCodec where
  write : ℕ → Bytes
  read : Wire.Parser MerkleError ℕ
  write_eq : ∀ n, n < 2 ^ 32 → write n = leb128 n
  read_write : ∀ n, n < 2 ^ 32 → ∀ rest, read (leb128 n ++ rest) = .ok (n, rest)

/-- Read a LEB128 number; a form with a superfluous last byte is rejected. -/
def readLeb128 : Wire.Parser MerkleError ℕ
  | [] => .error .malformedProof
  | b :: rest =>
    if b < 128 then .ok (b.toNat, rest)
    else do
      let (n, rest) ← readLeb128 rest
      if n = 0 then .error .malformedProof else .ok (n * 128 + (b.toNat - 128), rest)

theorem readLeb128_leb128 (n : ℕ) (rest : Bytes) :
    readLeb128 (leb128 n ++ rest) = .ok (n, rest) := by
  fun_induction leb128 n with
  | case1 n h =>
    have hn : (UInt8.ofNat n).toNat = n := UInt8.toNat_ofNat_of_lt' (by omega : n < 2 ^ 8)
    have hlt : UInt8.ofNat n < 128 := by
      rw [UInt8.lt_iff_toNat_lt, hn]
      exact h
    rw [List.singleton_append, readLeb128, if_pos hlt, hn]
  | case2 n h ih =>
    have hn : (UInt8.ofNat (n % 128 + 128)).toNat = n % 128 + 128 :=
      UInt8.toNat_ofNat_of_lt' (by omega : n % 128 + 128 < 2 ^ 8)
    have hge : ¬ UInt8.ofNat (n % 128 + 128) < 128 := by
      rw [UInt8.lt_iff_toNat_lt, hn]
      exact not_lt.2 (Nat.le_add_left 128 _)
    have hquot : n / 128 ≠ 0 := by omega
    have hsum : n / 128 * 128 + (n % 128 + 128 - 128) = n := by omega
    rw [List.cons_append, readLeb128, if_neg hge, ih]
    change (if n / 128 = 0 then _ else _) = _
    rw [if_neg hquot, hn, hsum]

/-- The codec that writes and reads this form. -/
def leb128Codec : LengthCodec where
  write := leb128
  read := readLeb128
  write_eq _ _ := rfl
  read_write n _ rest := readLeb128_leb128 n rest

section Codec

variable (C : LengthCodec)

/-- The wire bytes of a proof. -/
def Proof.encode (p : Proof) : Bytes :=
  Wire.beBytes 4 p.leaf_count.toNat ++ (C.write p.siblings.length ++
    p.siblings.flatMap ByteArr.bytes)

/-- The most siblings a proof of one leaf can have. -/
def MAX_LEVELS : ℕ := 32

/-- Read a proof of at most `max_items` leaves. -/
def Proof.read (max_items : ℕ) : Wire.Parser MerkleError Proof := do
  let leaf_count ← Wire.take .malformedProof 4
  let count ← C.read
  if min (max_items * MAX_LEVELS) (2 ^ 64 - 1) < count then throw .malformedProof
  let siblings ← Wire.repeatWith (fun _ => ByteArr.read .malformedProof HASH_LEN) count []
  return ⟨UInt32.ofNat (Wire.ofLeBytes leaf_count.reverse), siblings⟩

/-- Decode a proof of at most `max_items` leaves; trailing bytes are rejected. -/
def Proof.decode (bytes : Bytes) (max_items : ℕ) : Except MerkleError Proof := do
  let (proof, rest) ← (Proof.read C max_items).run bytes
  if rest.isEmpty then .ok proof else .error .malformedProof

end Codec

/-- The length of the prefix of a vector of `count` elements. -/
def prefixSize (count : ℕ) : ℕ :=
  if count < 128 then 1 else 1 + prefixSize (count / 128)
termination_by count
decreasing_by omega

/-- The size of a proof on the wire, from the shape of the tree alone. -/
def proofEncodedSize (leaf_count : UInt32) (positions : List UInt32) : Except MerkleError ℕ := do
  let siblings ← siblingsRequiredForMultiProof leaf_count positions
  return 4 + prefixSize siblings.size + siblings.size * 32

/-! ### The required siblings -/

theorem collectPositions_eq_ok {leaf_count : UInt32} {positions : List UInt32}
    {current : SortedSet ℕ} (hlt : ∀ p ∈ positions, p < leaf_count) (hnodup : positions.Nodup)
    (hnew : ∀ p ∈ positions, p.toNat ∉ current) :
    ∃ s, collectPositions leaf_count positions current = .ok s ∧
      ∀ i, i ∈ s ↔ i ∈ current ∨ ∃ p ∈ positions, i = p.toNat := by
  induction positions generalizing current with
  | nil => exact ⟨current, rfl, by simp⟩
  | cons p positions ih =>
    obtain ⟨hp, hlt⟩ := List.forall_mem_cons.1 hlt
    obtain ⟨hnot, hnodup⟩ := List.nodup_cons.1 hnodup
    obtain ⟨hpnew, hnew⟩ := List.forall_mem_cons.1 hnew
    obtain ⟨s, hs, hmem⟩ := @ih (current.insert p.toNat) hlt hnodup fun q hq => by
      rw [SortedSet.mem_insert, not_or]
      exact ⟨fun heq => hnot (UInt32.toNat_inj.1 heq ▸ hq), hnew q hq⟩
    refine ⟨s, ?_, fun i => ?_⟩
    · rw [collectPositions, if_neg (UInt32.not_le.2 hp), if_neg hpnew, hs]
    · rw [hmem, SortedSet.mem_insert]
      simp only [List.mem_cons, exists_eq_or_imp]
      tauto

variable {x : NodePosition}

theorem mem_addLevel {level size : ℕ} {current : SortedSet ℕ} {acc : SortedSet NodePosition}
    (hlt : ∀ p ∈ current, p < size) : x ∈ addLevel level size current acc ↔
      x ∈ acc ∨ ∃ i ∈ Bmt.missing size current.elems, x = toLex (level, i) := by
  have hfold : ∀ (l : List ℕ) (acc : SortedSet NodePosition),
      x ∈ l.foldl (fun acc index =>
        if Bmt.siblingIndex size index ≠ index ∧ Bmt.siblingIndex size index ∉ current then
          acc.insert (toLex (level, Bmt.siblingIndex size index))
        else acc) acc ↔
      x ∈ acc ∨ ∃ p ∈ l, (Bmt.siblingIndex size p ≠ p ∧ Bmt.siblingIndex size p ∉ current) ∧
        x = toLex (level, Bmt.siblingIndex size p) := by
    intro l
    induction l with
    | nil => simp
    | cons p l ih =>
      intro acc
      rw [List.foldl_cons, ih]
      simp only [List.mem_cons, exists_eq_or_imp]
      split_ifs with hp
      · rw [SortedSet.mem_insert]
        tauto
      · tauto
  rw [addLevel, hfold]
  refine or_congr Iff.rfl ⟨?_, ?_⟩
  · rintro ⟨p, hp, ⟨hne, hnot⟩, rfl⟩
    exact ⟨_, (Bmt.mem_missing current.sorted hlt).2 ⟨p, hp, rfl, hne, hnot⟩, rfl⟩
  · rintro ⟨i, hi, rfl⟩
    obtain ⟨p, hp, rfl, hne, hnot⟩ := (Bmt.mem_missing current.sorted hlt).1 hi
    exact ⟨p, hp, ⟨hne, hnot⟩, rfl⟩

/-- The set of the parents is the list of the parents. -/
theorem elems_ofList_halves (current : SortedSet ℕ) :
    (SortedSet.ofList (current.elems.map (· / 2))).elems = Bmt.halves current.elems := by
  refine SortedSet.list_eq_of_mem (SortedSet.sorted _) (Bmt.sorted_halves current.sorted)
    fun i => ?_
  rw [← SortedSet.mem_def, SortedSet.mem_ofList, List.mem_map, Bmt.mem_halves]
  exact exists_congr fun p => and_congr_right fun _ => eq_comm

theorem mem_addSiblings {rounds level size : ℕ} {current : SortedSet ℕ}
    {acc : SortedSet NodePosition} (hlt : ∀ p ∈ current, p < size) :
    x ∈ addSiblings rounds level size current acc ↔
      x ∈ acc ∨ ∃ p ∈ Bmt.proofPositions rounds size current.elems,
        x = toLex (level + p.1, p.2) := by
  induction rounds generalizing level size current acc with
  | zero => simp [addSiblings, Bmt.proofPositions]
  | succ rounds ih =>
    have hhalves : ∀ p ∈ SortedSet.ofList (current.elems.map (· / 2)), p < (size + 1) / 2 := by
      intro p hp
      rw [SortedSet.mem_def, elems_ofList_halves] at hp
      exact Bmt.halves_lt hlt p hp
    rw [addSiblings, ih hhalves, mem_addLevel hlt, elems_ofList_halves, Bmt.proofPositions,
      or_assoc]
    refine or_congr Iff.rfl ?_
    simp only [List.mem_append, List.mem_map, or_and_right, exists_or, exists_exists_and_eq_and]
    refine or_congr Iff.rfl (exists_congr fun p => and_congr_right fun _ => ?_)
    rw [Nat.add_assoc, Nat.add_comm 1]

theorem mem_addRangeSiblings {rounds level size start stop : ℕ} {held : List ℕ}
    {acc : SortedSet NodePosition} (hasc : held.Pairwise (· < ·))
    (hheld : ∀ i, i ∈ held ↔ start ≤ i ∧ i ≤ stop) (hle : start ≤ stop) (hlt : stop < size) :
    x ∈ addRangeSiblings rounds level size start stop acc ↔
      x ∈ acc ∨ ∃ p ∈ Bmt.proofPositions rounds size held, x = toLex (level + p.1, p.2) := by
  induction rounds generalizing level size start stop held acc with
  | zero => simp [addRangeSiblings, Bmt.proofPositions]
  | succ rounds ih =>
    rw [addRangeSiblings, ih (Bmt.sorted_halves hasc) (Bmt.mem_halves_contiguous hheld hle)
      (by omega) (by omega), Bmt.proofPositions]
    simp only [List.mem_append, List.mem_map, or_and_right, exists_or, exists_exists_and_eq_and,
      Bmt.mem_missing_contiguous hasc hheld hle hlt]
    have hlevel : ∀ p : ℕ × ℕ, toLex (level + 1 + p.1, p.2) = toLex (level + (p.1 + 1), p.2) := by
      intro p
      rw [Nat.add_assoc, Nat.add_comm 1]
    simp only [hlevel, ← or_assoc]
    refine or_congr ?_ Iff.rfl
    have hinserted : ∀ (c : Prop) [Decidable c] (acc : SortedSet NodePosition) (i : ℕ),
        x ∈ (if c then acc.insert (toLex (level, i)) else acc) ↔
          x ∈ acc ∨ c ∧ x = toLex (level, i) := by
      intro c _ acc i
      split_ifs with hc
      · rw [SortedSet.mem_insert]
        tauto
      · tauto
    rw [hinserted, hinserted]
    simp only [and_assoc, exists_and_left, exists_eq_left, Nat.add_zero, or_assoc]

/-- A set of positions in a tree is the list of the positions a climb needs. -/
theorem elems_eq_proofPositions {rounds size : ℕ} {held : List ℕ} {s : SortedSet NodePosition}
    (hasc : held.Pairwise (· < ·))
    (h : ∀ x, x ∈ s ↔ ∃ p ∈ Bmt.proofPositions rounds size held, x = toLex (0 + p.1, p.2)) :
    s.elems.map ofLex = Bmt.proofPositions rounds size held := by
  have helems : s.elems = (Bmt.proofPositions rounds size held).map toLex := by
    refine SortedSet.list_eq_of_mem s.sorted (List.pairwise_map.2 ?_) fun x => ?_
    · refine (Bmt.sorted_proofPositions rounds size hasc).imp fun hpq => ?_
      exact Prod.Lex.toLex_lt_toLex.2 hpq
    · rw [← SortedSet.mem_def, h, List.mem_map]
      refine exists_congr fun p => and_congr_right fun _ => ?_
      rw [Nat.zero_add]
      exact eq_comm
  rw [helems, List.map_map]
  exact List.map_id _

/-- **The siblings of a set of leaves**, as the builder orders them. -/
theorem siblingsRequiredForMultiProof_eq_ok {leaf_count : UInt32} {positions : List UInt32}
    (hne : positions ≠ []) (hlt : ∀ p ∈ positions, p < leaf_count) (hnodup : positions.Nodup) :
    ∃ (held : List ℕ) (s : SortedSet NodePosition),
      siblingsRequiredForMultiProof leaf_count positions = .ok s ∧
      held.Pairwise (· < ·) ∧ (∀ i, i ∈ held ↔ ∃ p ∈ positions, i = p.toNat) ∧
      s.elems.map ofLex = Bmt.proofPositions (levelsInTree leaf_count - 1) leaf_count.toNat held := by
  obtain ⟨current, hcollect, hmem⟩ := @collectPositions_eq_ok leaf_count positions ∅ hlt hnodup
    fun p _ => SortedSet.notMem_empty _
  have hheld : ∀ i, i ∈ current.elems ↔ ∃ p ∈ positions, i = p.toNat := by
    intro i
    rw [← SortedSet.mem_def, hmem]
    exact or_iff_right (SortedSet.notMem_empty i)
  have hbound : ∀ p ∈ current, p < leaf_count.toNat := by
    intro i hi
    obtain ⟨p, hp, rfl⟩ := (hheld i).1 hi
    exact UInt32.lt_iff_toNat_lt.1 (hlt p hp)
  have hnil : current.elems.isEmpty = false := by
    obtain ⟨p, hp⟩ := List.exists_mem_of_ne_nil positions hne
    rw [List.isEmpty_eq_false_iff]
    exact List.ne_nil_of_mem ((hheld _).2 ⟨p, hp, rfl⟩)
  refine ⟨current.elems, _, ?_, current.sorted, hheld,
    elems_eq_proofPositions (s := addSiblings (levelsInTree leaf_count - 1) 0 leaf_count.toNat
      current ∅) current.sorted fun x => ?_⟩
  · rw [siblingsRequiredForMultiProof, hcollect]
    dsimp only
    rw [hnil]
    rfl
  · rw [mem_addSiblings hbound]
    exact or_iff_right (SortedSet.notMem_empty x)

/-! ### Building a proof -/

section Building

variable {B : Blake3} {leaves : List Hash} {tree : BmtTree}

/-- What is built over leaves that fit. -/
structure Built (B : Blake3) (leaves : List Hash) (tree : BmtTree) : Prop where
  leaf_count : tree.leaf_count.toNat = leaves.length
  empty : tree.empty = leaves.isEmpty
  levels : tree.levels = Bmt.levels (nodeHash B) (bottomLevel B leaves)
  root : tree.root = B.hash (countedPreimage leaves.length (bmtTop B leaves))

theorem exists_built (hlen : leaves.length < 2 ^ 32) :
    ∃ tree, buildBmt B leaves = some tree ∧ Built B leaves tree := by
  obtain ⟨w, hw, hwn⟩ := u32Of_of_lt hlen
  refine ⟨⟨w, leaves.isEmpty, Bmt.levels (nodeHash B) (bottomLevel B leaves),
    h2 B (Wire.beBytes 4 w.toNat) (bmtTop B leaves).bytes⟩, ?_, hwn, rfl, rfl, ?_⟩
  · unfold buildBmt
    simp only [hw, positionHashed_eq hlen, Bmt.getLast?_levels, topLevel_bottomLevel,
      Option.bind_eq_bind, Option.bind_some, List.head?_cons]
  · rw [h2_eq, hwn]
    rfl

/-- The lowest level at a position of a leaf. -/
theorem getElem?_bottomLevel {i : ℕ} {leaf : Hash} (h : leaves[i]? = some leaf) :
    (bottomLevel B leaves)[i]? = some (B.hash (countedPreimage i leaf)) := by
  have hne : leaves.isEmpty = false := by
    rw [List.isEmpty_eq_false_iff]
    rintro rfl
    cases h
  rw [bottomLevel, bottomPreimages, hne, if_neg Bool.false_ne_true, List.getElem?_map,
    List.getElem?_mapIdx, h]
  rfl

theorem length_bottomLevel_of_ne_nil (hne : leaves ≠ []) :
    (bottomLevel B leaves).length = leaves.length := by
  have hpos := List.length_pos_iff.2 hne
  rw [length_bottomLevel]
  omega

/-- The nodes of a tree at the positions a climb needs. -/
theorem proofAt_eq_some (hbuilt : Built B leaves tree) (hne : leaves ≠ []) {held : List ℕ}
    (hlt : ∀ i ∈ held, i < leaves.length) {s : SortedSet NodePosition} (hs : s.elems.map ofLex =
      Bmt.proofPositions (levelsInTree tree.leaf_count - 1) tree.leaf_count.toNat held) :
    tree.proofAt s = some ⟨tree.leaf_count, Bmt.proofNodes (nodeHash B)
      (Nat.size (leaves.length - 1)) (bottomLevel B leaves) held⟩ := by
  have hlength := length_bottomLevel_of_ne_nil (B := B) hne
  have hheld : ∀ i ∈ held, i < (bottomLevel B leaves).length := by rwa [hlength]
  have hnodes := Bmt.nodesAt_proofPositions (f := nodeHash B) hheld
  rw [hlength] at hnodes
  rw [BmtTree.proofAt, hs, hbuilt.levels, levelsInTree, hbuilt.leaf_count,
    Nat.add_sub_cancel, hnodes]
  rfl

/-- Sorting leaves the held nodes of some claimed leaves in ascending order. -/
theorem sorted_sortedElements (elements : List (Hash × UInt32)) :
    (sortedElements B elements).Pairwise fun a b => a.1 ≤ b.1 := by
  refine List.pairwise_insertionSort (r := fun a b : UInt32 × Hash => a.1 ≤ b.1) _

theorem firstDuplicate_eq_none {l : List (UInt32 × Hash)}
    (h : l.Pairwise fun a b => a.1 ≠ b.1) : firstDuplicate l = none := by
  induction l with
  | nil => rfl
  | cons a l ih =>
    cases l with
    | nil => rfl
    | cons b l =>
      obtain ⟨ha, hrest⟩ := List.pairwise_cons.1 h
      rw [firstDuplicate, if_neg (ha b List.mem_cons_self), ih hrest]

variable {elements : List (Hash × UInt32)}

/-- The positions of the sorted leaves are the given ones. -/
theorem sortedElements_pairwise_lt (hnodup : (elements.map Prod.snd).Nodup) :
    (sortedElements B elements).Pairwise fun a b => a.1 < b.1 := by
  have hperm : ((sortedElements B elements).map Prod.fst).Perm (elements.map Prod.snd) := by
    have hsort := (List.perm_insertionSort (fun a b : UInt32 × Hash => a.1 ≤ b.1)
      (elements.map fun x => (x.2, positionLeaf B x.2 x.1))).map Prod.fst
    rw [List.map_map] at hsort
    exact hsort
  have hne : (sortedElements B elements).Pairwise fun a b => a.1 ≠ b.1 :=
    List.pairwise_map.1 (hperm.nodup_iff.2 hnodup)
  refine (sorted_sortedElements elements).imp₂ (fun a b hle hne => ?_) hne
  have hle := UInt32.le_iff_toNat_le.1 hle
  have hne := mt UInt32.toNat_inj.1 hne
  rw [UInt32.lt_iff_toNat_lt]
  omega

/-- **The true leaves rebuild the root** from the nodes a climb needs, in whatever order they
are given. -/
theorem reconstructMultiRoot_complete (hbuilt : Built B leaves tree) (hleaves : leaves ≠ [])
    (hne : elements ≠ []) (hnodup : (elements.map Prod.snd).Nodup)
    (htrue : ∀ x ∈ elements, leaves[x.2.toNat]? = some x.1) {held : List ℕ}
    (hasc : held.Pairwise (· < ·)) (hheld : ∀ i, i ∈ held ↔ ∃ x ∈ elements, i = x.2.toNat) :
    Proof.reconstructMultiRoot B ⟨tree.leaf_count, Bmt.proofNodes (nodeHash B)
      (Nat.size (leaves.length - 1)) (bottomLevel B leaves) held⟩ elements = .ok tree.root := by
  have hlength := length_bottomLevel_of_ne_nil (B := B) hleaves
  have hsorted := sortedElements_pairwise_lt (B := B) hnodup
  have hpositions : ((heldElements B elements).map Prod.fst).Pairwise (· < ·) := by
    rw [heldElements, List.map_map, List.pairwise_map]
    exact hsorted.imp fun h => UInt32.lt_iff_toNat_lt.1 h
  have hfst : (heldElements B elements).map Prod.fst = held := by
    refine SortedSet.list_eq_of_mem hpositions hasc fun i => ?_
    rw [hheld, List.mem_map]
    constructor
    · rintro ⟨y, hy, rfl⟩
      obtain ⟨x, hx, rfl⟩ := mem_heldElements.1 hy
      exact ⟨x, hx, rfl⟩
    · rintro ⟨x, hx, rfl⟩
      exact ⟨_, mem_heldElements.2 ⟨x, hx, rfl⟩, rfl⟩
  have hnodes : Bmt.Held (bottomLevel B leaves) (heldElements B elements) := by
    intro y hy
    obtain ⟨x, hx, rfl⟩ := mem_heldElements.1 hy
    exact getElem?_bottomLevel (htrue x hx)
  have hstart : heldElements B elements ≠ [] := by
    obtain ⟨x, hx⟩ := List.exists_mem_of_ne_nil elements hne
    exact List.ne_nil_of_mem (mem_heldElements.2 ⟨x, hx, rfl⟩)
  have hclimb := Bmt.climb_complete hnodes hpositions hstart (topLevel_bottomLevel leaves)
  rw [hlength, hfst] at hclimb
  have hrange : elements.find? (fun x => decide (tree.leaf_count ≤ x.2)) = none := by
    rw [List.find?_eq_none]
    intro x hx
    have hlt := (List.getElem?_eq_some_iff.1 (htrue x hx)).1
    rw [decide_eq_true_eq, UInt32.le_iff_toNat_le, hbuilt.leaf_count]
    omega
  have hduplicate : firstDuplicate (sortedElements B elements) = none :=
    firstDuplicate_eq_none (hsorted.imp fun h heq => by
      rw [heq] at h
      exact UInt32.lt_irrefl _ h)
  have hempty : elements.isEmpty = false := List.isEmpty_eq_false_iff.2 hne
  rw [Proof.reconstructMultiRoot, hempty, if_neg Bool.false_ne_true, hrange, hduplicate]
  simp only [levelsInTree, hbuilt.leaf_count, Nat.add_sub_cancel, hclimb]
  rw [hbuilt.root, h2_eq]
  rfl

variable {positions : List UInt32}

/-- The proof of some positions. -/
theorem multiProof_eq (hbuilt : Built B leaves tree) (hleaves : leaves ≠ [])
    (hne : positions ≠ []) (hnodup : positions.Nodup)
    (hlt : ∀ p ∈ positions, p.toNat < leaves.length) :
    ∃ held : List ℕ, held.Pairwise (· < ·) ∧ (∀ i, i ∈ held ↔ ∃ p ∈ positions, i = p.toNat) ∧
      (∃ s, siblingsRequiredForMultiProof tree.leaf_count positions = .ok s ∧
        s.elems.map ofLex = Bmt.proofPositions (levelsInTree tree.leaf_count - 1)
          tree.leaf_count.toNat held) ∧
      Fallible.Returns (tree.multiProof positions) ⟨tree.leaf_count, Bmt.proofNodes (nodeHash B)
        (Nat.size (leaves.length - 1)) (bottomLevel B leaves) held⟩ := by
  have hbound : ∀ p ∈ positions, p < tree.leaf_count := by
    intro p hp
    rw [UInt32.lt_iff_toNat_lt, hbuilt.leaf_count]
    exact hlt p hp
  obtain ⟨held, s, hs, hasc, hheld, helems⟩ :=
    siblingsRequiredForMultiProof_eq_ok hne hbound hnodup
  refine ⟨held, hasc, hheld, ⟨s, hs, helems⟩, ?_⟩
  have hheld_lt : ∀ i ∈ held, i < leaves.length := by
    intro i hi
    obtain ⟨p, hp, rfl⟩ := (hheld i).1 hi
    exact hlt p hp
  have hproof := proofAt_eq_some hbuilt hleaves hheld_lt helems
  have hempty : tree.empty = false := by
    rw [hbuilt.empty]
    exact List.isEmpty_eq_false_iff.2 hleaves
  obtain ⟨first, rest, rfl⟩ := List.exists_cons_of_ne_nil hne
  simp only [BmtTree.multiProof, hempty, Bool.false_eq_true, if_false]
  exact Fallible.returns_bind.2
    ⟨s, Fallible.returns_liftExcept.2 hs, Fallible.returns_liftOption.2 hproof⟩

/-- The positions from `start` to `stop`. -/
def rangePositions (start stop : UInt32) : List UInt32 :=
  (List.range' start.toNat (stop.toNat + 1 - start.toNat)).map UInt32.ofNat

theorem exists_mem_rangePositions {start stop : UInt32} {i : ℕ} :
    (∃ p ∈ rangePositions start stop, i = p.toNat) ↔ start.toNat ≤ i ∧ i ≤ stop.toNat := by
  have hlt := stop.toNat_lt
  simp only [rangePositions, List.mem_map, List.mem_range'_1, exists_exists_and_eq_and]
  constructor
  · rintro ⟨j, hj, rfl⟩
    rw [UInt32.toNat_ofNat_of_lt' (by omega : j < 2 ^ 32)]
    omega
  · rintro ⟨hstart, hstop⟩
    exact ⟨i, by omega, (UInt32.toNat_ofNat_of_lt' (by omega : i < 2 ^ 32)).symm⟩

theorem nodup_rangePositions (start stop : UInt32) : (rangePositions start stop).Nodup := by
  have hlt := stop.toNat_lt
  refine List.Nodup.map_on (fun i hi j hj h => ?_) (List.nodup_range' ..)
  rw [List.mem_range'_1] at hi hj
  have h := congrArg UInt32.toNat h
  rwa [UInt32.toNat_ofNat_of_lt' (by omega : i < 2 ^ 32),
    UInt32.toNat_ofNat_of_lt' (by omega : j < 2 ^ 32)] at h

theorem rangePositions_ne_nil {start stop : UInt32} (hle : start ≤ stop) :
    rangePositions start stop ≠ [] := by
  have hle := UInt32.le_iff_toNat_le.1 hle
  obtain ⟨p, hp, -⟩ := exists_mem_rangePositions.2 ⟨le_refl start.toNat, hle⟩
  exact List.ne_nil_of_mem hp

/-- **A range proof is the multi-leaf proof of its positions.** -/
theorem rangeProof_eq_multiProof (hbuilt : Built B leaves tree) (hleaves : leaves ≠ [])
    {start stop : UInt32} (hle : start ≤ stop) (hlt : stop.toNat < leaves.length) {proof : Proof}
    (h : Fallible.Returns (tree.multiProof (rangePositions start stop)) proof) :
    Fallible.Returns (tree.rangeProof start stop) proof := by
  have hle_nat := UInt32.le_iff_toNat_le.1 hle
  have hbound : ∀ p ∈ rangePositions start stop, p.toNat < leaves.length := by
    intro p hp
    have hp := (exists_mem_rangePositions (i := p.toNat)).1 ⟨p, hp, rfl⟩
    omega
  obtain ⟨held, hasc, hheld, -, hmulti⟩ := multiProof_eq hbuilt hleaves
    (rangePositions_ne_nil hle) (nodup_rangePositions start stop) hbound
  obtain rfl := hmulti.unique h
  have hheld : ∀ i, i ∈ held ↔ start.toNat ≤ i ∧ i ≤ stop.toNat := fun i =>
    (hheld i).trans exists_mem_rangePositions
  have hheld_lt : ∀ i ∈ held, i < leaves.length := fun i hi => by
    have hi := (hheld i).1 hi
    omega
  have hcount := hbuilt.leaf_count
  have hzero : tree.leaf_count ≠ 0 := by
    intro hzero
    rw [hzero] at hcount
    have hpos := List.length_pos_iff.2 hleaves
    rw [← hcount] at hpos
    exact absurd hpos (lt_irrefl 0)
  have hstart : ¬ tree.leaf_count ≤ start := by
    rw [UInt32.le_iff_toNat_le, hcount]
    omega
  have hstop : ¬ tree.leaf_count ≤ stop := by
    rw [UInt32.le_iff_toNat_le, hcount]
    omega
  have horder : ¬ stop < start := UInt32.not_lt.2 hle
  have hempty : tree.empty = false := by
    rw [hbuilt.empty]
    exact List.isEmpty_eq_false_iff.2 hleaves
  have hproof := proofAt_eq_some hbuilt hleaves hheld_lt
    (elems_eq_proofPositions (s := addRangeSiblings (levelsInTree tree.leaf_count - 1) 0
      tree.leaf_count.toNat start.toNat stop.toNat ∅) hasc fun x => by
        rw [mem_addRangeSiblings hasc hheld hle_nat (by omega)]
        exact or_iff_right (SortedSet.notMem_empty x))
  have hrequired : siblingsRequiredForRangeProof tree.leaf_count start stop =
      .ok (addRangeSiblings (levelsInTree tree.leaf_count - 1) 0 tree.leaf_count.toNat
        start.toNat stop.toNat ∅) := by
    rw [siblingsRequiredForRangeProof, if_neg hzero, if_neg horder, if_neg hstart, if_neg hstop]
  simp only [BmtTree.rangeProof, hempty, horder, hstart, hstop, Bool.false_eq_true, if_false]
  exact Fallible.returns_bind.2 ⟨_, Fallible.returns_liftExcept.2 hrequired,
    Fallible.returns_liftOption.2 hproof⟩

/-- The leaves of a range, each with its position. -/
theorem rangeElements_eq {start : UInt32} {part : List Hash}
    (hfits : start.toNat + part.length ≤ 2 ^ 32) : rangeElements start part =
      some (part.zipIdx.map fun x => (x.1, UInt32.ofNat (start.toNat + x.2))) := by
  rw [rangeElements, mapM_eq_some_iff (P := fun x : Hash × ℕ => x.2 < 2 ^ 32)
    (v := fun x => (x.1, start + UInt32.ofNat x.2))]
  · refine ⟨fun x hx => ?_, List.map_congr_left fun x hx => ?_⟩
    · have hx := List.snd_lt_of_mem_zipIdx hx
      omega
    · have hx := List.snd_lt_of_mem_zipIdx hx
      rw [Prod.mk.injEq]
      refine ⟨rfl, ?_⟩
      rw [← UInt32.toNat_inj, UInt32.toNat_add,
        UInt32.toNat_ofNat_of_lt' (by omega : start.toNat + x.2 < 2 ^ 32),
        UInt32.toNat_ofNat_of_lt' (by omega : x.2 < 2 ^ 32), Nat.mod_eq_of_lt (by omega)]
  · intro x y
    rw [Option.bind_eq_bind, Option.bind_eq_some_iff]
    constructor
    · rintro ⟨w, hw, hy⟩
      obtain ⟨hx, hwn⟩ := u32Of_eq_some hw
      rw [← hwn, UInt32.ofNat_toNat]
      exact ⟨by omega, (Option.some.inj hy).symm⟩
    · rintro ⟨hx, rfl⟩
      obtain ⟨w, hw, hwn⟩ := u32Of_of_lt hx
      refine ⟨w, hw, ?_⟩
      rw [← hwn, UInt32.ofNat_toNat]

/-- The leaves from `start` to `stop`. -/
def leafRange (leaves : List Hash) (start stop : UInt32) : List Hash :=
  (leaves.drop start.toNat).take (stop.toNat + 1 - start.toNat)

/-- **The leaves of a range rebuild the root** with the proof of its positions. -/
theorem reconstructRangeRoot_complete (hbuilt : Built B leaves tree) (hleaves : leaves ≠ [])
    {start stop : UInt32} (hle : start ≤ stop) (hlt : stop.toNat < leaves.length) {proof : Proof}
    (h : Fallible.Returns (tree.multiProof (rangePositions start stop)) proof) :
    Fallible.Returns (proof.reconstructRangeRoot B start (leafRange leaves start stop))
      tree.root := by
  have hle_nat := UInt32.le_iff_toNat_le.1 hle
  have hstop_lt := stop.toNat_lt
  have hbound : ∀ p ∈ rangePositions start stop, p.toNat < leaves.length := by
    intro p hp
    have hp := (exists_mem_rangePositions (i := p.toNat)).1 ⟨p, hp, rfl⟩
    omega
  obtain ⟨held, hasc, hheld, -, hmulti⟩ := multiProof_eq hbuilt hleaves
    (rangePositions_ne_nil hle) (nodup_rangePositions start stop) hbound
  obtain rfl := hmulti.unique h
  have hlength : (leafRange leaves start stop).length = stop.toNat + 1 - start.toNat := by
    rw [leafRange, List.length_take, List.length_drop]
    omega
  have hget : ∀ i, i < (leafRange leaves start stop).length →
      (leafRange leaves start stop)[i]? = leaves[start.toNat + i]? := by
    intro i hi
    rw [hlength] at hi
    rw [leafRange, List.getElem?_take_of_lt hi, List.getElem?_drop]
  have hnonempty : (leafRange leaves start stop).isEmpty = false := by
    rw [List.isEmpty_eq_false_iff, ← List.length_pos_iff]
    omega
  have hfits : (leafRange leaves start stop).length < 2 ^ 32 := by
    have hcount := tree.leaf_count.toNat_lt
    rw [hbuilt.leaf_count] at hcount
    rw [hlength]
    omega
  obtain ⟨w, hw, hwn⟩ := u32Of_of_lt hfits
  have hone : (w - 1).toNat = stop.toNat - start.toNat := by
    have hw1 : 1 ≤ w := by
      rw [UInt32.le_iff_toNat_le, hwn, hlength]
      change 1 ≤ _
      omega
    rw [UInt32.toNat_sub_of_le _ _ hw1, hwn, hlength]
    change _ - 1 = _
    omega
  have hadd : u32CheckedAdd start (w - 1) = some stop := by
    rw [u32CheckedAdd, hone, if_pos (by omega), Option.some.injEq, ← UInt32.toNat_inj,
      UInt32.toNat_add, hone, Nat.mod_eq_of_lt (by omega)]
    omega
  have hrange : ¬ tree.leaf_count ≤ stop := by
    rw [UInt32.le_iff_toNat_le, hbuilt.leaf_count]
    omega
  have helements := @rangeElements_eq start (leafRange leaves start stop)
    (by omega)
  simp only [Proof.reconstructRangeRoot, hnonempty, Bool.false_and, Bool.false_eq_true, if_false,
    Bool.not_false, if_true, Fallible.returns_bind, Fallible.returns_liftOption]
  refine ⟨w, hw, ?_⟩
  rw [hadd]
  dsimp only
  rw [if_neg hrange]
  refine Fallible.returns_bind.2 ⟨_, Fallible.returns_liftOption.2 helements,
    Fallible.returns_liftExcept.2 ?_⟩
  have hposition : ∀ i, i < (leafRange leaves start stop).length →
      (UInt32.ofNat (start.toNat + i)).toNat = start.toNat + i := fun i hi =>
    UInt32.toNat_ofNat_of_lt' (by omega : start.toNat + i < 2 ^ 32)
  have hpositions : ((leafRange leaves start stop).zipIdx.map fun x =>
      (x.1, UInt32.ofNat (start.toNat + x.2))).map Prod.snd = rangePositions start stop := by
    rw [rangePositions, ← hlength, List.range'_eq_map_range, List.range_eq_range',
      ← List.zipIdx_map_snd 0 (leafRange leaves start stop)]
    simp only [List.map_map]
    rfl
  refine reconstructMultiRoot_complete hbuilt hleaves ?_ ?_ (fun x hx => ?_) hasc fun i => ?_
  · rw [ne_eq, List.map_eq_nil_iff, List.zipIdx_eq_nil_iff]
    exact List.isEmpty_eq_false_iff.1 hnonempty
  · rw [hpositions]
    exact nodup_rangePositions start stop
  · obtain ⟨⟨leaf, i⟩, hi, rfl⟩ := List.mem_map.1 hx
    rw [List.mem_zipIdx_iff_getElem?] at hi
    have hi_lt := (List.getElem?_eq_some_iff.1 hi).1
    dsimp only
    rw [hposition i hi_lt, ← hget i hi_lt]
    exact hi
  · rw [hheld i, ← hpositions]
    simp only [List.mem_map, exists_exists_and_eq_and]

/-- The proof depends on the positions, not on their order. -/
theorem multiProof_of_perm (hbuilt : Built B leaves tree) (hleaves : leaves ≠ [])
    {positions' : List UInt32} (hperm : positions.Perm positions')
    (hne : positions ≠ []) (hnodup : positions.Nodup)
    (hlt : ∀ p ∈ positions, p.toNat < leaves.length) {proof : Proof}
    (h : Fallible.Returns (tree.multiProof positions) proof) :
    Fallible.Returns (tree.multiProof positions') proof := by
  have hne' : positions' ≠ [] := by
    rintro rfl
    exact hne hperm.eq_nil
  obtain ⟨held, hasc, hheld, -, hmulti⟩ := multiProof_eq hbuilt hleaves hne hnodup hlt
  obtain ⟨held', hasc', hheld', -, hmulti'⟩ := multiProof_eq hbuilt hleaves hne'
    (hperm.nodup_iff.1 hnodup) fun p hp => hlt p (hperm.mem_iff.2 hp)
  obtain rfl := hmulti.unique h
  obtain rfl : held = held' := SortedSet.list_eq_of_mem hasc hasc' fun i => by
    rw [hheld, hheld']
    simp only [hperm.mem_iff]
  exact hmulti'

/-- **Proofs of several leaves are complete.** Every set of positions of a tree has a proof, with
which the true leaves, in any order, rebuild the root; a range has the proof of its positions, in
any order, and its leaves rebuild the root. -/
theorem multi_proof_complete (B : Blake3) (leaves : List Hash) (hleaves : leaves ≠ [])
    (hlen : leaves.length < 2 ^ 32) : ∃ tree, buildBmt B leaves = some tree ∧
      (∀ positions : List UInt32, positions ≠ [] → positions.Nodup →
        (∀ p ∈ positions, p.toNat < leaves.length) →
        ∃ proof, Fallible.Returns (tree.multiProof positions) proof ∧
          ∀ elements : List (Hash × UInt32), (elements.map Prod.snd).Perm positions →
            (∀ x ∈ elements, leaves[x.2.toNat]? = some x.1) →
            proof.reconstructMultiRoot B elements = .ok tree.root) ∧
      ∀ start stop : UInt32, start ≤ stop → stop.toNat < leaves.length →
        ∃ proof, Fallible.Returns (tree.rangeProof start stop) proof ∧
          (∀ positions : List UInt32, positions.Perm (rangePositions start stop) →
            Fallible.Returns (tree.multiProof positions) proof) ∧
          Fallible.Returns (proof.reconstructRangeRoot B start (leafRange leaves start stop))
            tree.root := by
  obtain ⟨tree, htree, hbuilt⟩ := exists_built (B := B) hlen
  refine ⟨tree, htree, ?_, ?_⟩
  · intro positions hne hnodup hlt
    obtain ⟨held, hasc, hheld, -, hproof⟩ := multiProof_eq hbuilt hleaves hne hnodup hlt
    refine ⟨_, hproof, fun elements hperm htrue => ?_⟩
    refine reconstructMultiRoot_complete hbuilt hleaves ?_ (hperm.nodup_iff.2 hnodup) htrue hasc
      fun i => ?_
    · rintro rfl
      exact hne hperm.nil_eq.symm
    · rw [hheld]
      simp only [← hperm.mem_iff, List.mem_map, exists_exists_and_eq_and]
  · intro start stop hle hlt
    have hne := rangePositions_ne_nil hle
    have hnodup := nodup_rangePositions start stop
    have hbound : ∀ p ∈ rangePositions start stop, p.toNat < leaves.length := by
      intro p hp
      have hp := (exists_mem_rangePositions (i := p.toNat)).1 ⟨p, hp, rfl⟩
      omega
    obtain ⟨held, -, -, -, hproof⟩ := multiProof_eq hbuilt hleaves hne hnodup hbound
    exact ⟨_, rangeProof_eq_multiProof hbuilt hleaves hle hlt hproof,
      fun positions hperm => multiProof_of_perm hbuilt hleaves hperm.symm hne hnodup hbound hproof,
      reconstructRangeRoot_complete hbuilt hleaves hle hlt hproof⟩

/-- Seven leaves, so that every level but the top one is odd. -/
theorem multi_proof_complete_sample :
    ∃ tree, buildBmt toyBlake3 ((List.range 7).map fun i => ByteArr.fill 32 (UInt8.ofNat i)) =
        some tree ∧
      ∃ proof, Fallible.Returns (tree.multiProof [5, 0, 6]) proof ∧
        proof.reconstructMultiRoot toyBlake3
          [(ByteArr.fill 32 6, 6), (ByteArr.fill 32 5, 5), (ByteArr.fill 32 0, 0)] =
            .ok tree.root := by
  obtain ⟨tree, htree, hmulti, -⟩ := multi_proof_complete toyBlake3
    ((List.range 7).map fun i => ByteArr.fill 32 (UInt8.ofNat i)) (by decide) (by decide)
  have hlt : ∀ p ∈ ([5, 0, 6] : List UInt32), p.toNat <
      ((List.range 7).map fun i => ByteArr.fill 32 (UInt8.ofNat i)).length := by
    simp only [List.mem_cons, List.not_mem_nil, or_false]
    rintro p (rfl | rfl | rfl) <;> decide
  obtain ⟨proof, hproof, hroot⟩ := hmulti [5, 0, 6] (by decide) (by decide) hlt
  exact ⟨tree, htree, proof, hproof, hroot _ (by decide) (by decide)⟩

/-! ### Reading back what was written -/

/-- What a predicted prefix size is the length of. -/
theorem length_leb128 (n : ℕ) : (leb128 n).length = prefixSize n := by
  fun_induction leb128 n with
  | case1 n h => rw [prefixSize, if_pos h, List.length_singleton]
  | case2 n h ih =>
    rw [prefixSize, if_neg h, List.length_cons, ih]
    exact Nat.add_comm _ _

theorem length_encode (C : LengthCodec) {p : Proof} (h : p.siblings.length < 2 ^ 32) :
    (p.encode C).length = 4 + prefixSize p.siblings.length + p.siblings.length * 32 := by
  have hdigests : (p.siblings.flatMap ByteArr.bytes).length = p.siblings.length * 32 := by
    rw [List.length_flatMap, List.map_congr_left fun d _ => d.length_bytes, List.map_const',
      List.sum_replicate_nat]
    rfl
  rw [Proof.encode, List.length_append, List.length_append, Wire.length_beBytes, C.write_eq _ h,
    length_leb128, hdigests, Nat.add_assoc]

/-- A number of siblings within the cap is read back. -/
theorem read_encode (C : LengthCodec) {p : Proof} (h : p.siblings.length < 2 ^ 32)
    {max_items : ℕ} (hcap : p.siblings.length ≤ max_items * MAX_LEVELS) (rest : Bytes) :
    Proof.read C max_items (p.encode C ++ rest) = .ok (p, rest) := by
  have hcount : Wire.take MerkleError.malformedProof 4 (p.encode C ++ rest) =
      .ok (Wire.beBytes 4 p.leaf_count.toNat,
        leb128 p.siblings.length ++ (p.siblings.flatMap ByteArr.bytes ++ rest)) := by
    refine (Wire.Parses.take _ 4 _ _ _).2 ⟨_, ⟨rfl, Wire.length_beBytes 4 _⟩, ?_⟩
    rw [Proof.encode, C.write_eq _ h]
    simp only [List.append_assoc]
  have hdigests : Wire.repeatWith
      (fun _ : List Hash => ByteArr.read MerkleError.malformedProof HASH_LEN) p.siblings.length []
      (p.siblings.flatMap ByteArr.bytes ++ rest) = .ok (p.siblings, rest) := by
    have hparses := @Wire.Parses.repeatWith MerkleError Hash _ (fun _ _ => True) _
      (fun _ : List Hash => (ByteArr.parses_read MerkleError.malformedProof HASH_LEN).congr
        fun a bs => (iff_of_eq (true_and _)).symm) p.siblings.length []
    refine (hparses _ _ _).2 ⟨_, ⟨p.siblings, rfl, rfl, Wire.admits_true _ _,
      Wire.encodes_flatMap.2 rfl⟩, rfl⟩
  have hcap : ¬ min (max_items * MAX_LEVELS) (2 ^ 64 - 1) < p.siblings.length := by
    omega
  have hleaf : UInt32.ofNat (Wire.ofLeBytes (Wire.beBytes 4 p.leaf_count.toNat).reverse) =
      p.leaf_count := by
    have hmod : p.leaf_count.toNat % 256 ^ 4 = p.leaf_count.toNat :=
      Nat.mod_eq_of_lt p.leaf_count.toNat_lt
    rw [Wire.beBytes, List.reverse_reverse, Wire.ofLeBytes_leBytes, hmod, UInt32.ofNat_toNat]
  rw [Proof.read, Wire.parser_bind_eq_ok]
  refine ⟨_, _, hcount, Wire.parser_bind_eq_ok.2 ⟨_, _, C.read_write _ h _, ?_⟩⟩
  rw [if_neg hcap]
  refine Wire.parser_bind_eq_ok.2 ⟨_, _, hdigests, ?_⟩
  rw [hleaf]
  rfl

/-- As many nodes are held as there are positions. -/
theorem length_held {held : List ℕ} (hasc : held.Pairwise (· < ·))
    (hnodup : positions.Nodup) (hheld : ∀ i, i ∈ held ↔ ∃ p ∈ positions, i = p.toNat) :
    held.length = positions.length := by
  have hperm : held.Perm (positions.map UInt32.toNat) := by
    refine (List.perm_ext_iff_of_nodup (hasc.imp fun h => ne_of_lt h)
      (hnodup.map fun _ _ h => UInt32.toNat_inj.1 h)).2 fun i => ?_
    rw [hheld, List.mem_map]
    exact exists_congr fun p => and_congr_right fun _ => eq_comm
  rw [hperm.length_eq, List.length_map]

/-- **The predicted size is the real one, and the cap of the decoder admits every honest proof.** -/
theorem proof_encoding_exact (B : Blake3) (C : LengthCodec) (n : UInt32) (leaves : List Hash)
    (hlen : leaves.length = n.toNat) (hn : 1 ≤ n) (positions : List UInt32)
    (hne : positions ≠ []) (hnodup : positions.Nodup) (hlt : ∀ p ∈ positions, p < n) :
    ∃ tree proof, buildBmt B leaves = some tree ∧
      Fallible.Returns (tree.multiProof positions) proof ∧
      proofEncodedSize n positions = .ok (proof.encode C).length ∧
      proof.siblings.length ≤ positions.length * 32 ∧
      Proof.decode C (proof.encode C) positions.length = .ok proof := by
  have hn_lt := n.toNat_lt
  have hn_pos : 1 ≤ n.toNat := UInt32.le_iff_toNat_le.1 hn
  have hleaves : leaves ≠ [] := by
    rw [← List.length_pos_iff]
    omega
  obtain ⟨tree, htree, hbuilt⟩ := @exists_built B leaves (by omega)
  obtain rfl : tree.leaf_count = n := by
    rw [← UInt32.toNat_inj, hbuilt.leaf_count, hlen]
  have hbound : ∀ p ∈ positions, p.toNat < leaves.length := by
    intro p hp
    rw [hlen]
    exact UInt32.lt_iff_toNat_lt.1 (hlt p hp)
  obtain ⟨held, hasc, hheld, ⟨s, hs, helems⟩, hproof⟩ :=
    multiProof_eq hbuilt hleaves hne hnodup hbound
  have hlength := length_bottomLevel_of_ne_nil (B := B) hleaves
  have hheld_lt : ∀ i ∈ held, i < (bottomLevel B leaves).length := by
    intro i hi
    obtain ⟨p, hp, rfl⟩ := (hheld i).1 hi
    rw [hlength]
    exact hbound p hp
  have hlt_leaves := Bmt.length_proofNodes_lt (f := nodeHash B) hasc hheld_lt
    (by rw [← List.length_pos_iff, hlength]; exact List.length_pos_iff.2 hleaves)
  rw [hlength] at hlt_leaves
  have hle := Bmt.length_proofNodes_le (nodeHash B) (Nat.size (leaves.length - 1))
    (bottomLevel B leaves) held
  have hrounds : Nat.size (leaves.length - 1) ≤ 32 := Nat.size_le.2 (by omega)
  rw [length_held hasc hnodup hheld] at hle
  have hcap := hle.trans (Nat.mul_le_mul_left positions.length hrounds)
  have hfits : (Bmt.proofNodes (nodeHash B) (Nat.size (leaves.length - 1)) (bottomLevel B leaves)
      held).length < 2 ^ 32 := by omega
  refine ⟨tree, _, htree, hproof, ?_, hcap, ?_⟩
  · have hsize : s.size = (Bmt.proofNodes (nodeHash B) (Nat.size (leaves.length - 1))
        (bottomLevel B leaves) held).length := by
      have hnodes := Bmt.nodesAt_proofPositions (f := nodeHash B) hheld_lt
      have hcount := congrArg List.length helems
      rw [hlength] at hnodes
      rw [List.length_map, levelsInTree, Nat.add_sub_cancel, ← hlen] at hcount
      rw [SortedSet.size, hcount, Bmt.length_nodesAt hnodes]
    rw [length_encode C hfits, proofEncodedSize, hs, ← hsize]
    rfl
  · rw [Proof.decode]
    refine Wire.bind_eq_ok.2 ⟨(_, []), ?_, rfl⟩
    have hread := read_encode C (p := ⟨tree.leaf_count, _⟩) hfits hcap []
    rwa [List.append_nil] at hread

/-- The two odd leaves of a tree of five. -/
theorem proof_encoding_exact_sample :
    ∃ tree proof, buildBmt toyBlake3 (List.replicate 5 ZERO) = some tree ∧
      Fallible.Returns (tree.multiProof [1, 3]) proof ∧
      proofEncodedSize 5 [1, 3] = .ok (proof.encode leb128Codec).length ∧
      proof.siblings.length ≤ 2 * 32 ∧
      Proof.decode leb128Codec (proof.encode leb128Codec) 2 = .ok proof :=
  proof_encoding_exact toyBlake3 leb128Codec 5 (List.replicate 5 ZERO) rfl (by decide) [1, 3]
    (by decide) (by decide) (by simp)

end Building

end Mkit
