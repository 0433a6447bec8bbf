import Mkit.ContentCommitment
import Mkit.Lib.Words
import Mkit.WindowTree

/-!
# Part Uploads

A pack of more than `part_size` bytes is uploaded in parts (`upload_parts.rs`): every part but
the last is `part_size` bytes, a power of two. Each part is hashed by itself, as a subtree at its
offset, and the chaining values are merged by the left-balanced tree rule.

`none` is a panic: a machine integer that would wrap, or a chaining value that is not there. The
functions of the hash are the library's; what it documents of them is `Hazmat.Standard`.

## Main results

* `split_spec` — a range of parts splits strictly inside and on a part boundary.
* `parts_hash_pack` — the parts make up the pack, and their merged chaining values are its hash.
-/

namespace Mkit.UploadParts

open LeftBalanced Words Fallible
open Pack (CHUNK_LOG)
open WriteAuth (PartCommitment)

/-- Smallest legal part size. -/
def MIN_PART_SIZE : UInt64 := 8 * 1024 * 1024

/-- A part geometry or part stream that violates the specification. -/
inductive PartError where
  | partSizeNotPowerOfTwo
  | partSizeTooSmall
  | notMultipart
  | tooManyParts
  | indexOutOfRange
  | overrun
  | lengthMismatch
  | wrongPartCount
deriving DecidableEq

/-- The functions of the hash on subtrees. -/
structure Hazmat where
  Hasher : Type
  new : Hasher
  set_input_offset : Hasher → UInt64 → Hasher
  update : Hasher → Bytes → Hasher
  finalize_non_root : Hasher → Hash
  left_subtree_len : UInt64 → UInt64
  merge_subtrees_non_root : Hash → Hash → Hash
  merge_subtrees_root : Hash → Hash → Hash

/-- The functions compute the tree hash `T`, within the limits they are documented to have. -/
structure Hazmat.Standard (Z : Hazmat) (B : Blake3) (T : TreeHash UInt8 Hash) : Prop where
  chunkLog_eq : T.chunkLog = CHUNK_LOG
  hash_eq : ∀ input, B.hash input = T.whole input
  /-- Offsets are multiples of the chunk length, an input is not empty, and away from offset 0
  it is no longer than the power of two its offset is a multiple of. -/
  finalize_non_root_eq : ∀ (offset : UInt64) (pieces : List Bytes),
    2 ^ CHUNK_LOG ∣ offset.toNat → pieces.flatten ≠ [] →
    (offset.toNat = 0 ∨ ∃ s, 2 ^ s ∣ offset.toNat ∧ pieces.flatten.length ≤ 2 ^ s) →
    Z.finalize_non_root (pieces.foldl Z.update (Z.set_input_offset Z.new offset)) =
      T.subtree offset.toNat pieces.flatten
  merge_subtrees_non_root_eq : Z.merge_subtrees_non_root = T.node
  merge_subtrees_root_eq : Z.merge_subtrees_root = T.rootNode
  /-- Inputs longer than a chunk have a left subtree; the successor of a length must fit. -/
  left_subtree_len_eq : ∀ n : UInt64, 2 ^ CHUNK_LOG < n.toNat → n.toNat + 1 < 2 ^ 64 →
    (Z.left_subtree_len n).toNat = leftLen n.toNat

/-- Validated part geometry for one multi-part upload. -/
structure PartPlan where
  total : UInt64
  partSize : UInt64
  count : UInt32
deriving DecidableEq

namespace PartPlan

/-- Count the parts. -/
def build (total partSize : UInt64) (maxParts : UInt32) : Except PartError PartPlan := do
  refuseIf (total ≤ partSize) .notMultipart
  let count ← okOr .tooManyParts (tryU32 (divCeil total partSize))
  refuseIf (maxParts < count) .tooManyParts
  let _ ← okOr .tooManyParts (checkedMul count.toUInt64 partSize)
  .ok ⟨total, partSize, count⟩

/-- Validate the geometry of a `total`-byte pack split into `partSize` parts. -/
def new (total partSize : UInt64) (maxParts : UInt32) : Except PartError PartPlan := do
  refuseIf (¬ partSize.toNat.isPowerOfTwo) .partSizeNotPowerOfTwo
  refuseIf (partSize < MIN_PART_SIZE) .partSizeTooSmall
  build total partSize maxParts

variable (plan : PartPlan)

/-- Byte offset of part `index` in the pack. -/
def offset (index : UInt32) : Except PartError UInt64 := do
  refuseIf (plan.count ≤ index) .indexOutOfRange
  okOr .indexOutOfRange (checkedMul index.toUInt64 plan.partSize)

/-- Byte count of part `index`. -/
def expectedLen (index : UInt32) : ExceptT PartError Option UInt64 := do
  let offset ← liftM (plan.offset index)
  let rest ← liftM (checkedSub plan.total offset)
  pure (min rest plan.partSize)

/-- Check a `part:` commitment against this plan. -/
def check (commitment : PartCommitment) : ExceptT PartError Option Unit := do
  let len ← plan.expectedLen commitment.index
  if commitment.len = len then pure () else throw .lengthMismatch

/-- Byte count of the parts `lo..hi`. -/
def rangeLen (lo hi : UInt32) : Option UInt64 := do
  let stop ← checkedMul hi.toUInt64 plan.partSize
  let start ← checkedMul lo.toUInt64 plan.partSize
  checkedSub (min stop plan.total) start

end PartPlan

section

variable (Z : Hazmat)

/-- Streams one part's bytes into its subtree chaining value. -/
structure PartHasher where
  hasher : Z.Hasher
  expected : UInt64
  seen : UInt64

/-- Absorb the next bytes of the part. -/
def PartHasher.update {Z : Hazmat} (h : PartHasher Z) (data : Bytes) :
    ExceptT PartError Option (PartHasher Z) := do
  if 2 ^ 64 ≤ data.length then throw .overrun
  let len := UInt64.ofNat data.length
  let room ← liftM (checkedSub h.expected h.seen)
  if room < len then throw .overrun
  let seen ← liftM (checkedAdd h.seen len)
  pure { h with hasher := Z.update h.hasher data, seen }

/-- Finish the part. -/
def PartHasher.finalize {Z : Hazmat} (h : PartHasher Z) : Except PartError Hash :=
  if h.seen ≠ h.expected then .error .lengthMismatch else .ok (Z.finalize_non_root h.hasher)

/-- Start hashing part `index` of `plan`. -/
def PartHasher.new (plan : PartPlan) (index : UInt32) :
    ExceptT PartError Option (PartHasher Z) := do
  let offset ← liftM (plan.offset index)
  let expected ← plan.expectedLen index
  pure ⟨Z.set_input_offset Z.new offset, expected, 0⟩

/-- Hash part `index` in any number of `update` calls. -/
def hashPart (plan : PartPlan) (index : UInt32) (pieces : List Bytes) :
    ExceptT PartError Option Hash := do
  let h ← PartHasher.new Z plan index
  let h ← pieces.foldlM PartHasher.update h
  liftM h.finalize

/-- The first part of the right subtree of parts `lo..hi`. -/
def split (plan : PartPlan) (lo hi : UInt32) : Option UInt32 := do
  let len ← plan.rangeLen lo hi
  let leftParts := Z.left_subtree_len len / plan.partSize
  let between ← checkedSub32 hi lo
  let fallback ← checkedSub32 between 1
  checkedAdd32 lo ((tryU32 leftParts).getD fallback)

/-- Merge the chaining values of the parts `lo..hi`. The fuel bounds the depth of the
recursion. -/
def mergeRange (plan : PartPlan) (cvs : List Hash) : ℕ → UInt32 → UInt32 → Option Hash
  | 0, _, _ => none
  | fuel + 1, lo, hi => do
    let between ← checkedSub32 hi lo
    if between = 1 then cvs[lo.toNat]?
    else
      let mid ← split Z plan lo hi
      let left ← mergeRange plan cvs fuel lo mid
      let right ← mergeRange plan cvs fuel mid hi
      some (Z.merge_subtrees_non_root left right)

/-- Merge the part chaining values, in index order, into the root hash. -/
def mergeToRoot (plan : PartPlan) (cvs : List Hash) : ExceptT PartError Option Hash := do
  if cvs.length ≠ plan.count.toNat then throw .wrongPartCount
  let mid ← liftM (split Z plan 0 plan.count)
  let left ← liftM (mergeRange Z plan cvs plan.count.toNat 0 mid)
  let right ← liftM (mergeRange Z plan cvs plan.count.toNat mid plan.count)
  pure (Z.merge_subtrees_root left right)

end

/-! ### Geometry -/

/-- What holds of an accepted geometry: parts of `2 ^ s` bytes whose end fits the offsets. -/
structure PartPlan.Fits (plan : PartPlan) (s : ℕ) : Prop where
  partSize_eq : plan.partSize.toNat = 2 ^ s
  chunk_le : CHUNK_LOG ≤ s
  two_le : 2 ≤ plan.count.toNat
  lt_total : (plan.count.toNat - 1) * 2 ^ s < plan.total.toNat
  total_le : plan.total.toNat ≤ plan.count.toNat * 2 ^ s
  fits : plan.count.toNat * 2 ^ s < 2 ^ 64

namespace PartPlan

/-- An accepted geometry. -/
theorem fits_of_new {total partSize : UInt64} {maxParts : UInt32} {plan : PartPlan}
    (h : PartPlan.new total partSize maxParts = .ok plan) :
    plan.total = total ∧ ∃ s, plan.Fits s := by
  obtain ⟨hpow, h⟩ := refuseIf_bind_eq_ok.1 h
  obtain ⟨hmin, h⟩ := refuseIf_bind_eq_ok.1 h
  obtain ⟨htotal, h⟩ := refuseIf_bind_eq_ok.1 h
  obtain ⟨count, hcount, h⟩ := Wire.bind_eq_ok.1 h
  obtain ⟨-, h⟩ := refuseIf_bind_eq_ok.1 h
  obtain ⟨bound, hbound, h⟩ := Wire.bind_eq_ok.1 h
  obtain rfl := Except.ok.inj h
  obtain ⟨s, hs⟩ := not_not.1 hpow
  rw [UInt64.not_lt, UInt64.le_iff_toNat_le, hs, show MIN_PART_SIZE.toNat = 2 ^ 23 from rfl] at hmin
  rw [UInt64.le_iff_toNat_le, not_le, hs] at htotal
  have hpos := Nat.two_pow_pos s
  obtain ⟨hlt, hle, -⟩ := divCeil_spec (a := total) (b := partSize) (by omega) (by omega)
  rw [okOr_eq_ok, tryU32_eq_some] at hcount
  rw [okOr_eq_ok, checkedMul_eq_some, UInt32.toNat_toUInt64, hs] at hbound
  rw [← hcount, hs] at hlt hle
  refine ⟨rfl, s, hs, ?_, ?_, hlt, hle, hbound ▸ bound.toNat_lt⟩
  · have := (Nat.pow_le_pow_iff_right (by decide)).1 hmin
    rw [CHUNK_LOG]
    omega
  · -- one part would not cover the total
    change 2 ≤ count.toNat
    by_contra hone
    have := Nat.mul_le_mul_right (2 ^ s) (show count.toNat ≤ 1 by omega)
    omega

variable {plan : PartPlan} {s : ℕ}

/-- There is room for the successor of every length. -/
theorem Fits.succ_lt (h : plan.Fits s) : plan.count.toNat * 2 ^ s + 1 < 2 ^ 64 := by
  have hlt : s < 64 := by
    by_contra hge
    have := Nat.pow_le_pow_right (n := 2) (by decide) (not_lt.1 hge)
    have := plan.partSize.toNat_lt
    have := h.partSize_eq
    omega
  have hsplit : 2 ^ 64 = 2 ^ (64 - s) * 2 ^ s := by
    rw [← pow_add, Nat.sub_add_cancel hlt.le]
  have hcount : plan.count.toNat + 1 ≤ 2 ^ (64 - s) := by
    have := h.fits
    rw [hsplit] at this
    exact Nat.lt_of_mul_lt_mul_right this
  have hroom := Nat.mul_le_mul_right (2 ^ s) hcount
  have hchunk := Nat.pow_le_pow_right (n := 2) (by decide) h.chunk_le
  rw [← hsplit, Nat.add_mul, Nat.one_mul] at hroom
  rw [CHUNK_LOG] at hchunk
  omega

/-- Where the parts before `index` end. -/
theorem Fits.start_lt (h : plan.Fits s) (index : ℕ) (hindex : index < plan.count.toNat) :
    index * 2 ^ s < plan.total.toNat :=
  lt_of_le_of_lt (Nat.mul_le_mul_right _ (Nat.le_sub_one_of_lt hindex)) h.lt_total

/-- Ends of parts fit the offsets. -/
theorem Fits.exists_checkedMul (h : plan.Fits s) (index : UInt32)
    (hindex : index.toNat ≤ plan.count.toNat) :
    ∃ o, checkedMul index.toUInt64 plan.partSize = some o ∧ o.toNat = index.toNat * 2 ^ s := by
  have hle := Nat.mul_le_mul_right (2 ^ s) hindex
  have hfits := h.fits
  have ho : (UInt64.ofNat (index.toNat * 2 ^ s)).toNat = index.toNat * 2 ^ s := by
    rw [UInt64.toNat_ofNat', Nat.mod_eq_of_lt (by omega)]
  refine ⟨UInt64.ofNat (index.toNat * 2 ^ s), ?_, ho⟩
  rw [checkedMul_eq_some, UInt32.toNat_toUInt64, h.partSize_eq, ho]

/-- The offset of a part. -/
theorem Fits.offset_eq (h : plan.Fits s) {index : UInt32} (hindex : index < plan.count) :
    ∃ o, plan.offset index = .ok o ∧ o.toNat = index.toNat * 2 ^ s := by
  obtain ⟨o, hmul, ho⟩ := h.exists_checkedMul index (UInt32.lt_iff_toNat_lt.1 hindex).le
  refine ⟨o, ?_, ho⟩
  rw [offset, refuseIf_bind_eq_ok, okOr_eq_ok]
  exact ⟨UInt32.not_le.2 hindex, hmul⟩

/-- The length of a part. -/
theorem Fits.expectedLen_eq (h : plan.Fits s) {index : UInt32} (hindex : index < plan.count) :
    ∃ len, Returns (plan.expectedLen index) len ∧
      len.toNat = min (plan.total.toNat - index.toNat * 2 ^ s) (2 ^ s) := by
  obtain ⟨o, hoffset, ho⟩ := h.offset_eq hindex
  have hlt := h.start_lt _ (UInt32.lt_iff_toNat_lt.1 hindex)
  have hle : o ≤ plan.total := UInt64.le_iff_toNat_le.2 (by omega)
  have hsub := UInt64.toNat_sub_of_le _ _ hle
  refine ⟨min (plan.total - o) plan.partSize, ?_, ?_⟩
  · simp only [expectedLen, returns_bind, returns_liftExcept, returns_liftOption, returns_pure]
    exact ⟨o, hoffset, plan.total - o, checkedSub_eq_some.2 (by omega), rfl⟩
  · rw [UInt64.toNat_min, hsub, ho, h.partSize_eq]

/-- The length of a range of parts. -/
theorem Fits.rangeLen_eq (h : plan.Fits s) (lo hi : UInt32) (hlt : lo < hi)
    (hhi : hi ≤ plan.count) : ∃ len, plan.rangeLen lo hi = some len ∧
      len.toNat = min (hi.toNat * 2 ^ s) plan.total.toNat - lo.toNat * 2 ^ s := by
  rw [UInt32.lt_iff_toNat_lt] at hlt
  rw [UInt32.le_iff_toNat_le] at hhi
  obtain ⟨stop, hstop, hstop'⟩ := h.exists_checkedMul hi hhi
  obtain ⟨start, hstart, hstart'⟩ := h.exists_checkedMul lo (by omega)
  have htotal := h.start_lt lo.toNat (by omega)
  have hmul := Nat.mul_le_mul_right (2 ^ s) hlt.le
  have hle : start ≤ min stop plan.total := by
    rw [UInt64.le_iff_toNat_le, UInt64.toNat_min]
    omega
  have hsub := UInt64.toNat_sub_of_le _ _ hle
  refine ⟨min stop plan.total - start, ?_, by rw [hsub, UInt64.toNat_min, hstop', hstart']⟩
  simp only [rangeLen, hstop, hstart, Option.bind_eq_bind, Option.bind_some]
  rw [checkedSub_eq_some]
  have hle := UInt64.le_iff_toNat_le.1 hle
  omega

end PartPlan

variable {Z : Hazmat} {B : Blake3} {T : TreeHash UInt8 Hash} {plan : PartPlan} {s : ℕ}
  {bytes : Bytes}

/-- A range of two parts at least splits strictly inside, where its left subtree ends; the
quotient is converted without the fallback. -/
theorem split_spec (hZ : Z.Standard B T) (h : plan.Fits s) (lo hi : UInt32)
    (hlt : lo.toNat + 2 ≤ hi.toNat) (hhi : hi ≤ plan.count) :
    ∃ (len : UInt64) (left mid : UInt32), plan.rangeLen lo hi = some len ∧
      tryU32 (Z.left_subtree_len len / plan.partSize) = some left ∧
      split Z plan lo hi = some mid ∧ mid.toNat = lo.toNat + left.toNat ∧
      lo < mid ∧ mid < hi ∧ 2 ^ s < len.toNat ∧
      (mid.toNat - lo.toNat) * 2 ^ s = leftLen len.toNat := by
  obtain ⟨len, hlen, hlen'⟩ := h.rangeLen_eq lo hi (UInt32.lt_iff_toNat_lt.2 (by omega)) hhi
  rw [UInt32.le_iff_toNat_le] at hhi
  have hpos := Nat.two_pow_pos s
  have hchunk := Nat.pow_le_pow_right (n := 2) (by decide) h.chunk_le
  have htotal := h.start_lt (hi.toNat - 1) (by omega)
  have hlow : (hi.toNat - 1) * 2 ^ s + 2 ^ s = hi.toNat * 2 ^ s := by
    rw [← Nat.succ_mul]
    congr 1
    omega
  have hstart := Nat.mul_le_mul_right (2 ^ s) (show lo.toNat + 1 ≤ hi.toNat - 1 by omega)
  rw [Nat.add_mul, Nat.one_mul] at hstart
  have hlong : 2 ^ s < len.toNat := by omega
  have hwide : len.toNat ≤ (hi.toNat - lo.toNat) * 2 ^ s := by
    rw [Nat.sub_mul]
    omega
  have hsucc := h.succ_lt
  have htop := h.total_le
  have hleft := hZ.left_subtree_len_eq len (by omega) (by omega)
  obtain ⟨m, hm⟩ := two_pow_dvd_leftLen hlong
  have hquot : (Z.left_subtree_len len / plan.partSize).toNat = m := by
    rw [UInt64.toNat_div, hleft, h.partSize_eq, hm, Nat.mul_div_cancel_left m hpos]
  have hmpos : 0 < m := Nat.pos_of_mul_pos_left (hm ▸ leftLen_pos len.toNat)
  have hmlt : m < hi.toNat - lo.toNat := by
    have := leftLen_lt (n := len.toNat) (by omega)
    rw [hm, Nat.mul_comm] at this
    exact Nat.lt_of_mul_lt_mul_right (this.trans_le hwide)
  have hhi32 := hi.toNat_lt
  have hm32 : (UInt32.ofNat m).toNat = m := by
    rw [UInt32.toNat_ofNat', Nat.mod_eq_of_lt (by omega)]
  have hmid : (UInt32.ofNat (lo.toNat + m)).toNat = lo.toNat + m := by
    rw [UInt32.toNat_ofNat', Nat.mod_eq_of_lt (by omega)]
  have htry : tryU32 (Z.left_subtree_len len / plan.partSize) = some (UInt32.ofNat m) :=
    tryU32_eq_some.2 (hm32.trans hquot.symm)
  have hle : lo ≤ hi := UInt32.le_iff_toNat_le.2 (by omega)
  have hone : 1 ≤ hi - lo := by
    rw [UInt32.le_iff_toNat_le, UInt32.toNat_sub_of_le _ _ hle, UInt32.toNat_one]
    omega
  refine ⟨len, UInt32.ofNat m, UInt32.ofNat (lo.toNat + m), hlen, htry, ?_, by rw [hmid, hm32],
    UInt32.lt_iff_toNat_lt.2 (by omega), UInt32.lt_iff_toNat_lt.2 (by omega), hlong, ?_⟩
  · simp only [split, hlen, Option.bind_eq_bind, Option.bind_some, htry, Option.getD_some,
      checkedSub32_of_le hle, checkedSub32_of_le hone]
    exact checkedAdd32_eq_some.2 (by omega)
  · rw [hmid, Nat.add_sub_cancel_left, hm, Nat.mul_comm]

/-! ### Merging -/

/-- The chaining values of the parts merge to the subtree over the range. -/
theorem mergeRange_eq (hZ : Z.Standard B T) (h : plan.Fits s)
    (hbytes : bytes.length = plan.total.toNat) {cvs : List Hash}
    (hcvs : ∀ i < plan.count.toNat, cvs[i]? = some (T.pieces bytes s i (i + 1))) (fuel : ℕ)
    {lo hi : UInt32} (hlt : lo < hi) (hhi : hi ≤ plan.count) (hfuel : hi.toNat - lo.toNat ≤ fuel) :
    mergeRange Z plan cvs fuel lo hi = some (T.pieces bytes s lo.toNat hi.toNat) := by
  induction fuel generalizing lo hi with
  | zero =>
    rw [UInt32.lt_iff_toNat_lt] at hlt
    omega
  | succ fuel ih =>
    have hlt' := UInt32.lt_iff_toNat_lt.1 hlt
    have hhi' := UInt32.le_iff_toNat_le.1 hhi
    have hsub := UInt32.toNat_sub_of_le _ _ (UInt32.le_of_lt hlt)
    rw [mergeRange, checkedSub32_of_le (UInt32.le_of_lt hlt), Option.bind_eq_bind,
      Option.bind_some]
    by_cases hone : hi.toNat = lo.toNat + 1
    · rw [if_pos (by rw [← UInt32.toNat_inj, hsub, UInt32.toNat_one]; omega),
        hcvs lo.toNat (by omega), hone]
    · obtain ⟨len, left, mid, hlen, -, hsplit, -, hlo, hmid, hlong, hleft⟩ :=
        split_spec hZ h lo hi (by omega) hhi
      have hlo' := UInt32.lt_iff_toNat_lt.1 hlo
      have hmid' := UInt32.lt_iff_toNat_lt.1 hmid
      obtain ⟨len', hlen'', hvalue⟩ := h.rangeLen_eq lo hi hlt hhi
      obtain rfl : len = len' := Option.some.inj (hlen.symm.trans hlen'')
      have hlength : ((bytes.drop (lo.toNat * 2 ^ s)).take
          ((hi.toNat - lo.toNat) * 2 ^ s)).length = len.toNat := by
        rw [List.length_take, List.length_drop, Nat.sub_mul, hvalue, hbytes]
        omega
      rw [if_neg (by rw [← UInt32.toNat_inj, hsub, UInt32.toNat_one]; omega), hsplit,
        Option.bind_eq_bind, Option.bind_some,
        ih hlo (UInt32.le_trans (UInt32.le_of_lt hmid) hhi) (by omega), Option.bind_some,
        ih hmid hhi (by omega), Option.bind_some, hZ.merge_subtrees_non_root_eq]
      rw [TreeHash.node_pieces (hZ.chunkLog_eq.trans_le h.chunk_le) hlo' hmid'
        (hleft.trans (by rw [hlength])) (by omega)]

/-- The merged chaining values of all parts are the hash of the pack. -/
theorem mergeToRoot_eq (hZ : Z.Standard B T) (h : plan.Fits s)
    (hbytes : bytes.length = plan.total.toNat) {cvs : List Hash}
    (hlength : cvs.length = plan.count.toNat)
    (hcvs : ∀ i < plan.count.toNat, cvs[i]? = some (T.pieces bytes s i (i + 1))) :
    Returns (mergeToRoot Z plan cvs) (B.hash bytes) := by
  have hzero : (0 : UInt32).toNat = 0 := rfl
  have htwo := h.two_le
  obtain ⟨len, left, mid, hlen, -, hsplit, -, hlo, hmid, hlong, hleft⟩ :=
    split_spec hZ h 0 plan.count (by omega) (UInt32.le_refl _)
  have hmid' := UInt32.lt_iff_toNat_lt.1 hmid
  obtain ⟨len', hlen'', hvalue⟩ :=
    h.rangeLen_eq 0 plan.count (UInt32.lt_trans hlo hmid) (UInt32.le_refl _)
  obtain rfl : len = len' := Option.some.inj (hlen.symm.trans hlen'')
  have htotal := h.total_le
  have hlenBytes : len.toNat = bytes.length := by
    rw [hvalue, hzero]
    omega
  have hchunk := Nat.pow_le_pow_right (n := 2) (by decide)
    (hZ.chunkLog_eq.trans_le h.chunk_le)
  have hroot : B.hash bytes = T.rootNode (T.pieces bytes s 0 mid.toNat)
      (T.pieces bytes s mid.toNat plan.count.toNat) := by
    rw [hzero, Nat.sub_zero, hlenBytes] at hleft
    have hrest : (bytes.drop (mid.toNat * 2 ^ s)).length ≤
        (plan.count.toNat - mid.toNat) * 2 ^ s := by
      rw [List.length_drop, Nat.sub_mul]
      omega
    rw [hZ.hash_eq, TreeHash.whole, if_neg (by omega), TreeHash.pieces, TreeHash.pieces,
      List.take_of_length_le hrest, Nat.sub_zero, Nat.zero_mul, List.drop_zero, hleft]
  rw [hroot]
  simp only [mergeToRoot, hlength, ne_eq, not_true_eq_false, if_false, returns_bind,
    returns_liftOption, returns_pure]
  exact ⟨mid, hsplit, _, mergeRange_eq hZ h hbytes hcvs _ hlo (UInt32.le_of_lt hmid) (by omega),
    _, mergeRange_eq hZ h hbytes hcvs _ hmid (UInt32.le_refl _) (by omega),
    by rw [hZ.merge_subtrees_root_eq, hzero]⟩

/-! ### Hashing -/

/-- Pieces that stay within the expected length are absorbed in turn. -/
theorem returns_foldlM_update (pieces : List Bytes) {h : PartHasher Z}
    (hroom : h.seen.toNat + pieces.flatten.length ≤ h.expected.toNat) :
    Returns (pieces.foldlM PartHasher.update h) {
      hasher := pieces.foldl Z.update h.hasher
      expected := h.expected
      seen := UInt64.ofNat (h.seen.toNat + pieces.flatten.length)
    } := by
  induction pieces generalizing h with
  | nil =>
    rw [List.foldlM_nil, returns_pure, List.flatten_nil, List.length_nil, Nat.add_zero,
      UInt64.ofNat_toNat]
    rfl
  | cons data pieces ih =>
    rw [List.flatten_cons, List.length_append] at hroom
    have hexpected := h.expected.toNat_lt
    have hdata : (UInt64.ofNat data.length).toNat = data.length := by
      rw [UInt64.toNat_ofNat', Nat.mod_eq_of_lt (by omega)]
    have hseen : (UInt64.ofNat (h.seen.toNat + data.length)).toNat =
        h.seen.toNat + data.length := by
      rw [UInt64.toNat_ofNat', Nat.mod_eq_of_lt (by omega)]
    have hle : h.seen ≤ h.expected := UInt64.le_iff_toNat_le.2 (by omega)
    have hsub := UInt64.toNat_sub_of_le _ _ hle
    have hupdate : Returns (h.update data) {
        hasher := Z.update h.hasher data
        expected := h.expected
        seen := UInt64.ofNat (h.seen.toNat + data.length)
      } := by
      have hnarrow : ¬ 2 ^ 64 ≤ data.length := by omega
      have hfits : ¬ h.expected - h.seen < UInt64.ofNat data.length := by
        rw [UInt64.lt_iff_toNat_lt]
        omega
      simp only [PartHasher.update, hnarrow, if_false, returns_bind, returns_liftOption]
      refine ⟨h.expected - h.seen, checkedSub_eq_some.2 (by omega), ?_⟩
      simp only [hfits, if_false, returns_bind, returns_liftOption, returns_pure]
      exact ⟨_, checkedAdd_eq_some.2 (by omega), rfl⟩
    rw [List.foldlM_cons, returns_bind]
    refine ⟨_, hupdate, ?_⟩
    have hrest := ih (h := {
      hasher := Z.update h.hasher data
      expected := h.expected
      seen := UInt64.ofNat (h.seen.toNat + data.length)
    }) (by
      change _ ≤ h.expected.toNat
      rw [hseen]
      omega)
    rwa [hseen, Nat.add_assoc, ← List.length_append, ← List.flatten_cons] at hrest

/-- The chaining value of a part is that of the subtree over it, however it is absorbed. -/
theorem hashPart_eq (hZ : Z.Standard B T) (h : plan.Fits s)
    (hbytes : bytes.length = plan.total.toNat) {i : UInt32} (hi : i < plan.count)
    {pieces : List Bytes} (hpieces : pieces.flatten = (bytes.drop (i.toNat * 2 ^ s)).take (2 ^ s)) :
    Returns (hashPart Z plan i pieces) (T.pieces bytes s i.toNat (i.toNat + 1)) := by
  obtain ⟨o, hoffset, ho⟩ := h.offset_eq hi
  obtain ⟨len, hlen, hlen'⟩ := h.expectedLen_eq hi
  have hstart := h.start_lt _ (UInt32.lt_iff_toNat_lt.1 hi)
  have hpos := Nat.two_pow_pos s
  have hlength : pieces.flatten.length = len.toNat := by
    rw [hpieces, List.length_take, List.length_drop, hlen', hbytes, Nat.min_comm]
  have hne : pieces.flatten ≠ [] := by
    rw [← List.length_pos_iff, hlength, hlen']
    omega
  have hchunk : 2 ^ CHUNK_LOG ∣ o.toNat :=
    (Nat.pow_dvd_pow 2 h.chunk_le).trans (ho ▸ Nat.dvd_mul_left _ _)
  have hcv := hZ.finalize_non_root_eq o pieces hchunk hne
    (.inr ⟨s, ho ▸ Nat.dvd_mul_left _ _, by omega⟩)
  have hseen : (0 : UInt64).toNat + pieces.flatten.length = len.toNat := by
    rw [UInt64.toNat_zero, Nat.zero_add, hlength]
  have hrun := returns_foldlM_update pieces (Z := Z)
    (h := ⟨Z.set_input_offset Z.new o, len, 0⟩) hseen.le
  rw [hseen, UInt64.ofNat_toNat] at hrun
  simp only [hashPart, PartHasher.new, returns_bind, returns_liftExcept, returns_pure]
  refine ⟨_, ⟨o, hoffset, len, hlen, rfl⟩, _, hrun, ?_⟩
  rw [PartHasher.finalize, if_neg (by simp), hcv, hpieces, ho, TreeHash.pieces,
    Nat.add_sub_cancel_left, Nat.one_mul]

/-- A check never panics: it accepts, or names what is wrong. -/
theorem returns_check_iff (h : plan.Fits s) {commitment : PartCommitment} :
    (plan.check commitment).run ≠ none ∧
      (Returns (plan.check commitment) () ↔ commitment.index < plan.count ∧
        Returns (plan.expectedLen commitment.index) commitment.len) := by
  by_cases hi : commitment.index < plan.count
  · obtain ⟨len, hlen, -⟩ := h.expectedLen_eq hi
    have hrun : (plan.expectedLen commitment.index).run = some (.ok len) := hlen
    have hcheck : (plan.check commitment).run =
        (if commitment.len = len then pure () else throw .lengthMismatch :
          ExceptT PartError Option Unit).run := by
      rw [PartPlan.check, ExceptT.run_bind, hrun]
      rfl
    rw [Returns, hcheck]
    by_cases heq : commitment.len = len
    · rw [if_pos heq, heq]
      exact ⟨Option.some_ne_none _, fun _ => ⟨hi, hlen⟩, fun _ => rfl⟩
    · rw [if_neg heq]
      refine ⟨Option.some_ne_none _, fun hok => ?_, fun hok => absurd (hok.2.unique hlen) heq⟩
      cases hok
  · have hoffset : plan.offset commitment.index = .error .indexOutOfRange := by
      rw [PartPlan.offset, refuseIf, if_pos (UInt32.not_lt.1 hi)]
      rfl
    have hcheck : (plan.check commitment).run = some (.error .indexOutOfRange) := by
      rw [PartPlan.check, PartPlan.expectedLen, hoffset]
      rfl
    rw [Returns, hcheck]
    refine ⟨Option.some_ne_none _, fun hok => ?_, fun hok => absurd hok.1 hi⟩
    cases hok

/-- Consecutive windows make up the input. -/
theorem flatten_windows (bytes : Bytes) (n k : ℕ) :
    ((List.range k).map fun i => (bytes.drop (i * n)).take n).flatten = bytes.take (k * n) := by
  induction k with
  | zero => simp
  | succ k ih =>
    rw [List.range_succ, List.map_append, List.flatten_append, ih, Nat.succ_mul, List.take_add]
    simp

/-! ### The upload -/

/-- **Hashing by parts is hashing the pack.** For every accepted geometry:

* the parts are non-empty and make up a pack of `total` bytes; hashing each of them in any
  sequence of updates succeeds, and the chaining values merge to the hash of the pack;
* every range of at least two parts splits strictly inside and on a part boundary, and neither an
  integer wraps nor does the conversion fall back;
* a commitment is accepted when its index is in range and its length is that of the part, and
  no commitment makes the check panic. -/
theorem parts_hash_pack {Z : Hazmat} {B : Blake3} {T : TreeHash UInt8 Hash}
    (hZ : Z.Standard B T) {total partSize : UInt64} {maxParts : UInt32} {plan : PartPlan}
    (hplan : PartPlan.new total partSize maxParts = .ok plan) :
    (∀ bytes : Bytes, bytes.length = total.toNat →
      ∃ parts : List Bytes, parts.length = plan.count.toNat ∧ parts.flatten = bytes ∧
        (∀ i < plan.count, ∃ offset len, plan.offset i = .ok offset ∧
          Returns (plan.expectedLen i) len ∧ 0 < len.toNat ∧
          offset.toNat + len.toNat ≤ bytes.length ∧
          parts[i.toNat]? = some ((bytes.drop offset.toNat).take len.toNat)) ∧
        ∀ updates : List (List Bytes), updates.map List.flatten = parts →
          ∃ cvs : List Hash, cvs.length = plan.count.toNat ∧
            (∀ i < plan.count, ∃ pieces cv, updates[i.toNat]? = some pieces ∧
              cvs[i.toNat]? = some cv ∧ Returns (hashPart Z plan i pieces) cv) ∧
            Returns (mergeToRoot Z plan cvs) (B.hash bytes)) ∧
    (∀ lo hi : UInt32, lo.toNat + 2 ≤ hi.toNat → hi ≤ plan.count →
      ∃ (len : UInt64) (left mid : UInt32), plan.rangeLen lo hi = some len ∧
        tryU32 (Z.left_subtree_len len / plan.partSize) = some left ∧
        split Z plan lo hi = some mid ∧ mid.toNat = lo.toNat + left.toNat ∧
        lo < mid ∧ mid < hi ∧
        (mid.toNat - lo.toNat) * plan.partSize.toNat = leftLen len.toNat) ∧
    (∀ commitment : PartCommitment, (plan.check commitment).run ≠ none ∧
      (Returns (plan.check commitment) () ↔ commitment.index < plan.count ∧
        Returns (plan.expectedLen commitment.index) commitment.len)) := by
  obtain ⟨rfl, s, h⟩ := PartPlan.fits_of_new hplan
  refine ⟨fun bytes hbytes => ?_, fun lo hi hlt hhi => ?_, fun commitment => ?_⟩
  · have hpart : ∀ i : ℕ, i < plan.count.toNat →
        ((List.range plan.count.toNat).map fun i =>
          (bytes.drop (i * 2 ^ s)).take (2 ^ s))[i]? =
          some ((bytes.drop (i * 2 ^ s)).take (2 ^ s)) := fun i hi => by
      rw [List.getElem?_map, List.getElem?_range hi, Option.map_some]
    refine ⟨_, by rw [List.length_map, List.length_range],
      (flatten_windows bytes (2 ^ s) plan.count.toNat).trans
        (List.take_of_length_le (hbytes ▸ h.total_le)), fun i hi => ?_, fun updates hupdates => ?_⟩
    · obtain ⟨offset, hoffset, ho⟩ := h.offset_eq hi
      obtain ⟨len, hlen, hlen'⟩ := h.expectedLen_eq hi
      have hstart := h.start_lt _ (UInt32.lt_iff_toNat_lt.1 hi)
      have hpos := Nat.two_pow_pos s
      refine ⟨offset, len, hoffset, hlen, by omega, by omega, ?_⟩
      rw [hpart _ (UInt32.lt_iff_toNat_lt.1 hi), ho, Option.some.injEq, List.take_eq_take_iff,
        List.length_drop]
      omega
    · refine ⟨(List.range plan.count.toNat).map fun i => T.pieces bytes s i (i + 1),
        by rw [List.length_map, List.length_range], fun i hi => ?_, ?_⟩
      · have hi' := UInt32.lt_iff_toNat_lt.1 hi
        have hupdate := congrArg (·[i.toNat]?) hupdates
        simp only [List.getElem?_map, hpart _ hi', Option.map_eq_some_iff] at hupdate
        obtain ⟨pieces, hpieces, hflatten⟩ := hupdate
        refine ⟨pieces, _, hpieces, ?_, hashPart_eq hZ h hbytes hi hflatten⟩
        rw [List.getElem?_map, List.getElem?_range hi', Option.map_some]
      · refine mergeToRoot_eq hZ h hbytes (by rw [List.length_map, List.length_range]) ?_
        intro i hi
        rw [List.getElem?_map, List.getElem?_range hi, Option.map_some]
  · obtain ⟨len, left, mid, hlen, hleft, hsplit, hmid, hlo, hhi, -, hboundary⟩ :=
      split_spec hZ h lo hi hlt hhi
    exact ⟨len, left, mid, hlen, hleft, hsplit, hmid, hlo, hhi, h.partSize_eq ▸ hboundary⟩
  · exact returns_check_iff h

/-- The functions of a tree hash; a hasher keeps its offset and what it has absorbed. -/
def Hazmat.ofTree (T : TreeHash UInt8 Hash) : Hazmat where
  Hasher := UInt64 × Bytes
  new := (0, [])
  set_input_offset := fun h offset => (offset, h.2)
  update := fun h data => (h.1, h.2 ++ data)
  finalize_non_root := fun h => T.subtree h.1.toNat h.2
  left_subtree_len := fun n => UInt64.ofNat (leftLen n.toNat)
  merge_subtrees_non_root := T.node
  merge_subtrees_root := T.rootNode

theorem foldl_absorb (pieces : List Bytes) (acc : UInt64 × Bytes) :
    pieces.foldl (fun h data => (h.1, h.2 ++ data)) acc = (acc.1, acc.2 ++ pieces.flatten) := by
  induction pieces generalizing acc with
  | nil => simp
  | cons data pieces ih =>
    rw [List.foldl_cons, ih, List.flatten_cons, List.append_assoc]

theorem Hazmat.ofTree_standard {T : TreeHash UInt8 Hash} (h : T.chunkLog = CHUNK_LOG) :
    (Hazmat.ofTree T).Standard (Blake3.ofFun T.whole) T where
  chunkLog_eq := h
  hash_eq _ := rfl
  finalize_non_root_eq := fun offset pieces _ _ _ =>
    congrArg (fun h : UInt64 × Bytes => T.subtree h.1.toNat h.2) (foldl_absorb pieces (offset, []))
  merge_subtrees_non_root_eq := rfl
  merge_subtrees_root_eq := rfl
  left_subtree_len_eq := fun n hn hlt => by
    have hleft : leftLen n.toNat < n.toNat := by
      rw [CHUNK_LOG] at hn
      exact leftLen_lt (by omega)
    exact UInt64.toNat_ofNat_of_lt' (hleft.trans n.toNat_lt)

/-- A pack of two parts, the second of one byte. -/
theorem parts_hash_pack_two : ∃ plan, PartPlan.new 8388609 8388608 2 = .ok plan ∧ plan.count = 2 ∧
      ∃ cvs, Returns (mergeToRoot (.ofTree Pack.toyTreeHash) plan cvs)
        ((Blake3.ofFun Pack.toyTreeHash.whole).hash (List.replicate 8388609 7)) := by
  have hplan : PartPlan.new 8388609 8388608 2 = .ok ⟨8388609, 8388608, 2⟩ := by decide +kernel
  obtain ⟨parts, -, -, -, hhash⟩ :=
    (parts_hash_pack (Hazmat.ofTree_standard (T := Pack.toyTreeHash) rfl) hplan).1
      (List.replicate 8388609 7) List.length_replicate
  have hwhole : (parts.map fun part => [part]).map List.flatten = parts := by
    rw [List.map_map]
    exact (List.map_congr_left fun part _ => List.append_nil part).trans (List.map_id parts)
  obtain ⟨cvs, -, -, hroot⟩ := hhash _ hwhole
  exact ⟨_, hplan, rfl, cvs, hroot⟩

end Mkit.UploadParts
