import Mkit.Lib.LeftBalanced
import Mkit.Pack

/-!
# The Hash Tree of a Windowed Pack

A pack that does not fit memory is read in windows, and its digest is taken along the way
(`pack/window/tree.rs`). The tree keeps the chaining values of the complete subtrees of the
windows so far, and the last window apart: a root cannot be made out of a chaining value that
has been merged as a non-root one.

The functions of the hash that work on subtrees are the library's; what it documents of them is
`Hazmat.Standard`, in terms of a left-balanced tree hash.

## Main results

* `absorb_windows` — reading the windows one after the other never fails, keeps a tree that
  validates, and has the digest of the whole input as soon as its last byte has been read.
-/

namespace Mkit.Pack

open LeftBalanced

/-- The logarithm of the chunk length, 1024 bytes. -/
def CHUNK_LOG : ℕ := 10

/-- The functions of the hash on subtrees. -/
structure Hazmat where
  /-- The chaining value of an input at an offset, absorbed by a fresh hasher. -/
  finalize_non_root : ℕ → Bytes → Hash
  merge_subtrees_non_root : Hash → Hash → Hash
  merge_subtrees_root : Hash → Hash → Hash
  left_subtree_len : ℕ → ℕ

/-- The functions compute the tree hash `T`, within the limits they are documented to have. -/
structure Hazmat.Standard (Z : Hazmat) (B : Blake3) (T : TreeHash UInt8 Hash) : Prop where
  chunkLog_eq : T.chunkLog = CHUNK_LOG
  hash_eq : ∀ input, B.hash input = T.whole input
  /-- Offsets are multiples of the chunk length, an input is not empty, and away from offset 0
  it is no longer than the power of two its offset is a multiple of. -/
  finalize_non_root_eq : ∀ offset input, 2 ^ CHUNK_LOG ∣ offset → input ≠ [] →
    (offset = 0 ∨ ∃ s, 2 ^ s ∣ offset ∧ input.length ≤ 2 ^ s) →
    Z.finalize_non_root offset input = T.subtree offset input
  merge_subtrees_non_root_eq : Z.merge_subtrees_non_root = T.node
  merge_subtrees_root_eq : Z.merge_subtrees_root = T.rootNode
  /-- Inputs longer than a chunk have a left subtree. -/
  left_subtree_len_eq : ∀ n, 2 ^ CHUNK_LOG < n → Z.left_subtree_len n = leftLen n

/-- The chaining values of complete subtrees, and the digest once the input is complete. -/
structure Tree where
  stack : List Hash
  root : Option Hash
deriving DecidableEq

namespace Tree

/-- Nothing absorbed yet. -/
def new : Tree where
  stack := []
  root := none

variable (Z : Hazmat) (B : Blake3)

/-- Merge the chaining value of a window with those before it, as long as the count is odd. -/
def mergeCarries (count : ℕ) (stack : List Hash) (cv : Hash) : Except PackError (List Hash) :=
  if count % 2 = 1 then
    match stack.getLast? with
    | none => .error .packfileCorrupted
    | some left => mergeCarries (count / 2) stack.dropLast (Z.merge_subtrees_non_root left cv)
  else .ok (stack ++ [cv])
termination_by count
decreasing_by omega

/-- Absorb the window at `offset` of an input of `total` bytes; the window may extend past it. -/
def absorb (t : Tree) (offset : ℕ) (bytes : Bytes) (total window : ℕ) : Except PackError Tree :=
  if total ≤ offset then .ok t
  else
    let len := min (total - offset) bytes.length
    let input := bytes.take len
    if offset = 0 ∧ len = total then .ok { t with root := some (B.hash input) }
    else
      let cv := Z.finalize_non_root offset input
      if offset + len = total then
        let split := Z.left_subtree_len total
        if split % window ≠ 0 ∨ offset / split ≠ 1 then .error .packfileCorrupted
        else
          match t.stack with
          | [] => .error .packfileCorrupted
          | left :: rest =>
            let cv := rest.foldr (fun left cv => Z.merge_subtrees_non_root left cv) cv
            .ok { t with root := some (Z.merge_subtrees_root left cv) }
      else do
        let stack ← mergeCarries Z (offset / window) t.stack cv
        .ok { t with stack }

/-- `u64::count_ones`. -/
def countOnes (n : ℕ) : ℕ :=
  n.bits.count true

/-- Does the tree stand behind `completed` windows? -/
def validate (t : Tree) (completed total window : ℕ) : Bool :=
  let pre := (total - 1) / window
  t.stack.length = countOnes (min completed pre) ∧ t.root.isSome = decide (pre < completed)

/-- Absorb the first `k` windows of `bytes`. -/
def absorbWindows (bytes : Bytes) (total window : ℕ) : ℕ → Except PackError Tree
  | 0 => .ok new
  | k + 1 => do
    let t ← absorbWindows bytes total window k
    absorb Z B t (k * window) ((bytes.drop (k * window)).take window) total window

/-! ### One window -/

variable {Z B}

/-- The loop is the carry of the library; a missing subtree is corruption. -/
theorem mergeCarries_of_carry {count : ℕ} {stack stack' : List Hash} {cv : Hash}
    (h : TreeHash.carry Z.merge_subtrees_non_root count stack cv = some stack') :
    mergeCarries Z count stack cv = .ok stack' := by
  fun_induction mergeCarries Z count stack cv with
  | case1 count stack cv hodd hlast =>
    rw [TreeHash.carry, if_pos hodd, hlast] at h
    cases h
  | case2 count stack cv hodd left hlast ih =>
    rw [TreeHash.carry, if_pos hodd, hlast] at h
    exact ih h
  | case3 count stack cv heven =>
    rw [TreeHash.carry, if_neg heven] at h
    rw [Option.some.inj h]

/-- The part of a window that is hashed is the piece of the input it covers. -/
theorem take_window {data : Bytes} {total : ℕ} (h : total ≤ data.length) (offset window : ℕ) :
    min (total - offset) ((data.drop offset).take window).length = min (total - offset) window ∧
      ((data.drop offset).take window).take (min (total - offset) window) =
        ((data.take total).drop offset).take window := by
  constructor
  · rw [List.length_take, List.length_drop]
    omega
  · rw [List.take_take, List.drop_take, List.take_take]
    congr 1
    omega

/-- What the tree holds behind the first `k` windows of length `2 ^ s`. -/
structure Holds (T : TreeHash UInt8 Hash) (xs : Bytes) (s k : ℕ) (t : Tree) : Prop where
  stack_eq : t.stack = T.forest xs s (min k ((xs.length - 1) / 2 ^ s))
  root_eq : t.root = if (xs.length - 1) / 2 ^ s < k then some (T.whole xs) else none

section

variable {T : TreeHash UInt8 Hash} {data : Bytes} {total s k : ℕ} {t : Tree}

/-- A window behind the end changes nothing. -/
theorem Holds.absorb_past {xs : Bytes} (ht : Holds T xs s k t) (hne : xs ≠ [])
    (h : xs.length ≤ k * 2 ^ s) : Holds T xs s (k + 1) t := by
  have hpos := List.length_pos_of_ne_nil hne
  have hlast : (xs.length - 1) / 2 ^ s < k := by
    rw [Nat.div_lt_iff_lt_mul (Nat.two_pow_pos s)]
    omega
  constructor
  · rw [ht.stack_eq, min_eq_right (by omega), min_eq_right (by omega)]
  · rw [ht.root_eq, if_pos hlast, if_pos (by omega)]

/-- The chaining value of a window, or of what is left for it. -/
theorem finalize_window (hZ : Z.Standard B T) (hs : CHUNK_LOG ≤ s) {xs : Bytes}
    (h : k * 2 ^ s < xs.length) :
    Z.finalize_non_root (k * 2 ^ s) ((xs.drop (k * 2 ^ s)).take (2 ^ s)) = T.piece xs s k := by
  have hdvd : 2 ^ CHUNK_LOG ∣ k * 2 ^ s := Dvd.dvd.mul_left (pow_dvd_pow 2 hs) k
  have hpos := Nat.two_pow_pos s
  have hne : (xs.drop (k * 2 ^ s)).take (2 ^ s) ≠ [] := by
    intro hnil
    have := congrArg List.length hnil
    rw [List.length_take, List.length_drop, List.length_nil] at this
    omega
  exact hZ.finalize_non_root_eq _ _ hdvd hne
    (.inr ⟨s, Dvd.intro_left k rfl, List.length_take_le _ _⟩)

/-- The left subtree of the root is made of complete windows, and the last window is in the
right one. -/
theorem left_subtree_len_window (hZ : Z.Standard B T) (hs : CHUNK_LOG ≤ s) (hk : 0 < k)
    (h : k * 2 ^ s < total) (h' : total ≤ (k + 1) * 2 ^ s) :
    Z.left_subtree_len total % 2 ^ s = 0 ∧ k * 2 ^ s / Z.left_subtree_len total = 1 := by
  have hlog := Nat.pow_log_le_self 2 hk.ne'
  have hlog' := Nat.lt_pow_succ_log_self (b := 2) (by decide) k
  have hchunk : 2 ^ CHUNK_LOG ≤ k * 2 ^ s :=
    (Nat.pow_le_pow_right (by decide) hs).trans (Nat.le_mul_of_pos_left _ hk)
  have hsplit : Z.left_subtree_len total = 2 ^ Nat.log 2 k * 2 ^ s := by
    rw [hZ.left_subtree_len_eq total (by omega), ← pow_add]
    refine leftLen_eq ?_ ?_
    · rw [pow_add]
      exact (Nat.mul_le_mul_right _ hlog).trans_lt h
    · rw [show Nat.log 2 k + s + 1 = Nat.log 2 k + 1 + s by ring, pow_add]
      exact h'.trans (Nat.mul_le_mul_right _ hlog')
  rw [hsplit]
  refine ⟨Nat.mul_mod_left _ _, ?_⟩
  rw [Nat.mul_div_mul_right _ _ (Nat.two_pow_pos s)]
  rw [Nat.div_eq_iff (Nat.two_pow_pos _)]
  rw [pow_succ] at hlog'
  omega

/-- **One window.** The next window is absorbed without a failure, and the tree holds what it
must behind it. -/
theorem Holds.absorb (hZ : Z.Standard B T) (hs : CHUNK_LOG ≤ s) (htotal : 0 < total)
    (hlen : total ≤ data.length) (ht : Holds T (data.take total) s k t) :
    ∃ t', absorb Z B t (k * 2 ^ s) ((data.drop (k * 2 ^ s)).take (2 ^ s)) total (2 ^ s) =
        .ok t' ∧ Holds T (data.take total) s (k + 1) t' := by
  obtain ⟨hmin, hinput⟩ := take_window hlen (k * 2 ^ s) (2 ^ s)
  set xs := data.take total with hxs
  have hxslen : xs.length = total := by
    rw [hxs, List.length_take, min_eq_left hlen]
  have hpos := Nat.two_pow_pos s
  have hsucc : (k + 1) * 2 ^ s = k * 2 ^ s + 2 ^ s := by ring
  rw [Tree.absorb]
  by_cases hpast : total ≤ k * 2 ^ s
  · rw [if_pos hpast]
    exact ⟨t, rfl, ht.absorb_past (List.ne_nil_of_length_pos (by omega)) (by omega)⟩
  rw [if_neg hpast]
  simp only [hmin, hinput]
  by_cases hlast : total ≤ (k + 1) * 2 ^ s
  · -- the window with the last byte
    have hend : (total - 1) / 2 ^ s = k := by
      rw [Nat.div_eq_iff hpos]
      omega
    have hstack : t.stack = T.forest xs s k := by
      rw [ht.stack_eq, hxslen, hend, min_self]
    have hdone : ∀ t' : Tree, t'.stack = T.forest xs s k → t'.root = some (T.whole xs) →
        Holds T xs s (k + 1) t' := by
      intro t' hstack' hroot'
      refine ⟨?_, ?_⟩
      · rw [hstack', hxslen, hend, min_eq_right (Nat.le_succ k)]
      · rw [hroot', hxslen, hend, if_pos (Nat.lt_succ_self k)]
    rw [min_eq_left (by omega)]
    by_cases hk : k = 0
    · -- it is also the first: the input is hashed at once
      subst hk
      have hall : (xs.drop (0 * 2 ^ s)).take (2 ^ s) = xs := by
        rw [Nat.zero_mul, List.drop_zero, List.take_of_length_le (by omega)]
      rw [if_pos ⟨Nat.zero_mul _, by omega⟩, hall]
      exact ⟨_, rfl, hdone _ hstack (congrArg some (hZ.hash_eq xs))⟩
    · have hoffset : 0 < k * 2 ^ s := Nat.mul_pos (Nat.pos_of_ne_zero hk) hpos
      obtain ⟨hmod, hdiv⟩ := left_subtree_len_window hZ hs (by omega) (not_le.1 hpast) hlast
      obtain ⟨first, rest, hforest, hwhole⟩ := TreeHash.rootNode_foldr_forest (T := T)
        (hZ.chunkLog_eq.trans_le hs) (Nat.pos_of_ne_zero hk) (hxslen ▸ not_le.1 hpast)
        (hxslen ▸ hlast)
      have hrest : (xs.drop (k * 2 ^ s)).take (2 ^ s) = xs.drop (k * 2 ^ s) :=
        List.take_of_length_le (by rw [List.length_drop]; omega)
      rw [if_neg (by omega), if_pos (by omega), hmod, hdiv, if_neg (by simp), hstack, hforest,
        finalize_window hZ hs (hxslen ▸ not_le.1 hpast), TreeHash.piece, hrest,
        hZ.merge_subtrees_non_root_eq, hZ.merge_subtrees_root_eq]
      exact ⟨_, rfl, hdone _ hforest.symm (congrArg some hwhole)⟩
  · -- a complete window in front of others
    have hmore : k + 1 ≤ (total - 1) / 2 ^ s := by
      rw [Nat.le_div_iff_mul_le hpos]
      omega
    have hstack : t.stack = T.forest xs s k := by
      rw [ht.stack_eq, hxslen, min_eq_left (by omega)]
    have hcarry : mergeCarries Z k t.stack (T.piece xs s k) = .ok (T.forest xs s (k + 1)) := by
      refine mergeCarries_of_carry ?_
      rw [hstack, hZ.merge_subtrees_non_root_eq]
      exact TreeHash.carry_forest (hZ.chunkLog_eq.trans_le hs) (by omega)
    rw [min_eq_right (by omega), if_neg (by omega), if_neg (by omega),
      finalize_window hZ hs (hxslen ▸ not_le.1 hpast), Nat.mul_div_cancel k hpos, hcarry]
    refine ⟨_, rfl, ?_, ?_⟩
    · rw [hxslen, min_eq_left hmore]
    · change t.root = _
      rw [ht.root_eq, hxslen, if_neg (by omega), if_neg (by omega)]

/-- Every window is absorbed, and the tree holds what it must behind it. -/
theorem exists_absorbWindows (hZ : Z.Standard B T) (hs : CHUNK_LOG ≤ s) (htotal : 0 < total)
    (hlen : total ≤ data.length) (k : ℕ) :
    ∃ t, absorbWindows Z B data total (2 ^ s) k = .ok t ∧ Holds T (data.take total) s k t := by
  induction k with
  | zero =>
    refine ⟨new, rfl, ?_, ?_⟩
    · rw [Nat.zero_min, TreeHash.forest_zero]
      rfl
    · rw [if_neg (Nat.not_lt_zero _)]
      rfl
  | succ k ih =>
    obtain ⟨t, hrun, ht⟩ := ih
    obtain ⟨t', habsorb, ht'⟩ := ht.absorb hZ hs htotal hlen
    refine ⟨t', ?_, ht'⟩
    rw [absorbWindows, hrun]
    exact habsorb

/-- What the tree must hold validates. -/
theorem Holds.validate (hlen : total ≤ data.length) (ht : Holds T (data.take total) s k t) :
    t.validate k total (2 ^ s) = true := by
  have hxslen : (data.take total).length = total := by
    rw [List.length_take, min_eq_left hlen]
  have hroot : t.root.isSome = decide ((total - 1) / 2 ^ s < k) := by
    rw [ht.root_eq, hxslen]
    split_ifs with h
    · simp [h]
    · simp [h]
  rw [Tree.validate, decide_eq_true_iff, ht.stack_eq, TreeHash.length_forest, hxslen]
  exact ⟨rfl, hroot⟩

end

end Tree

/-- **The incremental tree is the one-shot hash.** For windows of `2 ^ 10 * 2 ^ j` bytes, every
window is absorbed without a failure; there is no root until the window with the last byte of
the input, and from then on the root is the digest of the input. The tree validates behind every
window. -/
theorem absorb_windows {Z : Hazmat} {B : Blake3} {T : TreeHash UInt8 Hash} (hZ : Z.Standard B T)
    {total window : ℕ} {bytes : Bytes} (htotal : 1 ≤ total)
    (hwindow : ∃ j, window = 2 ^ CHUNK_LOG * 2 ^ j) (hlen : total ≤ bytes.length) (k : ℕ) :
    ∃ t, Tree.absorbWindows Z B bytes total window k = .ok t ∧
      t.root = (if (total - 1) / window < k then some (B.hash (bytes.take total)) else none) ∧
      t.validate k total window = true := by
  obtain ⟨j, rfl⟩ := hwindow
  rw [← pow_add]
  obtain ⟨t, hrun, ht⟩ :=
    Tree.exists_absorbWindows hZ (Nat.le_add_right CHUNK_LOG j) htotal hlen k
  refine ⟨t, hrun, ?_, ht.validate hlen⟩
  rw [ht.root_eq, List.length_take, min_eq_left hlen, hZ.hash_eq]

/-- The functions of a tree hash. -/
def Hazmat.ofTree (T : TreeHash UInt8 Hash) : Hazmat where
  finalize_non_root := T.subtree
  merge_subtrees_non_root := T.node
  merge_subtrees_root := T.rootNode
  left_subtree_len := leftLen

theorem Hazmat.ofTree_standard {T : TreeHash UInt8 Hash} (h : T.chunkLog = CHUNK_LOG) :
    (Hazmat.ofTree T).Standard (Blake3.ofFun T.whole) T where
  chunkLog_eq := h
  hash_eq _ := rfl
  finalize_non_root_eq _ _ _ _ _ := rfl
  merge_subtrees_non_root_eq := rfl
  merge_subtrees_root_eq := rfl
  left_subtree_len_eq _ _ := rfl

/-- A tree hash that tells chunks and nodes, roots and positions apart. -/
def toyTreeHash : TreeHash UInt8 Hash where
  chunkLog := CHUNK_LOG
  leaf i xs := toyDigest (0 :: Wire.leBytes 8 i ++ xs)
  soleLeaf xs := toyDigest (1 :: xs)
  node l r := toyDigest (2 :: l.bytes ++ r.bytes)
  rootNode l r := toyDigest (3 :: l.bytes ++ r.bytes)

/-- 2500 bytes in windows of 1024: the digest is there behind the third window. -/
theorem absorb_windows_three :
    ∃ t, Tree.absorbWindows (.ofTree toyTreeHash) (.ofFun toyTreeHash.whole)
        (List.replicate 2500 7) 2500 1024 3 = .ok t ∧
      t.root =
        some ((Blake3.ofFun toyTreeHash.whole).hash ((List.replicate 2500 7).take 2500)) := by
  have hlen : 2500 ≤ (List.replicate 2500 (7 : UInt8)).length := List.length_replicate.ge
  have hwindow : ∃ j, 1024 = 2 ^ CHUNK_LOG * 2 ^ j := ⟨0, rfl⟩
  have hstandard : (Hazmat.ofTree toyTreeHash).Standard (.ofFun toyTreeHash.whole) toyTreeHash :=
    Hazmat.ofTree_standard rfl
  obtain ⟨t, hrun, hroot, -⟩ := absorb_windows hstandard (by omega) hwindow hlen 3
  rw [if_pos (by omega)] at hroot
  exact ⟨t, hrun, hroot⟩

end Mkit.Pack
