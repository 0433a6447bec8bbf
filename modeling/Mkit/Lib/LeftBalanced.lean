import Mathlib.Data.List.TakeDrop
import Mathlib.Data.Nat.Bits
import Mathlib.Data.Nat.Log
import Mathlib.Tactic.Ring

/-!
# Left-Balanced Tree Hashes

A tree hash cuts its input into chunks and joins them pairwise: the left subtree of a node is
the largest complete one that leaves something to the right (`leftLen`). The nodes inside the
tree (`subtree`) are hashed apart from the root (`whole`).

An incremental reader cannot know where the root is. It keeps the complete subtrees of what it
has read, one for each binary digit of the number of pieces, the largest first (`forest`). One
more piece is added like a carry into that number (`carry_forest`), and a last piece of any
length closes the tree from the right (`rootNode_foldr_forest`).
-/

namespace LeftBalanced

/-- The length of the left subtree of an input of at least two elements: the largest power of
two below its length. -/
def leftLen (n : ℕ) : ℕ :=
  2 ^ Nat.log 2 (n - 1)

theorem leftLen_eq {n s : ℕ} (h : 2 ^ s < n) (h' : n ≤ 2 ^ (s + 1)) : leftLen n = 2 ^ s := by
  rw [leftLen, Nat.log_eq_of_pow_le_of_lt_pow (Nat.le_sub_one_of_lt h)]
  have := Nat.two_pow_pos s
  omega

theorem leftLen_pos (n : ℕ) : 0 < leftLen n :=
  Nat.two_pow_pos _

theorem leftLen_lt {n : ℕ} (h : 1 < n) : leftLen n < n := by
  have := Nat.pow_log_le_self 2 (x := n - 1) (by omega)
  rw [leftLen]
  omega

/-- The left subtree of an input that is longer than `2 ^ s` is a multiple of it. -/
theorem two_pow_dvd_leftLen {n s : ℕ} (h : 2 ^ s < n) : 2 ^ s ∣ leftLen n :=
  Nat.pow_dvd_pow 2 (Nat.le_log_of_pow_le (by decide) (Nat.le_sub_one_of_lt h))

/-- A tree hash: the length of a chunk, as a power of two, and how chunks and nodes are hashed,
inside the tree and at its root. -/
structure TreeHash (α D : Type) where
  chunkLog : ℕ
  /-- A chunk inside the tree, by its index. -/
  leaf : ℕ → List α → D
  /-- The only chunk. -/
  soleLeaf : List α → D
  node : D → D → D
  rootNode : D → D → D

namespace TreeHash

variable {α D : Type} (T : TreeHash α D)

/-- The hash of the subtree over `xs`, which begins at `offset`. -/
def subtree (offset : ℕ) (xs : List α) : D :=
  if h : xs.length ≤ 2 ^ T.chunkLog then T.leaf (offset / 2 ^ T.chunkLog) xs
  else
    T.node (subtree offset (xs.take (leftLen xs.length)))
      (subtree (offset + leftLen xs.length) (xs.drop (leftLen xs.length)))
termination_by xs.length
decreasing_by
  all_goals
    have hlt : leftLen xs.length < xs.length :=
      leftLen_lt (lt_of_le_of_lt Nat.one_le_two_pow (not_le.1 h))
    have hpos := leftLen_pos xs.length
    simp only [List.length_take, List.length_drop]
    omega

/-- The hash of an input. -/
def whole (xs : List α) : D :=
  if xs.length ≤ 2 ^ T.chunkLog then T.soleLeaf xs
  else
    T.rootNode (T.subtree 0 (xs.take (leftLen xs.length)))
      (T.subtree (leftLen xs.length) (xs.drop (leftLen xs.length)))

variable {T} {xs : List α} {s : ℕ}

/-- An input longer than `2 ^ s` and at most twice as long splits at `2 ^ s`. -/
theorem subtree_split (hs : T.chunkLog ≤ s) (h : 2 ^ s < xs.length)
    (h' : xs.length ≤ 2 ^ (s + 1)) (offset : ℕ) : T.subtree offset xs =
      T.node (T.subtree offset (xs.take (2 ^ s)))
        (T.subtree (offset + 2 ^ s) (xs.drop (2 ^ s))) := by
  have hle := Nat.pow_le_pow_right (n := 2) (by decide) hs
  rw [subtree, dif_neg (by omega), leftLen_eq h h']

theorem whole_split (hs : T.chunkLog ≤ s) (h : 2 ^ s < xs.length) (h' : xs.length ≤ 2 ^ (s + 1)) :
    T.whole xs =
      T.rootNode (T.subtree 0 (xs.take (2 ^ s))) (T.subtree (2 ^ s) (xs.drop (2 ^ s))) := by
  have hle := Nat.pow_le_pow_right (n := 2) (by decide) hs
  rw [whole, if_neg (by omega), leftLen_eq h h']

/-! ### Pieces -/

variable (T xs)

/-- The subtree over the `i`-th piece of length `2 ^ s`. -/
def piece (s i : ℕ) : D :=
  T.subtree (i * 2 ^ s) ((xs.drop (i * 2 ^ s)).take (2 ^ s))

/-- The complete subtrees over the first `k` pieces, the largest first. -/
def forest (s k : ℕ) : List D :=
  if k = 0 then []
  else if k % 2 = 1 then forest (s + 1) (k / 2) ++ [T.piece xs s (k - 1)]
  else forest (s + 1) (k / 2)
termination_by k
decreasing_by all_goals omega

variable {T xs}

@[simp] theorem forest_zero : T.forest xs s 0 = [] := by
  rw [forest, if_pos rfl]

theorem forest_even (m : ℕ) : T.forest xs s (2 * m) = T.forest xs (s + 1) m := by
  by_cases hm : m = 0
  · rw [hm, Nat.mul_zero, forest_zero, forest_zero]
  · rw [forest, if_neg (by omega), if_neg (by omega), Nat.mul_div_cancel_left m (by decide)]

theorem forest_odd (m : ℕ) :
    T.forest xs s (2 * m + 1) = T.forest xs (s + 1) m ++ [T.piece xs s (2 * m)] := by
  have hhalf : (2 * m + 1) / 2 = m := by omega
  rw [forest, if_neg (by omega), if_pos (by omega), hhalf, Nat.add_sub_cancel]

/-- There is one subtree for every binary digit that is set. -/
theorem length_forest (s k : ℕ) : (T.forest xs s k).length = k.bits.count true := by
  induction k using Nat.binaryRec' generalizing s with
  | zero => simp
  | bit b m h ih =>
    rw [Nat.bits_append_bit m b h]
    cases b with
    | false => rw [Nat.bit_false, forest_even, ih, List.count_cons_of_ne (by decide)]
    | true =>
      rw [Nat.bit_true, forest_odd, List.length_append, ih, List.count_cons_self]
      rfl

/-- Two neighbours make the piece of twice their length. -/
theorem node_piece {i : ℕ} (hs : T.chunkLog ≤ s) (h : (2 * i + 2) * 2 ^ s ≤ xs.length) :
    T.node (T.piece xs s (2 * i)) (T.piece xs s (2 * i + 1)) = T.piece xs (s + 1) i := by
  have hstart : i * 2 ^ (s + 1) = 2 * i * 2 ^ s := by ring
  have hnext : (2 * i + 1) * 2 ^ s = 2 * i * 2 ^ s + 2 ^ s := by ring
  have hend : (2 * i + 2) * 2 ^ s = 2 * i * 2 ^ s + 2 ^ (s + 1) := by ring
  have hpow : 2 ^ (s + 1) = 2 ^ s + 2 ^ s := by ring
  have hpos := Nat.two_pow_pos s
  have hlen : ((xs.drop (2 * i * 2 ^ s)).take (2 ^ (s + 1))).length = 2 ^ (s + 1) := by
    rw [List.length_take, List.length_drop]
    omega
  rw [piece, piece, piece, hstart, hnext, subtree_split hs (by omega) hlen.le, List.take_take,
    List.drop_take, List.drop_drop, min_eq_left (by omega), hpow, Nat.add_sub_cancel]

/-! ### One more piece -/

/-- Add a subtree to a forest of `count` pieces, like a carry: it joins the last subtree as long
as the count is odd. Fails when there is nothing to join. -/
def carry (node : D → D → D) (count : ℕ) (trees : List D) (cv : D) : Option (List D) :=
  if count % 2 = 1 then
    match trees.getLast? with
    | none => none
    | some left => carry node (count / 2) trees.dropLast (node left cv)
  else some (trees ++ [cv])
termination_by count
decreasing_by omega

theorem carry_even (node : D → D → D) (m : ℕ) (trees : List D) (cv : D) :
    carry node (2 * m) trees cv = some (trees ++ [cv]) := by
  rw [carry, if_neg (by omega)]

theorem carry_odd (node : D → D → D) (m : ℕ) (trees : List D) (left cv : D) :
    carry node (2 * m + 1) (trees ++ [left]) cv = carry node m trees (node left cv) := by
  have hhalf : (2 * m + 1) / 2 = m := by omega
  rw [carry, if_pos (by omega), List.getLast?_concat, List.dropLast_concat, hhalf]

/-- The carry of a complete piece gives the forest with that piece. -/
theorem carry_forest {k : ℕ} (hs : T.chunkLog ≤ s) (h : (k + 1) * 2 ^ s ≤ xs.length) :
    carry T.node k (T.forest xs s k) (T.piece xs s k) = some (T.forest xs s (k + 1)) := by
  induction k using Nat.strong_induction_on generalizing s with
  | _ k ih =>
    obtain ⟨m, rfl | rfl⟩ := Nat.even_or_odd' k
    · rw [carry_even, forest_even, forest_odd]
    · have hpow : (m + 1) * 2 ^ (s + 1) = (2 * m + 1 + 1) * 2 ^ s := by ring
      have hnext : 2 * m + 1 + 1 = 2 * (m + 1) := by ring
      rw [forest_odd, carry_odd, node_piece hs h,
        ih m (by omega) (Nat.le_succ_of_le hs) (hpow ▸ h), hnext, forest_even]

/-! ### The last piece -/

/-- A last piece, shorter than the others or as long, joins the subtrees from the right; the
largest one is the left subtree of the root. -/
theorem rootNode_foldr_forest {k : ℕ} (hs : T.chunkLog ≤ s) (hk : 0 < k)
    (h : k * 2 ^ s < xs.length) (h' : xs.length ≤ (k + 1) * 2 ^ s) :
    ∃ first rest, T.forest xs s k = first :: rest ∧
      T.rootNode first (rest.foldr T.node (T.subtree (k * 2 ^ s) (xs.drop (k * 2 ^ s)))) =
        T.whole xs := by
  induction k using Nat.strong_induction_on generalizing s with
  | _ k ih =>
    have hpow : 2 ^ (s + 1) = 2 ^ s + 2 ^ s := by ring
    have hdouble : ∀ m, m * 2 ^ (s + 1) = 2 * m * 2 ^ s := fun m => by ring
    obtain ⟨m, rfl | rfl⟩ := Nat.even_or_odd' k
    · -- the last piece is one of twice the length
      rw [← hdouble] at h ⊢
      rw [forest_even]
      refine ih m (by omega) (Nat.le_succ_of_le hs) (by omega) h (h'.trans ?_)
      calc (2 * m + 1) * 2 ^ s ≤ (2 * m + 2) * 2 ^ s := Nat.mul_le_mul_right _ (by omega)
        _ = (m + 1) * 2 ^ (s + 1) := by ring
    · have hnext : (2 * m + 1) * 2 ^ s = 2 * m * 2 ^ s + 2 ^ s := by ring
      have hend : (2 * m + 1 + 1) * 2 ^ s = 2 * m * 2 ^ s + 2 ^ (s + 1) := by ring
      -- joined with its left neighbour, the last piece is one of twice the length
      have hjoin : T.node (T.piece xs s (2 * m))
          (T.subtree ((2 * m + 1) * 2 ^ s) (xs.drop ((2 * m + 1) * 2 ^ s))) =
          T.subtree (2 * m * 2 ^ s) (xs.drop (2 * m * 2 ^ s)) := by
        have hlo : 2 ^ s < (xs.drop (2 * m * 2 ^ s)).length := by
          rw [List.length_drop]
          omega
        have hhi : (xs.drop (2 * m * 2 ^ s)).length ≤ 2 ^ (s + 1) := by
          rw [List.length_drop]
          omega
        rw [subtree_split hs hlo hhi, piece, hnext, List.drop_drop]
      by_cases hm : m = 0
      · subst hm
        rw [forest_odd, forest_zero]
        refine ⟨_, [], rfl, ?_⟩
        rw [List.foldr_nil, whole_split hs (by omega) (by omega), piece]
        simp
      · obtain ⟨first, rest, hforest, hroot⟩ :=
          ih m (by omega) (Nat.le_succ_of_le hs) (by omega)
            (by rw [hdouble]; omega) (by rw [Nat.add_mul, hdouble]; omega)
        refine ⟨first, rest ++ [T.piece xs s (2 * m)], by rw [forest_odd, hforest]; rfl, ?_⟩
        rw [List.foldr_append, List.foldr_cons, List.foldr_nil, hjoin, ← hdouble]
        exact hroot

/-! ### Ranges of pieces -/

/-- The subtree over the pieces of length `2 ^ s` from `lo` up to `hi`. -/
def pieces (T : TreeHash α D) (xs : List α) (s lo hi : ℕ) : D :=
  T.subtree (lo * 2 ^ s) ((xs.drop (lo * 2 ^ s)).take ((hi - lo) * 2 ^ s))

/-- Pieces join where the left subtree of their whole ends. -/
theorem node_pieces {lo mid hi : ℕ} (hs : T.chunkLog ≤ s) (hlo : lo < mid) (hhi : mid < hi)
    (hmid : (mid - lo) * 2 ^ s =
      leftLen ((xs.drop (lo * 2 ^ s)).take ((hi - lo) * 2 ^ s)).length)
    (hlen : 2 ^ s < ((xs.drop (lo * 2 ^ s)).take ((hi - lo) * 2 ^ s)).length) :
    T.node (T.pieces xs s lo mid) (T.pieces xs s mid hi) = T.pieces xs s lo hi := by
  have hle := Nat.pow_le_pow_right (n := 2) (by decide) hs
  have hstart : lo * 2 ^ s + (mid - lo) * 2 ^ s = mid * 2 ^ s := by
    rw [← Nat.add_mul, Nat.add_sub_cancel' hlo.le]
  have hrest : (hi - lo) * 2 ^ s - (mid - lo) * 2 ^ s = (hi - mid) * 2 ^ s := by
    rw [← Nat.sub_mul]
    congr 1
    omega
  rw [pieces, pieces, pieces]
  conv_rhs =>
    rw [subtree, dif_neg (by omega), ← hmid, List.take_take, List.drop_take, List.drop_drop,
      hstart, hrest, min_eq_left (Nat.mul_le_mul_right _ (by omega))]

end TreeHash

end LeftBalanced
