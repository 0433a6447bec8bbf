import Mkit.DeltaStream
import Mathlib.Data.List.TakeWhile
import Mathlib.Data.UInt

/-!
# The Delta Writer

`encode` of `delta.rs` as the loop it is: a writer with an output, a buffer of literals, a
position and the rolling hash of the window at that position, over an index that is a hash map
under a random seed.

A writer state is `Rolled` when the hash it keeps is that of the window it stands at. Every
round keeps this (`rolled_round`), since sliding a window cancels the outgoing byte exactly
under wrapping arithmetic (`rollForward_blockHash`), so the writer does what one that hashes
every window afresh does (`round_fresh`). The map answers as the list of first-seen blocks
does, whatever its seed (`get_buildSeeded`).
-/

namespace Mkit.DeltaStream

/-! ### The loop -/

/-- The writer's index: a hash map whose hasher is drawn at random. -/
abbrev SeededIndex (seed : UInt64 → UInt64) : Type :=
  @Std.HashMap UInt64 ℕ inferInstance ⟨seed⟩

/-- Index the whole blocks of a base, as far as their positions fit 32 bits. -/
def buildSeeded (seed : UInt64 → UInt64) (base : Bytes) : SeededIndex seed :=
  ((List.range (base.length / BLOCK_SIZE)).takeWhile fun i => i * BLOCK_SIZE < 2 ^ 32).foldl
    (fun index i =>
      let pos := i * BLOCK_SIZE
      index.insertIfNew (blockHash ((base.drop pos).take BLOCK_SIZE)) pos)
    ∅

/-- What the writer carries from round to round. -/
structure Writer where
  out : Bytes
  insertBuf : Bytes
  ti : ℕ
  windowHash : Option UInt64

/-- The hash a round looks up for a window, out of the hash kept and the window's bytes. -/
abbrev WindowHash := Option UInt64 → Bytes → UInt64

/-- Use the hash that was rolled here, if there is one. -/
def rolling : WindowHash := fun kept window => kept.getD (blockHash window)

/-- Hash every window from scratch. -/
def fresh : WindowHash := fun _ window => blockHash window

variable (hashOf : WindowHash) (index : UInt64 → Option ℕ) (base result : Bytes)

/-- The hash of the window ahead, where a full window fits. -/
def Writer.hash (w : Writer) : Option UInt64 :=
  if w.ti + BLOCK_SIZE ≤ result.length then
    some (hashOf w.windowHash ((result.drop w.ti).take BLOCK_SIZE))
  else none

/-- Copy from a block of the base, extended as far as the two strings agree. -/
def Writer.copy (pos : ℕ) (w : Writer) : Writer :=
  let matchLen := BLOCK_SIZE + commonPrefix (MAX_COPY_LEN - BLOCK_SIZE)
    (base.drop (pos + BLOCK_SIZE)) (result.drop (w.ti + BLOCK_SIZE))
  { out := w.out ++ flushInsert w.insertBuf ++ emitCopy pos matchLen
    insertBuf := []
    ti := w.ti + matchLen
    windowHash := none }

/-- Take one byte as a literal. The hash goes along while a full window stands ahead of the next
position. -/
def Writer.literal (hash : Option UInt64) (w : Writer) : Writer :=
  let insertBuf := w.insertBuf ++ [result.getD w.ti 0]
  let full := insertBuf.length = MAX_INSERT_LEN
  { out := if full then w.out ++ flushInsert insertBuf else w.out
    insertBuf := if full then [] else insertBuf
    ti := w.ti + 1
    windowHash := hash.bind fun h =>
      result[w.ti + BLOCK_SIZE]?.map fun new => rollForward h (result.getD w.ti 0) new }

/-- One round at a position before the end. -/
def Writer.round (w : Writer) : Writer :=
  let found := (w.hash hashOf result).bind fun h =>
    (index h).filter fun pos =>
      (base.drop pos).take BLOCK_SIZE = (result.drop w.ti).take BLOCK_SIZE
  match found with
  | some pos => w.copy base result pos
  | none => w.literal result (w.hash hashOf result)

/-- Take rounds until the end of the target. -/
def Writer.run : ℕ → Writer → Writer
  | 0, w => w
  | n + 1, w => if w.ti < result.length then run n (w.round hashOf index base result) else w

def Writer.start (out : Bytes) : Writer where
  out := out
  insertBuf := []
  ti := 0
  windowHash := none

/-- The writer's state after at most `n` rounds. -/
def writerAfter (seed : UInt64 → UInt64) (n : ℕ) : Writer :=
  Writer.run hashOf (fun h => (buildSeeded seed base)[h]?) base result n
    (Writer.start (writeHeader base.length result.length))

/-- `encode` with a seed for its hash map. Every round takes at least one byte, so the length of
the target is enough rounds. -/
def encodeSeeded (seed : UInt64 → UInt64) : Except MkitError Bytes := do
  checkLengthBounds base.length result.length
  let w := writerAfter hashOf base result seed result.length
  .ok (w.out ++ flushInsert w.insertBuf)

/-! ### Rolling the hash -/

open scoped UInt64.CommRing in
/-- A block's hash continues the hash before it. -/
theorem foldl_blockHash (h : UInt64) (block : Bytes) :
    block.foldl (fun h b => h * ROLL_M + b.toUInt64) h =
      h * ROLL_M ^ block.length + blockHash block := by
  induction block generalizing h with
  | nil => simp [blockHash]
  | cons b block ih =>
    have hblock : blockHash (b :: block) =
        (0 * ROLL_M + b.toUInt64) * ROLL_M ^ block.length + blockHash block := by
      rw [blockHash, List.foldl_cons, ih]
    rw [List.foldl_cons, ih, hblock, List.length_cons, pow_succ]
    ring

open scoped UInt64.CommRing in
/-- Sliding a window forward gives the hash of the next window. -/
theorem rollForward_blockHash {old new : UInt8} {mid : Bytes} (hmid : mid.length + 1 = BLOCK_SIZE) :
    rollForward (blockHash (old :: mid)) old new = blockHash (mid ++ [new]) := by
  have hold : blockHash (old :: mid) = old.toUInt64 * ROLL_M ^ mid.length + blockHash mid := by
    rw [blockHash, List.foldl_cons, foldl_blockHash]
    ring
  have hnew : blockHash (mid ++ [new]) = blockHash mid * ROLL_M + new.toUInt64 := by
    rw [blockHash, List.foldl_append]
    rfl
  have hpow : ROLL_M_POW_BLOCK = ROLL_M ^ mid.length * ROLL_M := by
    rw [← pow_succ, hmid]
    rfl
  rw [rollForward, hold, hnew, hpow]
  ring

/-- A writer that keeps a hash keeps that of the full window it stands at. -/
def Rolled (w : Writer) : Prop :=
  ∀ h, w.windowHash = some h →
    w.ti + BLOCK_SIZE ≤ result.length ∧
      h = blockHash ((result.drop w.ti).take BLOCK_SIZE)

variable {hashOf index base result}

/-- The value a round looks up, rolled or computed, is the hash of its window. -/
theorem Rolled.rolling_eq {w : Writer} (h : Rolled result w) :
    rolling w.windowHash ((result.drop w.ti).take BLOCK_SIZE) =
      blockHash ((result.drop w.ti).take BLOCK_SIZE) := by
  cases hk : w.windowHash with
  | none => rfl
  | some kept => exact (h kept hk).2

/-- From a rolled state, hashing afresh changes nothing. -/
theorem round_fresh {w : Writer} (h : Rolled result w) :
    w.round fresh index base result = w.round rolling index base result := by
  have hhash : w.hash fresh result = w.hash rolling result := by
    rw [Writer.hash, Writer.hash, h.rolling_eq]
    rfl
  rw [Writer.round, Writer.round, hhash]

/-- The hash that goes along with a literal is that of the next window. -/
theorem rolled_literal (w : Writer) : Rolled result (w.literal result (w.hash fresh result)) := by
  intro h hh
  obtain ⟨kept, hkept, hroll⟩ := Option.bind_eq_some_iff.1 hh
  obtain ⟨new, hnew, rfl⟩ := Option.map_eq_some_iff.1 hroll
  obtain ⟨hlt, rfl⟩ := List.getElem?_eq_some_iff.1 hnew
  have h16 : BLOCK_SIZE = 16 := rfl
  rw [Writer.hash, if_pos (by omega), Option.some.injEq] at hkept
  subst hkept
  have hti : (w.literal result (w.hash fresh result)).ti = w.ti + 1 := rfl
  rw [hti]
  refine ⟨by omega, ?_⟩
  have hwindow : (result.drop w.ti).take BLOCK_SIZE =
      result[w.ti] :: (result.drop (w.ti + 1)).take (BLOCK_SIZE - 1) := by
    rw [List.drop_eq_getElem_cons (by omega), h16]
    rfl
  have hslid : (result.drop (w.ti + 1)).take BLOCK_SIZE =
      (result.drop (w.ti + 1)).take (BLOCK_SIZE - 1) ++ [result[w.ti + BLOCK_SIZE]] := by
    have hnext : (result.drop (w.ti + 1))[15]? = some result[w.ti + BLOCK_SIZE] := by
      rw [List.getElem?_drop, List.getElem?_eq_some_iff]
      exact ⟨by omega, by congr 1⟩
    change (result.drop (w.ti + 1)).take (15 + 1) = _
    rw [List.take_add_one, hnext]
    rfl
  have hold : result.getD w.ti 0 = result[w.ti] := by
    rw [List.getD_eq_getElem?_getD, List.getElem?_eq_getElem (by omega), Option.getD_some]
  rw [fresh, hwindow, hslid, hold]
  refine rollForward_blockHash ?_
  rw [List.length_take, List.length_drop]
  omega

/-- A round that hashes its window leaves a rolled state. -/
theorem rolled_round_fresh (w : Writer) : Rolled result (w.round fresh index base result) := by
  rw [Writer.round]
  split
  · intro h hh
    cases hh
  · exact rolled_literal w

/-- A round of the writer keeps its state rolled. -/
theorem rolled_round {w : Writer} (h : Rolled result w) :
    Rolled result (w.round rolling index base result) := by
  rw [← round_fresh h]
  exact rolled_round_fresh w

/-- Along a whole run the state is rolled, and hashing afresh gives the same states. -/
theorem rolled_run {w : Writer} (h : Rolled result w) (n : ℕ) :
    Rolled result (w.run rolling index base result n) ∧
      w.run fresh index base result n = w.run rolling index base result n := by
  induction n generalizing w with
  | zero => exact ⟨h, rfl⟩
  | succ n ih =>
    rw [Writer.run, Writer.run]
    split
    · rw [round_fresh h]
      exact ih (rolled_round h)
    · exact ⟨h, rfl⟩

theorem rolled_start (out : Bytes) : Rolled result (Writer.start out) := by
  intro h hh
  cases hh

/-! ### The loop and the scan -/

/-- One round of the scan is one round of the writer. -/
theorem run_eq_scan {blocks : BlockIndex} (n : ℕ) (w : Writer) :
    (w.run rolling (fun h => blocks.lookup h) base result n).out ++
        flushInsert (w.run rolling (fun h => blocks.lookup h) base result n).insertBuf =
      w.out ++ scan base blocks n (result.drop w.ti) w.insertBuf w.windowHash := by
  induction n generalizing w with
  | zero =>
    cases h : result.drop w.ti <;> rw [Writer.run, scan]
  | succ n ih =>
    rw [Writer.run]
    split
    case isFalse hend =>
      rw [List.drop_eq_nil_iff.2 (by omega), scan]
    case isTrue hti =>
      have hold : result.getD w.ti 0 = result[w.ti] := by
        rw [List.getD_eq_getElem?_getD, List.getElem?_eq_getElem hti, Option.getD_some]
      have hnext : (result.drop w.ti)[BLOCK_SIZE]? = result[w.ti + BLOCK_SIZE]? :=
        List.getElem?_drop
      have hfits : BLOCK_SIZE ≤ (result.drop w.ti).length ↔
          w.ti + BLOCK_SIZE ≤ result.length := by
        rw [List.length_drop]
        omega
      have hhash : (if BLOCK_SIZE ≤ (result.drop w.ti).length then
          some (w.windowHash.getD (blockHash ((result.drop w.ti).take BLOCK_SIZE)))
          else none) = w.hash rolling result := by
        simp only [hfits]
        rfl
      rw [ih, List.drop_eq_getElem_cons hti, scan, ← List.drop_eq_getElem_cons hti]
      dsimp only
      rw [hhash, hnext]
      cases hfound : (w.hash rolling result).bind fun h =>
        findBlock base blocks h ((result.drop w.ti).take BLOCK_SIZE) with
      | some pos =>
        have hround : w.round rolling (fun h => blocks.lookup h) base result =
            w.copy base result pos := by
          rw [Writer.round]
          change (match (w.hash rolling result).bind fun h =>
            findBlock base blocks h ((result.drop w.ti).take BLOCK_SIZE) with
            | some pos => _
            | none => _) = _
          rw [hfound]
        rw [hround, Writer.copy]
        dsimp only
        rw [List.drop_drop, List.drop_drop, List.append_assoc, List.append_assoc,
          List.append_assoc]
      | none =>
        have hround : w.round rolling (fun h => blocks.lookup h) base result =
            w.literal result (w.hash rolling result) := by
          rw [Writer.round]
          change (match (w.hash rolling result).bind fun h =>
            findBlock base blocks h ((result.drop w.ti).take BLOCK_SIZE) with
            | some pos => _
            | none => _) = _
          rw [hfound]
        rw [hround, Writer.literal, hold]
        dsimp only
        split
        · rw [List.append_assoc]
        · rfl

/-! ### The index under a seed -/

/-- Whatever the seed, the map answers as the list of first-seen blocks does. -/
theorem get_buildSeeded {base : Bytes} (hbase : base.length < 2 ^ 32)
    (seed : UInt64 → UInt64) (h : UInt64) :
    (buildSeeded seed base)[h]? = (buildIndex base).lookup h := by
  have hall : ((List.range (base.length / BLOCK_SIZE)).takeWhile fun i =>
      i * BLOCK_SIZE < 2 ^ 32) = List.range (base.length / BLOCK_SIZE) := by
    refine List.takeWhile_eq_self_iff.2 fun i hi => ?_
    have hi := List.mem_range.1 hi
    rw [BLOCK_SIZE] at hi ⊢
    rw [decide_eq_true_eq]
    omega
  rw [buildSeeded, hall, buildIndex]
  refine @List.foldl_rel _ _ _ _ _ _ _ _ (fun (m : SeededIndex seed) (index : BlockIndex) =>
    ∀ h, m[h]? = index.lookup h) (fun h => Std.HashMap.getElem?_empty) ?_ h
  intro i _ m index hm h
  dsimp only
  generalize blockHash ((base.drop (i * BLOCK_SIZE)).take BLOCK_SIZE) = k
  -- the entry is taken exactly when the list has the hash already
  have hmem : k ∈ m ↔ (index.lookup k).isSome := by
    rw [← hm k]
    exact Std.HashMap.mem_iff_isSome_getElem?
  rw [Std.HashMap.getElem?_insertIfNew]
  split
  · rename_i hnew
    obtain ⟨hk, hnew⟩ := hnew
    obtain rfl := eq_of_beq hk
    rw [if_neg (mt hmem.2 hnew), List.lookup_cons_self]
  · rename_i hold
    split
    · exact hm h
    · rename_i hnone
      have hne : (h == k) = false := by
        rw [beq_eq_false_iff_ne]
        rintro rfl
        exact hold ⟨beq_self_eq_true h, mt hmem.1 hnone⟩
      rw [List.lookup_cons, hne]
      exact hm h

/-! ### The stream -/

variable {base result : Bytes}

/-- The writer's stream is that of the scan, whatever the seed. -/
theorem encodeSeeded_rolling (hbase : base.length < 2 ^ 32) (seed : UInt64 → UInt64) :
    encodeSeeded rolling base result seed = encode base result := by
  have hlookup : (fun h => (buildSeeded seed base)[h]?) =
      fun h => (buildIndex base).lookup h := funext (get_buildSeeded hbase seed)
  rw [encodeSeeded, encode, writerAfter, hlookup]
  simp only [run_eq_scan]
  rfl

theorem encodeSeeded_fresh (seed : UInt64 → UInt64) :
    encodeSeeded fresh base result seed = encodeSeeded rolling base result seed := by
  rw [encodeSeeded, encodeSeeded, writerAfter, writerAfter, (rolled_run (rolled_start _) _).2]

/-- The encoder always writes a stream, which decodes to the target. The stream is the one a
writer gives that hashes every window from scratch, it is the same for every seed, and in every
state of the writer a kept hash is that of the window ahead. -/
theorem encode_exact (hbase : base.length < 2 ^ 32) (hresult : result.length < 2 ^ 32) :
    ∃ stream, decode base stream = .ok result ∧ ∀ seed,
      encodeSeeded rolling base result seed = .ok stream ∧
        encodeSeeded fresh base result seed = .ok stream ∧
        ∀ n, Rolled result (writerAfter rolling base result seed n) := by
  obtain ⟨stream, hstream⟩ := exists_encode hbase hresult
  refine ⟨stream, decode_encode hstream, fun seed => ?_⟩
  rw [encodeSeeded_fresh, encodeSeeded_rolling hbase, hstream]
  exact ⟨rfl, rfl, fun n => (rolled_run (rolled_start _) n).1⟩

/-- A target of two blocks of the base in the other order, with a byte between them. -/
theorem encode_exact_swapped : let base := List.replicate 16 1 ++ List.replicate 16 2
    let result := List.replicate 16 2 ++ 0 :: List.replicate 16 1
    ∃ stream, decode base stream = .ok result ∧ ∀ seed,
      encodeSeeded rolling base result seed = .ok stream ∧
        encodeSeeded fresh base result seed = .ok stream ∧
        ∀ n, Rolled result (writerAfter rolling base result seed n) :=
  encode_exact (by decide) (by decide)

end Mkit.DeltaStream
