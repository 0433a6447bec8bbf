import Mkit.WorktreeState

/-!
# Shallow Boundaries

The commits at which the history of a shallow clone ends, kept as a file of ref-wire lines.
`write_shallow_boundaries` writes one line for each of them, however many there are;
`load_shallow_boundaries` refuses a file of more than 1 MiB and skips lines that are no digests.

## Main results

* `shallow_round_trip_iff` — what is written is read back exactly when it fits that bound,
  which is room for 16131 boundaries.
-/

namespace Mkit

open Wire Text FileTree

/-- Longest shallow file, 1 MiB. -/
def SHALLOW_MAX_BYTES : ℕ := 1024 * 1024

/-- What a line may end with: `\r`, space and tab. -/
def SHALLOW_LINE_END : Bytes := [0x0d, 0x20, 0x09]

/-- The digest on a line, if there is one. -/
def shallowLine (line : Bytes) : Option Hash :=
  let trimmed := trimEndMatches SHALLOW_LINE_END line
  if trimmed.length ≠ HEX_LEN then none else parseLowercaseHash trimmed

/-- Load the boundaries; none when there are none. -/
def loadShallowBoundaries (path : Path) : Except RefError (Option (List Hash)) := do
  match ← (present path.metadata).mapError fun _ => .io with
  | none => pure none
  | some node =>
    if node.len = 0 then pure none
    else if node.len > SHALLOW_MAX_BYTES then
      .error (.invalidRef (ascii ['s', 'h', 'a', 'l', 'l', 'o', 'w', ' ', 'f', 'i', 'l', 'e',
        ' ', 't', 'o', 'o', ' ', 'l', 'a', 'r', 'g', 'e']))
    else do
      let bytes ← path.read.mapError fun _ => .io
      if !isUtf8 bytes then .error .invalidHead
      else
        let out := (bytes.splitOn NEWLINE).filterMap shallowLine
        if out = [] then pure none else pure (some out)

/-- Write the boundaries, or remove the file when there are none; gives the outcome and what lies
at the path then. `fails` says whether the file operation fails. -/
def writeShallowBoundaries (path : Path) (fails : Bool) (mtime : ℕ) (boundaries : List Hash) :
    Except RefError Unit × Path :=
  if boundaries = [] then
    match path with
    | .error .notFound => (.ok (), path)
    | _ => if fails then (.error .io, path) else (.ok (), .error .notFound)
  else if fails then (.error .io, path)
  else (.ok (), .ok (.file (boundaries.flatMap encodeRefWire) mtime true))

/-! ### Reading back -/

theorem shallowLine_toHex (h : Hash) : shallowLine (toHex h) = some h := by
  have hend : HEX.all (fun d => !SHALLOW_LINE_END.contains d) = true := by decide
  have htrim : trimEndMatches SHALLOW_LINE_END (toHex h) = toHex h := by
    rw [trimEndMatches, List.rdropWhile_eq_self_iff]
    intro hne
    simpa using List.all_eq_true.1 hend _ (mem_HEX_of_mem_toHex (List.getLast_mem hne))
  rw [shallowLine, htrim]
  exact (if_neg (not_not.2 (length_toHex h))).trans (parseLowercaseHash_toHex h)

/-- The lines of the file are the digests, and an empty one at the end. -/
theorem filterMap_shallowLine (boundaries : List Hash) :
    ((boundaries.flatMap encodeRefWire).splitOn NEWLINE).filterMap shallowLine = boundaries := by
  have hlines : boundaries.flatMap encodeRefWire =
      ((boundaries.map toHex).flatMap fun line => line ++ [NEWLINE]) ++ [] := by
    rw [List.append_nil, List.flatMap_map]
    rfl
  have hnl : ∀ line ∈ boundaries.map toHex, NEWLINE ∉ line := by
    intro line hline
    obtain ⟨h, -, rfl⟩ := List.mem_map.1 hline
    exact newline_notMem_toHex h
  have hsome : shallowLine ∘ toHex = some := funext shallowLine_toHex
  rw [hlines, splitOn_terminated hnl, List.filterMap_append, List.filterMap_map, hsome,
    List.filterMap_some]
  exact List.append_nil boundaries

theorem isUtf8_encodeRefWires (boundaries : List Hash) :
    isUtf8 (boundaries.flatMap encodeRefWire) = true := by
  have hhex : HEX.all (fun d => d.toNat ≤ 0x7f) = true := by decide
  refine isUtf8_of_ascii fun b hb => ?_
  obtain ⟨h, -, hb⟩ := List.mem_flatMap.1 hb
  rcases List.mem_append.1 hb with hb | hb
  · exact of_decide_eq_true (List.all_eq_true.1 hhex b (mem_HEX_of_mem_toHex hb))
  · rw [List.mem_singleton.1 hb]
    decide

theorem length_encodeRefWires (boundaries : List Hash) :
    (boundaries.flatMap encodeRefWire).length = 65 * boundaries.length := by
  induction boundaries with
  | nil => rfl
  | cons h boundaries ih =>
    rw [List.flatMap_cons, List.length_append, ih, length_encodeRefWire, List.length_cons]
    omega

/-- Loading a file of boundaries: it is refused when it is too large. -/
theorem loadShallowBoundaries_of_written {boundaries : List Hash} (hne : boundaries ≠ [])
    (mtime : ℕ) :
    loadShallowBoundaries (.ok (.file (boundaries.flatMap encodeRefWire) mtime true)) =
      if SHALLOW_MAX_BYTES < 65 * boundaries.length then
        .error (.invalidRef (ascii ['s', 'h', 'a', 'l', 'l', 'o', 'w', ' ', 'f', 'i', 'l', 'e',
          ' ', 't', 'o', 'o', ' ', 'l', 'a', 'r', 'g', 'e']))
      else .ok (some boundaries) := by
  have hpos : (boundaries.flatMap encodeRefWire).length ≠ 0 := by
    rw [length_encodeRefWires]
    have := List.length_pos_of_ne_nil hne
    omega
  rw [loadShallowBoundaries]
  change (if (boundaries.flatMap encodeRefWire).length = 0 then _
    else if SHALLOW_MAX_BYTES < (boundaries.flatMap encodeRefWire).length then _ else _) = _
  rw [if_neg hpos, length_encodeRefWires]
  split_ifs with hlarge
  · rfl
  · change (if (!isUtf8 (boundaries.flatMap encodeRefWire)) = true then _ else if _ = [] then _
      else _) = _
    rw [isUtf8_encodeRefWires, filterMap_shallowLine, if_neg (by decide), if_neg hne]
    rfl

/-- What lies at the path after a successful write. -/
theorem writeShallowBoundaries_ok {path after : Path} {fails : Bool} {mtime : ℕ}
    {boundaries : List Hash}
    (h : writeShallowBoundaries path fails mtime boundaries = (.ok (), after)) :
    after = if boundaries = [] then .error .notFound
      else .ok (.file (boundaries.flatMap encodeRefWire) mtime true) := by
  unfold writeShallowBoundaries at h
  by_cases hnil : boundaries = []
  · rw [if_pos hnil] at h ⊢
    rcases path with (_ | _) | node
    · exact (congrArg Prod.snd h).symm
    all_goals
      cases fails with
      | false => exact (congrArg Prod.snd h).symm
      | true => cases congrArg Prod.fst h
  · rw [if_neg hnil] at h ⊢
    cases fails with
    | false => exact (congrArg Prod.snd h).symm
    | true => cases congrArg Prod.fst h

/-- **Shallow boundaries survive a round trip** exactly when there are at most 16131 of them. -/
theorem shallow_round_trip_iff {path after : Path} {fails : Bool} {mtime : ℕ}
    {boundaries : List Hash}
    (h : writeShallowBoundaries path fails mtime boundaries = (.ok (), after)) :
    loadShallowBoundaries after = .ok (if boundaries = [] then none else some boundaries) ↔
      boundaries.length ≤ 16131 := by
  have hcap : SHALLOW_MAX_BYTES < 65 * boundaries.length ↔ ¬ boundaries.length ≤ 16131 := by
    rw [SHALLOW_MAX_BYTES]
    omega
  have hafter := writeShallowBoundaries_ok h
  by_cases hnil : boundaries = []
  · rw [if_pos hnil] at hafter
    rw [hafter, if_pos hnil, hnil]
    exact iff_of_true rfl (Nat.zero_le _)
  · rw [if_neg hnil] at hafter
    rw [hafter, loadShallowBoundaries_of_written hnil, if_neg hnil]
    by_cases hlen : boundaries.length ≤ 16131
    · rw [if_neg (not_not.2 hlen ∘ hcap.1)]
      exact iff_of_true rfl hlen
    · rw [if_pos (hcap.2 hlen)]
      exact iff_of_false nofun hlen

/-- Three boundaries are read back. -/
theorem shallow_round_trip_three :
    loadShallowBoundaries (.ok (.file ([ZERO, ByteArr.fill 32 1, ZERO].flatMap encodeRefWire) 0
      true)) = .ok (some [ZERO, ByteArr.fill 32 1, ZERO]) := by
  have hwrite : writeShallowBoundaries (.error .notFound) false 0 [ZERO, ByteArr.fill 32 1, ZERO] =
      (.ok (), .ok (.file ([ZERO, ByteArr.fill 32 1, ZERO].flatMap encodeRefWire) 0 true)) := rfl
  exact (shallow_round_trip_iff hwrite).2 (by decide)

/-- 16132 boundaries are written and cannot be loaded again. -/
theorem shallow_too_many : ¬ ∀ (path after : Path) (mtime : ℕ) (boundaries : List Hash),
      writeShallowBoundaries path false mtime boundaries = (.ok (), after) →
        loadShallowBoundaries after =
          .ok (if boundaries = [] then none else some boundaries) := by
  intro hall
  have hne : List.replicate 16132 ZERO ≠ [] := List.cons_ne_nil _ _
  have hwrite := hall (.error .notFound) _ 0 (List.replicate 16132 ZERO)
    (by rw [writeShallowBoundaries, if_neg hne]; rfl)
  have hcap : SHALLOW_MAX_BYTES < 65 * (List.replicate 16132 ZERO).length := by
    rw [List.length_replicate]
    decide
  rw [loadShallowBoundaries_of_written hne, if_pos hcap] at hwrite
  cases hwrite

end Mkit
