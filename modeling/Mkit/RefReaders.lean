import Mkit.WorktreeState

/-!
# The Readers of a Ref File

Three readers decode a ref file, each with its own bound. `read_ref_under` looks at the length
first and refuses more than 128 bytes; `RefMutation::current`, which decides a conditional write
or delete, reads the whole file; `read_ref_candidate`, which serves the listings, reads into a
buffer of 256 bytes and starts over when the buffer is full.

## Main results

* `readers_agree_iff` — they agree, and a conditional write or delete takes nothing for `h`
  that `read_ref` does not, unless the file is the digits of a digest followed by more than 64
  bytes of whitespace: `read_ref` refuses such a file and the other two read it.
-/

namespace Mkit

open Wire FileTree

/-! ### The readers -/

/-- `ref_path`. -/
def refPath (common_dir : Path) (sub_dir : List Bytes) (name : Bytes) : Path :=
  (common_dir.joinAll sub_dir).joinAll (name.splitOn SLASH)

/-- A held mutation of one ref. -/
structure RefMutation where
  path : Path
  name : Bytes

/-- What the steps of a mutation besides the ref's own readers come to. -/
structure MutationEnv where
  /-- Dropping the history of the branch. -/
  invalidate_history : Except RefError Unit
  /-- Is a history publication pending? -/
  pending : Except RefError Bool
  /-- Creating the file anew: was it created? -/
  write_create_new : Except RefError Bool
  write_atomic : Except RefError Unit
  remove_file : Except IoError Unit
  sync_dir : Except RefError Unit

namespace RefMutation

variable (m : RefMutation)

/-- The value a write condition is compared with. -/
def current : Except RefError (Option Hash) := do
  match ← (present m.path.read).mapError fun _ => .io with
  | none => pure none
  | some bytes =>
    match decodeRefWire bytes with
    | some h => .ok (some h)
    | none => .error (.invalidRef m.name)

/-- Does the ref meet a write condition? -/
def check (condition : RefWriteCondition) : Except RefError Unit := do
  let ok ← match condition with
    | .any => pure true
    | .missing => do
      let found ← (present m.path.metadata).mapError fun _ => RefError.io
      pure found.isNone
    | .matching expected => do
      let current ← m.current
      pure (decide (current = some expected))
  if ok then pure () else throw (.conflict m.name)

/-- Write the ref and leave the history of the branch alone. -/
def writePreservingHistory (env : MutationEnv) (condition : RefWriteCondition) :
    Except RefError Unit := do
  m.check condition
  match condition with
  | .missing => do
    let created ← env.write_create_new
    if created then pure () else throw (.conflict m.name)
  | _ => env.write_atomic

/-- Write `target` under a condition. -/
def write (env : MutationEnv) (target : Hash) (condition : RefWriteCondition) :
    Except RefError Unit := do
  m.check condition
  if m.current.toOption.join ≠ decodeRefWire (encodeRefWire target) then env.invalidate_history
  else do
    let pending ← env.pending
    if pending then
      throw (.invalidRef (ascii ['p', 'e', 'n', 'd', 'i', 'n', 'g', ' ', 'h', 'i', 's', 't', 'o',
        'r', 'y', ' ', 'p', 'u', 'b', 'l', 'i', 'c', 'a', 't', 'i', 'o', 'n']))
  m.writePreservingHistory env condition

/-- Delete the ref if its value is `expected`. -/
def deleteIfMatches (env : MutationEnv) (expected : Hash) : Except RefError Unit := do
  m.check (.matching expected)
  env.invalidate_history
  match env.remove_file with
  | .ok () => env.sync_dir
  | .error .notFound => throw (.conflict m.name)
  | .error .other => throw .io

end RefMutation

/-- What the listing learns of a ref file. -/
inductive RefReadOutcome where
  | unreadable
  | decoded (hash : Option Hash)
deriving DecidableEq

/-- The stack buffer of the listing. -/
def REF_READ_BUF : ℕ := 256

/-- Read a ref file for the listing: one read into a buffer, and all of it again when the buffer
is full. -/
def readRefCandidate (path : Path) : RefReadOutcome :=
  match path.openFile with
  | .ok (.file data _ _) =>
    let n := min data.length REF_READ_BUF
    if n < REF_READ_BUF then .decoded (decodeRefWire (data.take n))
    else
      match path.read with
      | .ok bytes => .decoded (decodeRefWire bytes)
      | .error _ => .unreadable
  | _ => .unreadable

/-! ### The readers on a file -/

/-- The answer for a ref with this value, `none` when it is malformed. -/
def reported (name : Bytes) : Option Hash → Except RefError (Option Hash)
  | some h => .ok (some h)
  | none => .error (.invalidRef name)

section

variable {common_dir : Path} {sub_dir : List Bytes} {name data : Bytes} {mtime : ℕ} {path : Path}

theorem read_of_file (hp : path.metadata = .ok (.file data mtime true)) : path.read = .ok data := by
  rw [Path.read, hp]
  rfl

theorem readRefUnder_of_file
    (hp : (refPath common_dir sub_dir name).metadata = .ok (.file data mtime true)) :
    readRefUnder common_dir sub_dir name =
      if REF_FILE_MAX_BYTES < data.length then .error (.invalidRef name)
      else reported name (decodeRefWire data) := by
  have hread := read_of_file hp
  rw [refPath] at hp hread
  rw [readRefUnder, hp, hread]
  rfl

theorem RefMutation.current_of_file (hp : path.metadata = .ok (.file data mtime true)) :
    RefMutation.current ⟨path, name⟩ = reported name (decodeRefWire data) := by
  rw [RefMutation.current, read_of_file hp]
  rfl

/-- The listing decodes the whole file, whether or not it fits the buffer. -/
theorem readRefCandidate_of_file (hp : path.metadata = .ok (.file data mtime true)) :
    readRefCandidate path = .decoded (decodeRefWire data) := by
  have hopen : path.openFile = .ok (.file data mtime true) := by
    rw [Path.openFile, hp]
    rfl
  rw [readRefCandidate, hopen]
  dsimp only
  by_cases hshort : data.length < REF_READ_BUF
  · rw [if_pos (by omega), min_eq_left (by omega), List.take_length]
  · rw [if_neg (by omega), read_of_file hp]

/-- A condition on the value of a file holds exactly when the file decodes to that value. -/
theorem RefMutation.check_matching_iff (hp : path.metadata = .ok (.file data mtime true))
    {h : Hash} :
    RefMutation.check ⟨path, name⟩ (.matching h) = .ok () ↔ decodeRefWire data = some h := by
  rw [RefMutation.check, RefMutation.current_of_file hp]
  cases hd : decodeRefWire data with
  | none => simp [reported, bind, Except.bind]
  | some g =>
    by_cases hg : g = h <;>
      simp [reported, hg, bind, Except.bind, pure, Except.pure, throw, throwThe,
        MonadExceptOf.throw]

end

/-- Conditional writes and deletes go through only after their check. -/
theorem RefMutation.check_of_write {m : RefMutation} {env : MutationEnv} {target : Hash}
    {condition : RefWriteCondition} (h : m.write env target condition = .ok ()) :
    m.check condition = .ok () := by
  rw [RefMutation.write, Wire.bind_eq_ok] at h
  obtain ⟨⟨⟩, hcheck, -⟩ := h
  exact hcheck

theorem RefMutation.check_of_delete {m : RefMutation} {env : MutationEnv} {expected : Hash}
    (h : m.deleteIfMatches env expected = .ok ()) : m.check (.matching expected) = .ok () := by
  rw [RefMutation.deleteIfMatches, Wire.bind_eq_ok] at h
  obtain ⟨⟨⟩, hcheck, -⟩ := h
  exact hcheck

/-! ### Agreement -/

/-- The readers give one answer, which is `h` exactly when the file spells `h` within the cap,
and no write or delete conditional on `h` goes through unless `read_ref` reports `h`. -/
structure ReadersAgree (common_dir : Path) (sub_dir : List Bytes) (name data : Bytes) :
    Prop where
  answer : ∃ value : Option Hash,
    readRefUnder common_dir sub_dir name = reported name value ∧
    RefMutation.current ⟨refPath common_dir sub_dir name, name⟩ = reported name value ∧
    readRefCandidate (refPath common_dir sub_dir name) = .decoded value ∧
    ∀ h, value = some h ↔ data.length ≤ REF_FILE_MAX_BYTES ∧ Spells data h
  guarded : ∀ env h,
    (∃ target, RefMutation.write ⟨refPath common_dir sub_dir name, name⟩ env target
      (.matching h) = .ok ()) ∨
      RefMutation.deleteIfMatches ⟨refPath common_dir sub_dir name, name⟩ env h = .ok () →
    readRefUnder common_dir sub_dir name = .ok (some h)

variable {common_dir : Path} {sub_dir : List Bytes} {name data : Bytes} {mtime : ℕ}

/-- **The readers of a ref file agree**, unless the file is longer than the cap and still spells
a digest. -/
theorem readers_agree_iff
    (hp : (refPath common_dir sub_dir name).metadata = .ok (.file data mtime true)) :
    ReadersAgree common_dir sub_dir name data ↔
      data.length ≤ REF_FILE_MAX_BYTES ∨ ∀ h, ¬ Spells data h := by
  have hunder := readRefUnder_of_file hp
  have hcurrent : RefMutation.current ⟨refPath common_dir sub_dir name, name⟩ =
      reported name (decodeRefWire data) := RefMutation.current_of_file hp
  constructor
  · intro hagree
    obtain ⟨value, hv, hv', -, -⟩ := hagree.answer
    rw [or_iff_not_imp_left]
    intro hlong h hspells
    -- the file spells `h` past the cap: one reader refuses it, the other reads it
    rw [hunder, if_pos (not_le.1 hlong)] at hv
    rw [hcurrent, decodeRefWire_eq_some_iff.2 hspells, ← hv] at hv'
    cases hv'
  · intro hcond
    have hvalue : ∀ h, decodeRefWire data = some h ↔
        data.length ≤ REF_FILE_MAX_BYTES ∧ Spells data h := by
      intro h
      rw [decodeRefWire_eq_some_iff]
      exact ⟨fun hs => ⟨hcond.resolve_right fun hno => hno h hs, hs⟩, And.right⟩
    have hunder : readRefUnder common_dir sub_dir name = reported name (decodeRefWire data) := by
      rw [hunder]
      split_ifs with hlong
      · cases hd : decodeRefWire data with
        | none => rfl
        | some h => exact absurd ((hvalue h).1 hd).1 (not_le.2 hlong)
      · rfl
    refine ⟨⟨_, hunder, hcurrent, readRefCandidate_of_file hp, hvalue⟩, ?_⟩
    rintro env h (⟨target, hwrite⟩ | hdelete)
    · rw [hunder, (RefMutation.check_matching_iff hp).1 (RefMutation.check_of_write hwrite)]
      rfl
    · rw [hunder, (RefMutation.check_matching_iff hp).1 (RefMutation.check_of_delete hdelete)]
      rfl

/-! ### A file past the cap -/

/-- The branch name of the samples, `m`. -/
def refSampleName : Bytes := ascii ['m']

/-- A repository directory with one branch whose file has this content. -/
def refSampleDir (content : Bytes) : Path :=
  .ok (.dir 0 true
    [(ascii ['r', 'e', 'f', 's'], .dir 0 true
      [(ascii ['h', 'e', 'a', 'd', 's'], .dir 0 true [(refSampleName, .file content 0 true)])])])

/-- The digits of the zero digest and 65 spaces: 129 bytes. -/
def overlongRef : Bytes := toHex ZERO ++ List.replicate 65 0x20

/-- Nothing fails. -/
def MutationEnv.smooth : MutationEnv where
  invalidate_history := .ok ()
  pending := .ok false
  write_create_new := .ok true
  write_atomic := .ok ()
  remove_file := .ok ()
  sync_dir := .ok ()

/-- The readers agree on what is written. -/
theorem readers_agree_iff_written :
    ReadersAgree (refSampleDir (encodeRefWire ZERO)) HEADS_DIR refSampleName (encodeRefWire ZERO) :=
  (readers_agree_iff (rfl : (refPath (refSampleDir (encodeRefWire ZERO)) HEADS_DIR
    refSampleName).metadata = .ok (.file (encodeRefWire ZERO) 0 true))).2 (.inl (by decide))

/-- `read_ref` calls the overlong file malformed, the listing and the conditional operations
take it for the zero digest, and a write and a delete conditional on it go through. -/
theorem readers_disagree_overlong :
    ¬ ReadersAgree (refSampleDir overlongRef) HEADS_DIR refSampleName overlongRef ∧
    readRefUnder (refSampleDir overlongRef) HEADS_DIR refSampleName =
      .error (.invalidRef refSampleName) ∧
    readRefCandidate (refPath (refSampleDir overlongRef) HEADS_DIR refSampleName) =
      .decoded (some ZERO) ∧
    RefMutation.write ⟨refPath (refSampleDir overlongRef) HEADS_DIR refSampleName, refSampleName⟩
      .smooth ZERO (.matching ZERO) = .ok () ∧
    RefMutation.deleteIfMatches
      ⟨refPath (refSampleDir overlongRef) HEADS_DIR refSampleName, refSampleName⟩ .smooth ZERO =
        .ok () := by
  have hunder : readRefUnder (refSampleDir overlongRef) HEADS_DIR refSampleName =
      .error (.invalidRef refSampleName) := by decide +kernel
  have hwrite : RefMutation.write
      ⟨refPath (refSampleDir overlongRef) HEADS_DIR refSampleName, refSampleName⟩ .smooth ZERO
        (.matching ZERO) = .ok () := by decide +kernel
  refine ⟨fun hagree => ?_, hunder, by decide +kernel, hwrite, by decide +kernel⟩
  have hread := hagree.guarded .smooth ZERO (.inl ⟨ZERO, hwrite⟩)
  rw [hunder] at hread
  cases hread

end Mkit
