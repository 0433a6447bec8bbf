import Mkit.Index
import Mkit.Lib.Closure
import Mkit.Refs
import Mkit.TreeMerge

/-!
# The State of a Worktree

The small files in which a worktree keeps what it points at, and their readers: `HEAD`
(`refs.rs`), the stash (`ops/stash.rs`), the heads of an unfinished merge, cherry-pick or
revert and the conflict sidecar (`ops/conflict_state.rs`), and the directory of an unfinished
rebase (`ops/rebase.rs`).

A file that is not there means that nothing is recorded. A file that is there and cannot be
read or parsed is an error.
-/

namespace Mkit

open Wire Text FileTree

/-- Where a worktree keeps its state: the directory all worktrees share, and its own. For the
main worktree the two are the same. -/
structure RepoLayout where
  common_dir : Path
  worktree_state_dir : Path

/-! ### HEAD -/

/-- Longest `HEAD` file, 4 KiB. -/
def HEAD_MAX_BYTES : ℕ := 4 * 1024

/-- Longest ref file. -/
def REF_FILE_MAX_BYTES : ℕ := 128

/-- What `HEAD` starts with when it names a branch. -/
def HEAD_REF_PREFIX : Bytes :=
  ascii ['r', 'e', 'f', ':', ' '] ++ BRANCH_REF_PREFIX

/-- What `HEAD` points at. -/
inductive Head where
  | branch (name : Bytes)
  | detached (h : Hash)
deriving DecidableEq

/-- `HEAD`. -/
def RepoLayout.headFile (l : RepoLayout) : Path :=
  l.worktree_state_dir.join (ascii ['H', 'E', 'A', 'D'])

/-- `refs/heads`. -/
def HEADS_DIR : List Bytes := [ascii ['r', 'e', 'f', 's'], ascii ['h', 'e', 'a', 'd', 's']]

/-- `refs/tags`. -/
def TAGS_DIR : List Bytes := [ascii ['r', 'e', 'f', 's'], ascii ['t', 'a', 'g', 's']]

/-- `refs/remotes`. -/
def REMOTES_DIR : List Bytes :=
  [ascii ['r', 'e', 'f', 's'], ascii ['r', 'e', 'm', 'o', 't', 'e', 's']]

/-- The whitespace state files may end with: `\n`, `\r`, space and tab. -/
def LINE_END : Bytes := [0x0a, 0x0d, 0x20, 0x09]

/-- Read `HEAD`. -/
def readHead (l : RepoLayout) : Except RefError Head := do
  match ← (present l.headFile.metadata).mapError fun _ => .io with
  | none => .error .noHead
  | some node =>
    if node.len > HEAD_MAX_BYTES then .error .invalidHead
    else do
      let raw ← l.headFile.read.mapError fun _ => .io
      if !isUtf8 raw then .error .invalidHead
      else
        let trimmed := trimEndMatches LINE_END raw
        if HEAD_REF_PREFIX.isPrefixOf trimmed then
          let branch := trimmed.drop HEAD_REF_PREFIX.length
          if validateRefNameGrammar branch then .ok (.branch branch) else .error .invalidHead
        else if trimmed.length = HEX_LEN then
          match parseLowercaseHash trimmed with
          | some h => .ok (.detached h)
          | none => .error .invalidHead
        else .error .invalidHead

/-- Read the ref `name` below a ref directory. -/
def readRefUnder (common_dir : Path) (sub_dir : List Bytes) (name : Bytes) :
    Except RefError (Option Hash) := do
  let path := (common_dir.joinAll sub_dir).joinAll (name.splitOn SLASH)
  match ← (present path.metadata).mapError fun _ => .io with
  | none => pure none
  | some node =>
    if node.len > REF_FILE_MAX_BYTES then .error (.invalidRef name)
    else do
      let bytes ← path.read.mapError fun _ => .io
      match decodeRefWire bytes with
      | some h => .ok (some h)
      | none => .error (.invalidRef name)

/-- Read a branch. -/
def readRef (l : RepoLayout) (branch : Bytes) : Except RefError (Option Hash) :=
  if validateRefNameGrammar branch then readRefUnder l.common_dir HEADS_DIR branch
  else .error (.invalidRefName branch)

/-- The commit `HEAD` stands for; none when there is no `HEAD`, or its branch has no commit
yet. -/
def resolveHead (l : RepoLayout) : Except RefError (Option Hash) :=
  match readHead l with
  | .error .noHead => .ok none
  | .error e => .error e
  | .ok (.branch name) => readRef l name
  | .ok (.detached h) => .ok (some h)

/-! ### The stash -/

/-- The magic of the stash manifest. -/
def STASH_MAGIC : Bytes := ascii ['M', 'K', 'S', 'T']

/-- Longest stash manifest, 16 MiB. -/
def MAX_MANIFEST_BYTES : ℕ := 16 * 1024 * 1024

/-- Shortest stash entry on the wire. -/
def MIN_ENTRY_BYTES : ℕ := 32 + 32 + 4 + 2

/-- Failures of the stash. -/
inductive StashError where
  | invalidFormat
  | manifestTooLarge
  | io
deriving DecidableEq

/-- One entry of the stash. -/
structure StashEntry where
  commit_hash : Hash
  parent_hash : Hash
  timestamp : UInt32
  message : Bytes
deriving DecidableEq

/-- One round of the entry loop. -/
def readStashEntry : Parser StashError StashEntry := do
  Wire.need .invalidFormat MIN_ENTRY_BYTES
  let commit_hash ← ByteArr.read .invalidFormat HASH_LEN
  let parent_hash ← ByteArr.read .invalidFormat HASH_LEN
  let timestamp ← word .invalidFormat 4 UInt32.ofNat
  let msg_len ← word .invalidFormat 2 UInt16.ofNat
  let message ← take .invalidFormat msg_len.toNat
  if !isUtf8 message then throw .invalidFormat
  else pure { commit_hash, parent_hash, timestamp, message }

/-- Decode the stash manifest. -/
def deserializeList (data : Bytes) : Except StashError (List StashEntry) :=
  if data.length < 8 then .error .invalidFormat
  else if data.take 4 ≠ STASH_MAGIC then .error .invalidFormat
  else
    let count := ofLeBytes ((data.drop 4).take 4)
    if count * MIN_ENTRY_BYTES > data.length then .error .invalidFormat
    else do
      let (entries, _) ← repeatWith (fun _ => readStashEntry) count [] (data.drop 8)
      pure entries

/-- Read the stash of a worktree. -/
def stashList (l : RepoLayout) : Except StashError (List StashEntry) := do
  let path := l.worktree_state_dir.join (ascii ['s', 't', 'a', 's', 'h'])
  match ← (present path.metadata).mapError fun _ => .io with
  | none => pure []
  | some node =>
    if node.len = 0 then pure []
    else if node.len > MAX_MANIFEST_BYTES then .error .manifestTooLarge
    else do
      let data ← path.read.mapError fun _ => .io
      deserializeList data

/-! ### Unfinished merges, cherry-picks and reverts -/

/-- Longest state file that is read back, 1 MiB. -/
def MAX_STATE_BYTES : ℕ := 1024 * 1024

/-- Failures of the conflict state. -/
inductive ConflictStateError where
  | invalid
  | io
deriving DecidableEq

/-- Read a state file as text. -/
def readText (path : Path) (cap : ℕ) : Except IoError Bytes := do
  let raw ← path.readCapped cap
  if isUtf8 raw then .ok raw else .error .other

/-- Read a state file that holds one id. -/
def readHexFile (path : Path) : Except ConflictStateError (Option Hash) := do
  match ← (present (readText path MAX_STATE_BYTES)).mapError fun _ => .io with
  | none => pure none
  | some raw =>
    let trimmed := trimEndMatches LINE_END raw
    if trimmed.length ≠ HEX_LEN then .error .invalid
    else
      match fromHex trimmed with
      | some h => .ok (some h)
      | none => .error .invalid

/-- The state of an unfinished operation: the commit it applies, `HEAD` before it, and the
pending message. -/
structure PickState where
  head : Hash
  orig_head : Hash
  message : Bytes
deriving DecidableEq

/-- `ORIG_HEAD`. -/
def RepoLayout.origHeadFile (l : RepoLayout) : Path :=
  l.worktree_state_dir.join (ascii ['O', 'R', 'I', 'G', '_', 'H', 'E', 'A', 'D'])

/-- Read the state of an unfinished operation from the file that names its commit and the file
that holds its message. -/
def readPickState (l : RepoLayout) (head msg : Bytes) :
    Except ConflictStateError (Option PickState) := do
  match ← readHexFile (l.worktree_state_dir.join head) with
  | none => pure none
  | some h => do
    match ← readHexFile l.origHeadFile with
    | none => .error .invalid
    | some orig_head => do
      let message ← (present (l.worktree_state_dir.join msg).read).mapError fun _ => .io
      pure (some ⟨h, orig_head, message.getD []⟩)

/-- The state of an unfinished merge. -/
def readMergeState (l : RepoLayout) : Except ConflictStateError (Option PickState) :=
  readPickState l (ascii ['M', 'E', 'R', 'G', 'E', '_', 'H', 'E', 'A', 'D'])
    (ascii ['M', 'E', 'R', 'G', 'E', '_', 'M', 'S', 'G'])

/-- The state of an unfinished cherry-pick. -/
def readCherryPickState (l : RepoLayout) : Except ConflictStateError (Option PickState) :=
  readPickState l
    (ascii ['C', 'H', 'E', 'R', 'R', 'Y', '_', 'P', 'I', 'C', 'K', '_', 'H', 'E', 'A', 'D'])
    (ascii ['C', 'H', 'E', 'R', 'R', 'Y', '_', 'P', 'I', 'C', 'K', '_', 'M', 'S', 'G'])

/-- The state of an unfinished revert. -/
def readRevertState (l : RepoLayout) : Except ConflictStateError (Option PickState) :=
  readPickState l (ascii ['R', 'E', 'V', 'E', 'R', 'T', '_', 'H', 'E', 'A', 'D'])
    (ascii ['R', 'E', 'V', 'E', 'R', 'T', '_', 'M', 'S', 'G'])

/-! ### The conflict sidecar -/

/-- One recorded conflict: a missing side is none. -/
structure ConflictRecord where
  path : Bytes
  kind : ConflictKind
  base_hash : Option Hash
  ours_hash : Option Hash
  theirs_hash : Option Hash
deriving DecidableEq

/-- The kind a tag names. -/
def kindFromTag (tag : Bytes) : Option ConflictKind :=
  if tag = ascii ['m', 'o', 'd', 'i', 'f', 'y'] then some .modifyModify
  else if tag = ascii ['a', 'd', 'd', 'a', 'd', 'd'] then some .addAdd
  else if tag = ascii ['d', 'e', 'l', 'e', 't', 'e', 'm', 'o', 'd', 'i', 'f', 'y'] then
    some .deleteModify
  else none

/-- An id or `-`. -/
def parseHexOrDash (field : Bytes) : Except ConflictStateError (Option Hash) :=
  if field = ascii ['-'] then .ok none
  else if field.length ≠ HEX_LEN then .error .invalid
  else
    match fromHex field with
    | some h => .ok (some h)
    | none => .error .invalid

/-- `\t`. -/
def TAB : UInt8 := 0x09

/-- One line of the sidecar: kind, base, ours, theirs and path. -/
def parseConflict (line : Bytes) : Except ConflictStateError ConflictRecord :=
  match splitn TAB 5 line with
  | [tag, base, ours, theirs, path] =>
    match kindFromTag tag with
    | none => .error .invalid
    | some kind =>
      if !validateIndexPath path then .error .invalid
      else do
        let base_hash ← parseHexOrDash base
        let ours_hash ← parseHexOrDash ours
        let theirs_hash ← parseHexOrDash theirs
        pure { path, kind, base_hash, ours_hash, theirs_hash }
  | _ => .error .invalid

/-- Parse the sidecar. -/
def deserializeConflicts (data : Bytes) : Except ConflictStateError (List ConflictRecord) :=
  if !isUtf8 data then .error .invalid
  else ((data.splitOn NEWLINE).filter fun line => !line.isEmpty).mapM parseConflict

/-- Read the sidecar of a state directory; no file is no conflict. -/
def readConflicts (dir : Path) : Except ConflictStateError (List ConflictRecord) := do
  let path := dir.join (ascii ['m', 'k', 'i', 't', '-', 'c', 'o', 'n', 'f', 'l', 'i', 'c', 't', 's'])
  match ← (present (readText path MAX_STATE_BYTES)).mapError fun _ => .io with
  | none => pure []
  | some raw => deserializeConflicts raw

/-! ### Unfinished rebases -/

/-- Longest `head-name` file. -/
def MAX_HEAD_NAME_BYTES : ℕ := 4096

/-- Longest file with one id. -/
def MAX_HASH_FILE_BYTES : ℕ := 128

/-- Longest list of ids, 1 MiB. -/
def MAX_HASH_LIST_BYTES : ℕ := 1024 * 1024

/-- Failures of the rebase state. -/
inductive RebaseError where
  | noRebaseInProgress
  | invalidRebaseState
  | io
deriving DecidableEq

/-- What happens to a commit when it is replayed. -/
inductive RebaseAction where
  | pick
  | reword
  | squash
  | fixup
deriving DecidableEq

/-- The action a keyword names. -/
def RebaseAction.fromKeyword (s : Bytes) : Option RebaseAction :=
  if s = ascii ['p', 'i', 'c', 'k'] then some .pick
  else if s = ascii ['r', 'e', 'w', 'o', 'r', 'd'] then some .reword
  else if s = ascii ['s', 'q', 'u', 'a', 's', 'h'] then some .squash
  else if s = ascii ['f', 'i', 'x', 'u', 'p'] then some .fixup
  else none

/-- The state of an unfinished rebase. -/
structure RebaseState where
  head_name : Bytes
  orig_head : Hash
  onto : Hash
  todo : List Hash
  actions : List RebaseAction
  done : List Hash
deriving DecidableEq

/-- `rebase-apply/`. -/
def RepoLayout.rebaseDir (l : RepoLayout) : Path :=
  l.worktree_state_dir.join (ascii ['r', 'e', 'b', 'a', 's', 'e', '-', 'a', 'p', 'p', 'l', 'y'])

/-- Is a rebase unfinished? -/
def isRebaseInProgress (l : RepoLayout) : Bool :=
  l.rebaseDir.isDir

/-- Strip the trailing `\n`, `\r` and spaces. -/
def trimTrailing (s : Bytes) : Bytes :=
  trimEndMatches [0x0a, 0x0d, 0x20] s

/-- Read a file with one id. -/
def readHexHash (path : Path) : Except RebaseError Hash := do
  let raw ← (readText path MAX_HASH_FILE_BYTES).mapError fun _ => .invalidRebaseState
  match fromHex (trimTrailing raw) with
  | some h => .ok h
  | none => .error .invalidRebaseState

/-- One line of a list of ids; none for a blank line. -/
def parseHashLine (line : Bytes) : Except RebaseError (List Hash) :=
  let line := trimEndMatches [0x0d, 0x20] line
  if line.isEmpty then .ok []
  else if line.length ≠ HEX_LEN then .error .invalidRebaseState
  else
    match fromHex line with
    | some h => .ok [h]
    | none => .error .invalidRebaseState

/-- Read a list of ids; no file is an empty list. -/
def readHashList (path : Path) : Except RebaseError (List Hash) := do
  match ← (present (readText path MAX_HASH_LIST_BYTES)).mapError fun _ => .io with
  | none => pure []
  | some raw => Closure.gather parseHashLine ((trimTrailing raw).splitOn NEWLINE)

/-- One line of the action list; none for a blank line. -/
def parseActionLine (line : Bytes) : Except RebaseError (List RebaseAction) :=
  let line := trim line
  if line.isEmpty then .ok []
  else
    match RebaseAction.fromKeyword line with
    | some a => .ok [a]
    | none => .error .invalidRebaseState

/-- Read the actions, as many as there are commits to replay; what is missing is `pick`. -/
def readActions (path : Path) (todo_len : ℕ) : Except RebaseError (List RebaseAction) := do
  match ← (present (readText path MAX_HASH_LIST_BYTES)).mapError fun _ => .io with
  | none => pure (List.replicate todo_len .pick)
  | some raw => do
    let out ← Closure.gather parseActionLine ((trimTrailing raw).splitOn NEWLINE)
    pure (out.take todo_len ++ List.replicate (todo_len - out.length) .pick)

/-- Read the state of an unfinished rebase. -/
def readRebaseState (l : RepoLayout) : Except RebaseError RebaseState :=
  let dir := l.rebaseDir
  if !dir.isDir then .error .noRebaseInProgress
  else do
    let head_name ← (readText (dir.join (ascii ['h', 'e', 'a', 'd', '-', 'n', 'a', 'm', 'e']))
      MAX_HEAD_NAME_BYTES).mapError fun _ => .invalidRebaseState
    let orig_head ← readHexHash (dir.join (ascii ['o', 'r', 'i', 'g', '-', 'h', 'e', 'a', 'd']))
    let onto ← readHexHash (dir.join (ascii ['o', 'n', 't', 'o']))
    let todo ← readHashList (dir.join (ascii ['t', 'o', 'd', 'o']))
    let done ← readHashList (dir.join (ascii ['d', 'o', 'n', 'e']))
    let actions ← readActions (dir.join (ascii ['a', 'c', 't', 'i', 'o', 'n', 's'])) todo.length
    pure ⟨trimTrailing head_name, orig_head, onto, todo, actions, done⟩

end Mkit
