import Mkit.AncestryState
import Mkit.Graph
import Mkit.WorktreeState

/-!
# Retention Roots

The ids that garbage collection must treat as live (`ops/gc.rs`): everything the refs, the
worktrees, the attestations, the pending history publications and the recovery log point at.
A source that cannot be read fails the whole collection; none is skipped.

`collectRoots` is the collector. `RetentionRoot` says the same without it, source by source,
and `mem_collectRoots` that a collection which succeeds has found exactly the roots.
-/

namespace Mkit

open Text FileTree Closure

/-! ### The recovery log -/

/-- Failures of the recovery log. -/
inductive RecoveryError where
  | io
  | badHash
  | malformed (line : Bytes)
deriving DecidableEq

/-- A commit superseded by a rewrite of history. -/
structure RecoveryEntry where
  timestamp : ℕ
  op : Bytes
  superseded : Hash
  branch : Bytes
deriving DecidableEq

/-- One line of the log: time, operation, superseded commit and branch. -/
def parseLine (line : Bytes) : Except RecoveryError RecoveryEntry :=
  match splitn TAB 4 line with
  | [ts, op, hex, branch] =>
    match parseU64 ts with
    | none => .error (.malformed line)
    | some timestamp =>
      match fromHex hex with
      | none => .error .badHash
      | some superseded => .ok { timestamp, op, superseded, branch }
  | _ => .error (.malformed line)

/-- `read_to_string`. -/
def readToString (path : Path) : Except IoError Bytes := do
  let raw ← path.read
  if isUtf8 raw then .ok raw else .error .other

/-- Read the recovery log, oldest entry first. -/
def readRecoveryLog (common_dir : Path) : Except RecoveryError (List RecoveryEntry) := do
  let path := common_dir.join
    (ascii ['r', 'e', 'c', 'o', 'v', 'e', 'r', 'y', '-', 'l', 'o', 'g'])
  match ← (present (readToString path)).mapError fun _ => .io with
  | none => pure []
  | some raw => ((lines raw).filter fun l => !l.isEmpty).mapM parseLine

/-! ### The collector -/

/-- Failures of a collection, by source. -/
inductive GcRootsError where
  | refs (e : RefError)
  | stash (e : StashError)
  | conflictState (e : ConflictStateError)
  | rebase (e : RebaseError)
  | recovery (e : RecoveryError)
  | index (e : IndexError)
  | store (e : StoreError)
  | badHash
  | io
  | truncated
  | refTooDeep (rel : Bytes)
  | symlinkedStore
  | worktrees
deriving DecidableEq

/-- Depth cap of the ref walk. -/
def MAX_REF_WALK_DEPTH : ℕ := 64

/-- A ref file: its content is an id, whatever whitespace surrounds it. -/
def refFileRoot (node : Node) : Except GcRootsError (List Hash) := do
  let raw ← (readToString (.ok node)).mapError fun _ => .io
  match fromHex (trim raw) with
  | some h => .ok [h]
  | none => .error .badHash

/-- Walk a ref directory, `levels` more levels deep at most. Links and other non-files are
passed over, and so are files whose name starts with a dot. -/
def walkRefRootsStrict : ℕ → Path → Bytes → Except GcRootsError (List Hash)
  | 0, _, rel => .error (.refTooDeep rel)
  | levels + 1, dir, rel => do
    match ← (present dir.readDir).mapError fun _ => .io with
    | none => pure []
    | some entries =>
      gather (fun entry : Bytes × Node =>
        match entry.2 with
        | .fault => .error .io
        | .dir _ _ _ => walkRefRootsStrict levels (.ok entry.2) (rel ++ SLASH :: entry.1)
        | .file _ _ _ => if entry.1.head? = some 0x2e then .ok [] else refFileRoot entry.2
        | _ => .ok []) entries

/-- The worktrees whose state must be kept: the main one and every directory registered below
`worktrees/`, in the order of their names. An entry whose directory is gone has no state. -/
def allStateLayouts (l : RepoLayout) : Except GcRootsError (List RepoLayout) := do
  let dir := l.common_dir.join (ascii ['w', 'o', 'r', 'k', 't', 'r', 'e', 'e', 's'])
  let registered ← (present dir.readDir).mapError fun _ => .worktrees
  let linked := (registered.getD []).filter fun entry => Path.isDir (.ok entry.2)
  let sorted := linked.insertionSort fun a b => a.1 ≤ b.1
  pure (⟨l.common_dir, l.common_dir⟩ ::
    sorted.map fun entry => ⟨l.common_dir, .ok entry.2⟩)

/-- Read an id from a file; a missing or blank file has none. -/
def readOptionalHash (path : Path) : Except GcRootsError (List Hash) := do
  match ← (present (readToString path)).mapError fun _ => .io with
  | none => pure []
  | some raw =>
    let trimmed := trim raw
    if trimmed.isEmpty then pure []
    else
      match fromHex trimmed with
      | some h => .ok [h]
      | none => .error .badHash

/-- What an unfinished operation points at. -/
def PickState.roots (st : Option PickState) : List Hash :=
  match st with
  | none => []
  | some st => [st.head, st.orig_head]

/-- What an unfinished rebase points at. -/
def RebaseState.roots (st : RebaseState) : List Hash :=
  st.orig_head :: st.onto :: (st.todo ++ st.done)

/-- The roots of an unfinished rebase, if there is one. -/
def rebaseRoots (tree : RepoLayout) : Except GcRootsError (List Hash) :=
  if isRebaseInProgress tree then do
    let st ← (readRebaseState tree).mapError .rebase
    pure st.roots
  else pure []

/-- What a recorded conflict points at. -/
def ConflictRecord.roots (c : ConflictRecord) : List Hash :=
  c.base_hash.toList ++ c.ours_hash.toList ++ c.theirs_hash.toList

/-- The roots of the conflict sidecar of a directory. -/
def conflictRoots (dir : Path) : Except GcRootsError (List Hash) := do
  let conflicts ← (readConflicts dir).mapError .conflictState
  pure (conflicts.flatMap ConflictRecord.roots)

/-- Commits with an attestation, by the names of their directories. -/
def attestedCommits (common_dir : Path) : Except GcRootsError (List Hash) := do
  let dir := common_dir.join
    (ascii ['a', 't', 't', 'e', 's', 't', 'a', 't', 'i', 'o', 'n', 's'])
  match ← (present dir.readDir).mapError fun _ => .io with
  | none => pure []
  | some entries =>
    gather (fun entry : Bytes × Node =>
      match entry.2 with
      | .fault => .error .io
      | .dir _ _ _ => .ok (fromHex entry.1).toList
      | _ => .ok []) entries

section Collect

variable (B : Blake3)

/-- What one worktree points at. -/
def collectTreeRoots (tree : RepoLayout) : Except GcRootsError (List Hash) := do
  let head ← (resolveHead tree).mapError .refs
  let stash ← (stashList tree).mapError .stash
  let index ← (readIndex B (tree.worktree_state_dir.join (ascii ['i', 'n', 'd', 'e', 'x']))).mapError
    .index
  let orig ← readOptionalHash tree.origHeadFile
  let merge ← (readMergeState tree).mapError .conflictState
  let pick ← (readCherryPickState tree).mapError .conflictState
  let revert ← (readRevertState tree).mapError .conflictState
  let rebase ← rebaseRoots tree
  let conflicts ← gather conflictRoots [tree.worktree_state_dir, tree.rebaseDir]
  pure (head.toList ++ stash.flatMap (fun e => [e.commit_hash, e.parent_hash]) ++
    index.map (·.object_hash) ++ orig ++ PickState.roots merge ++ PickState.roots pick ++
    PickState.roots revert ++ rebase ++ conflicts)

/-- What the unfinished publication of one branch points at: both sides of it. The directory
is named by the digest of the branch. -/
def pendingRoots (entry : Bytes × Node) : Except RefError (List Hash) :=
  match entry.2 with
  | .dir _ _ _ => do
    let file ← (present (Path.join (.ok entry.2)
      (ascii ['t', 'r', 'a', 'n', 's', 'a', 'c', 't', 'i', 'o', 'n'])).read).mapError
        fun _ => .io
    match ← Transaction.read B file with
    | none => pure []
    | some tx =>
      if toHex (B.hash tx.fullRef) ≠ entry.1 then
        .error (.invalidRef (ascii ['h', 'i', 's', 't', 'o', 'r', 'y', ' ', 't', 'r', 'a', 'n',
          's', 'a', 'c', 't', 'i', 'o', 'n', ' ', 'n', 'a', 'm', 'e', 's', ' ', 'a', ' ', 'd',
          'i', 'f', 'f', 'e', 'r', 'e', 'n', 't', ' ', 'b', 'r', 'a', 'n', 'c', 'h']))
      else .ok (tx.previous.toList ++ [tx.target])
  | .fault => .error .io
  | _ =>
    .error (.invalidRef (ascii ['u', 'n', 'e', 'x', 'p', 'e', 'c', 't', 'e', 'd', ' ', 'f', 'i',
      'l', 'e', ' ', 'i', 'n', ' ', 'h', 'i', 's', 't', 'o', 'r', 'y', ' ', 'b', 'r', 'a', 'n',
      'c', 'h', 'e', 's']))

/-- The branch directories of the history publications. -/
def historyBranchesDir (common_dir : Path) : Path :=
  common_dir.joinAll [ascii ['h', 'i', 's', 't', 'o', 'r', 'y', '-', 'v', '1'],
    ascii ['b', 'r', 'a', 'n', 'c', 'h', 'e', 's']]

/-- The roots of all unfinished publications. -/
def pendingHistoryRoots (common_dir : Path) : Except RefError (List Hash) := do
  match ← (present (historyBranchesDir common_dir).readDir).mapError fun _ => .io with
  | none => pure []
  | some entries => gather (pendingRoots B) entries

/-- The three ref namespaces. -/
def REF_NAMESPACES : List (List Bytes) := [HEADS_DIR, TAGS_DIR, REMOTES_DIR]

/-- The name of a namespace in messages. -/
def namespaceName (ns : List Bytes) : Bytes :=
  [SLASH].intercalate ns

/-- Collect all retention roots of a repository. The all-zero id stands for "unset" and is
left out. -/
def collectRoots (l : RepoLayout) : Except GcRootsError (List Hash) := do
  let refs ← gather (fun ns =>
    walkRefRootsStrict (MAX_REF_WALK_DEPTH + 1) (l.common_dir.joinAll ns) (namespaceName ns))
    REF_NAMESPACES
  let trees ← allStateLayouts l
  let perTree ← gather (collectTreeRoots B) trees
  let attested ← attestedCommits l.common_dir
  let pending ← (pendingHistoryRoots B l.common_dir).mapError .refs
  let log ← (readRecoveryLog l.common_dir).mapError .recovery
  let all := refs ++ perTree ++ attested ++ pending ++ log.map (·.superseded)
  pure (ascending (all.filter (· ≠ ZERO)))

end Collect

/-! ### What the roots are -/

/-- A ref file below a listed directory holds the id `h`. -/
inductive HoldsRef : List (Bytes × Node) → Hash → Prop
  | file {entries : List (Bytes × Node)} {name data : Bytes} {mtime : ℕ} {h : Hash} :
      (name, Node.file data mtime true) ∈ entries → name.head? ≠ some 0x2e →
      fromHex (trim data) = some h → HoldsRef entries h
  | dir {entries sub : List (Bytes × Node)} {name : Bytes} {len : ℕ} {listable : Bool}
      {h : Hash} :
      (name, Node.dir len listable sub) ∈ entries → HoldsRef sub h → HoldsRef entries h

/-- A worktree points at the id `h`. -/
inductive TreeRoot (B : Blake3) (tree : RepoLayout) : Hash → Prop
  | head {h : Hash} : resolveHead tree = .ok (some h) → TreeRoot B tree h
  | stash {entries : List StashEntry} {e : StashEntry} {h : Hash} :
      stashList tree = .ok entries → e ∈ entries → h = e.commit_hash ∨ h = e.parent_hash →
      TreeRoot B tree h
  | index {entries : List IndexEntry} {e : IndexEntry} :
      readIndex B (tree.worktree_state_dir.join (ascii ['i', 'n', 'd', 'e', 'x'])) = .ok entries →
      e ∈ entries → TreeRoot B tree e.object_hash
  | origHead {raw : Bytes} {h : Hash} :
      readToString tree.origHeadFile = .ok raw → fromHex (trim raw) = some h → TreeRoot B tree h
  | merge {st : PickState} {h : Hash} :
      readMergeState tree = .ok (some st) → h = st.head ∨ h = st.orig_head → TreeRoot B tree h
  | cherryPick {st : PickState} {h : Hash} :
      readCherryPickState tree = .ok (some st) → h = st.head ∨ h = st.orig_head →
      TreeRoot B tree h
  | revert {st : PickState} {h : Hash} :
      readRevertState tree = .ok (some st) → h = st.head ∨ h = st.orig_head → TreeRoot B tree h
  | rebase {st : RebaseState} {h : Hash} :
      isRebaseInProgress tree = true → readRebaseState tree = .ok st →
      h = st.orig_head ∨ h = st.onto ∨ h ∈ st.todo ∨ h ∈ st.done → TreeRoot B tree h
  | conflict {dir : Path} {conflicts : List ConflictRecord} {c : ConflictRecord} {h : Hash} :
      dir = tree.worktree_state_dir ∨ dir = tree.rebaseDir → readConflicts dir = .ok conflicts →
      c ∈ conflicts →
      c.base_hash = some h ∨ c.ours_hash = some h ∨ c.theirs_hash = some h → TreeRoot B tree h

/-- The worktrees of a repository that have state. -/
inductive StateTree (l : RepoLayout) : RepoLayout → Prop
  | main : StateTree l ⟨l.common_dir, l.common_dir⟩
  | linked {entries : List (Bytes × Node)} {id : Bytes} {node : Node} :
      (l.common_dir.join (ascii ['w', 'o', 'r', 'k', 't', 'r', 'e', 'e', 's'])).readDir =
        .ok entries →
      (id, node) ∈ entries → Path.isDir (.ok node) = true →
      StateTree l ⟨l.common_dir, .ok node⟩

/-- The repository points at the id `h`. -/
inductive RetentionRoot (B : Blake3) (l : RepoLayout) : Hash → Prop
  | ref {ns : List Bytes} {entries : List (Bytes × Node)} {h : Hash} :
      ns = HEADS_DIR ∨ ns = TAGS_DIR ∨ ns = REMOTES_DIR →
      (l.common_dir.joinAll ns).readDir = .ok entries → HoldsRef entries h →
      RetentionRoot B l h
  | tree {tree : RepoLayout} {h : Hash} :
      StateTree l tree → TreeRoot B tree h → RetentionRoot B l h
  | attestation {entries : List (Bytes × Node)} {name : Bytes} {len : ℕ} {listable : Bool}
      {sub : List (Bytes × Node)} {h : Hash} :
      (l.common_dir.join
        (ascii ['a', 't', 't', 'e', 's', 't', 'a', 't', 'i', 'o', 'n', 's'])).readDir =
          .ok entries →
      (name, Node.dir len listable sub) ∈ entries → fromHex name = some h → RetentionRoot B l h
  | pending {entries : List (Bytes × Node)} {entry : Bytes × Node} {file : Option Bytes}
      {tx : Transaction} {h : Hash} :
      (historyBranchesDir l.common_dir).readDir = .ok entries → entry ∈ entries →
      present (Path.join (.ok entry.2)
        (ascii ['t', 'r', 'a', 'n', 's', 'a', 'c', 't', 'i', 'o', 'n'])).read = .ok file →
      Transaction.read B file = .ok (some tx) → tx.previous = some h ∨ tx.target = h →
      RetentionRoot B l h
  | recovery {log : List RecoveryEntry} {e : RecoveryEntry} :
      readRecoveryLog l.common_dir = .ok log → e ∈ log → RetentionRoot B l e.superseded

/-! ### The collector finds them -/

theorem readToString_eq_ok {path : Path} {raw : Bytes} :
    readToString path = .ok raw ↔ path.read = .ok raw ∧ isUtf8 raw = true := by
  rw [readToString, Wire.bind_eq_ok]
  constructor
  · rintro ⟨raw', hread, h⟩
    split at h
    · rename_i hutf
      obtain rfl : raw' = raw := Except.ok.inj h
      exact ⟨hread, hutf⟩
    · cases h
  · rintro ⟨hread, hutf⟩
    exact ⟨raw, hread, if_pos hutf⟩

/-- A ref file that can be collected gives the id it holds. -/
theorem refFileRoot_eq_ok {data : Bytes} {mtime : ℕ} {readable : Bool} {out : List Hash}
    (hout : refFileRoot (.file data mtime readable) = .ok out) :
    readable = true ∧ ∀ h, h ∈ out ↔ fromHex (trim data) = some h := by
  rw [refFileRoot, Wire.bind_eq_ok] at hout
  obtain ⟨raw, hraw, hout⟩ := hout
  rw [Wire.mapError_eq_ok, readToString_eq_ok] at hraw
  cases readable with
  | false => cases hraw.1
  | true =>
    obtain rfl : data = raw := Except.ok.inj hraw.1
    refine ⟨rfl, fun h => ?_⟩
    cases hx : fromHex (trim data) with
    | none =>
      simp only [hx] at hout
      cases hout
    | some h' =>
      simp only [hx] at hout
      obtain rfl : [h'] = out := Except.ok.inj hout
      simp [eq_comm]

/-- The ref walk finds exactly the ids held below the directory. -/
theorem mem_walkRefRootsStrict {levels : ℕ} {dir : Path} {rel : Bytes} {out : List Hash}
    (hout : walkRefRootsStrict levels dir rel = .ok out) (h : Hash) :
    h ∈ out ↔ ∃ entries, dir.readDir = .ok entries ∧ HoldsRef entries h := by
  induction levels generalizing dir rel out h with
  | zero => cases hout
  | succ levels ih =>
    rw [walkRefRootsStrict, bind_present_eq_ok] at hout
    rcases hout with ⟨entries, hdir, hout⟩ | ⟨hdir, hout⟩
    · obtain ⟨hall, hmem⟩ := gather_eq_ok hout
      rw [hmem]
      constructor
      · rintro ⟨⟨name, node⟩, he, hs, hfound, hh⟩
        refine ⟨entries, hdir, ?_⟩
        cases node with
        | fault => cases hfound
        | dir len listable sub =>
          obtain ⟨sub', hsub, hh⟩ := (ih hfound h).1 hh
          cases listable with
          | false => cases hsub
          | true =>
            obtain rfl : sub = sub' := Except.ok.inj hsub
            exact .dir he hh
        | file data mtime readable =>
          dsimp only at hfound
          split at hfound
          · obtain rfl : [] = hs := Except.ok.inj hfound
            cases hh
          · rename_i hdot
            obtain ⟨rfl, hfile⟩ := refFileRoot_eq_ok hfound
            exact .file he hdot ((hfile h).1 hh)
        | symlink target =>
          obtain rfl : [] = hs := Except.ok.inj hfound
          cases hh
        | dangling =>
          obtain rfl : [] = hs := Except.ok.inj hfound
          cases hh
        | special =>
          obtain rfl : [] = hs := Except.ok.inj hfound
          cases hh
      · rintro ⟨entries', hdir', hh⟩
        rw [hdir] at hdir'
        obtain rfl : entries = entries' := Except.ok.inj hdir'
        cases hh with
        | file he hdot hx =>
          obtain ⟨hs, hfound⟩ := hall _ he
          refine ⟨_, he, hs, hfound, ?_⟩
          dsimp only at hfound
          rw [if_neg hdot] at hfound
          exact ((refFileRoot_eq_ok hfound).2 h).2 hx
        | @dir _ sub name len listable _ he hsub =>
          obtain ⟨hs, hfound⟩ := hall _ he
          refine ⟨_, he, hs, hfound, (ih hfound h).2 ?_⟩
          cases listable with
          | true => exact ⟨sub, rfl, hsub⟩
          | false =>
            -- A directory that cannot be listed fails the walk.
            cases levels with
            | zero => cases hfound
            | succ levels =>
              dsimp only at hfound
              rw [walkRefRootsStrict, bind_present_eq_ok] at hfound
              rcases hfound with ⟨_, hlist, -⟩ | ⟨hlist, -⟩ <;> cases hlist
    · obtain rfl : [] = out := Except.ok.inj hout
      rw [hdir]
      simp

theorem mem_readOptionalHash {path : Path} {out : List Hash}
    (hout : readOptionalHash path = .ok out) (h : Hash) :
    h ∈ out ↔ ∃ raw, readToString path = .ok raw ∧ fromHex (trim raw) = some h := by
  rw [readOptionalHash, bind_present_eq_ok] at hout
  rcases hout with ⟨raw, hraw, hout⟩ | ⟨hraw, hout⟩
  · rw [hraw]
    dsimp only at hout
    have hiff : (∃ raw', (Except.ok raw : Except IoError Bytes) = .ok raw' ∧
        fromHex (trim raw') = some h) ↔ fromHex (trim raw) = some h := by
      simp
    rw [hiff]
    split at hout
    · rename_i hblank
      obtain rfl : [] = out := Except.ok.inj hout
      rw [List.isEmpty_iff] at hblank
      have hnone : fromHex [] = none := rfl
      rw [hblank, hnone]
      simp
    · split at hout
      · rename_i h' hx
        obtain rfl : [h'] = out := Except.ok.inj hout
        rw [hx]
        simp [eq_comm]
      · cases hout
  · obtain rfl : [] = out := Except.ok.inj hout
    rw [hraw]
    simp

theorem mem_pickRoots {st : Option PickState} {h : Hash} :
    h ∈ PickState.roots st ↔ ∃ st', st = some st' ∧ (h = st'.head ∨ h = st'.orig_head) := by
  cases st <;> simp [PickState.roots]

theorem mem_rebaseRoots {tree : RepoLayout} {out : List Hash}
    (hout : rebaseRoots tree = .ok out) (h : Hash) :
    h ∈ out ↔ isRebaseInProgress tree = true ∧ ∃ st, readRebaseState tree = .ok st ∧
      (h = st.orig_head ∨ h = st.onto ∨ h ∈ st.todo ∨ h ∈ st.done) := by
  rw [rebaseRoots] at hout
  split at hout
  · rename_i hin
    rw [Wire.bind_eq_ok] at hout
    obtain ⟨st, hst, hout⟩ := hout
    rw [Wire.mapError_eq_ok] at hst
    obtain rfl : st.roots = out := Except.ok.inj hout
    simp [RebaseState.roots, hin, hst]
  · rename_i hin
    obtain rfl : [] = out := Except.ok.inj hout
    simp [hin]

theorem mem_conflictRoots {dir : Path} {out : List Hash} (hout : conflictRoots dir = .ok out)
    (h : Hash) : h ∈ out ↔ ∃ conflicts, readConflicts dir = .ok conflicts ∧ ∃ c ∈ conflicts,
      c.base_hash = some h ∨ c.ours_hash = some h ∨ c.theirs_hash = some h := by
  rw [conflictRoots, Wire.bind_eq_ok] at hout
  obtain ⟨conflicts, hc, hout⟩ := hout
  rw [Wire.mapError_eq_ok] at hc
  obtain rfl : conflicts.flatMap ConflictRecord.roots = out := Except.ok.inj hout
  simp [ConflictRecord.roots, hc]

/-- The roots of a worktree are exactly what it points at. -/
theorem mem_collectTreeRoots {B : Blake3} {tree : RepoLayout} {out : List Hash}
    (hout : collectTreeRoots B tree = .ok out) (h : Hash) : h ∈ out ↔ TreeRoot B tree h := by
  simp only [collectTreeRoots, Wire.bind_eq_ok, Wire.mapError_eq_ok] at hout
  obtain ⟨head, hhead, stash, hstash, index, hindex, orig, horig, merge, hmerge, pick, hpick,
    revert, hrevert, rebase, hrebase, conflicts, hconflicts, hout⟩ := hout
  obtain ⟨hdirs, hcmem⟩ := gather_eq_ok hconflicts
  obtain rfl := Except.ok.inj hout
  simp only [List.mem_append, List.mem_flatMap, List.mem_map, List.mem_cons, List.not_mem_nil,
    or_false, Option.mem_toList, mem_readOptionalHash horig, mem_pickRoots,
    mem_rebaseRoots hrebase, hcmem]
  constructor
  · rintro ((((((((rfl | ⟨e, he, hh⟩) | ⟨e, he, rfl⟩) | ⟨raw, hraw, hx⟩) | ⟨st, rfl, hh⟩) |
      ⟨st, rfl, hh⟩) | ⟨st, rfl, hh⟩) | ⟨hin, st, hst, hh⟩) | ⟨dir, hdir, hs, hfound, hh⟩)
    · exact .head hhead
    · exact .stash hstash he hh
    · exact .index hindex he
    · exact .origHead hraw hx
    · exact .merge hmerge hh
    · exact .cherryPick hpick hh
    · exact .revert hrevert hh
    · exact .rebase hin hst hh
    · obtain ⟨cs, hcs, c, hc, hh⟩ := (mem_conflictRoots hfound h).1 hh
      exact .conflict hdir hcs hc hh
  · intro hroot
    cases hroot with
    | head hr =>
      rw [hhead] at hr
      obtain rfl := Except.ok.inj hr
      simp
    | stash hr he hh =>
      rw [hstash] at hr
      obtain rfl := Except.ok.inj hr
      exact .inl (.inl (.inl (.inl (.inl (.inl (.inl (.inr ⟨_, he, hh⟩)))))))
    | index hr he =>
      rw [hindex] at hr
      obtain rfl := Except.ok.inj hr
      exact .inl (.inl (.inl (.inl (.inl (.inl (.inr ⟨_, he, rfl⟩))))))
    | origHead hr hx => exact .inl (.inl (.inl (.inl (.inl (.inr ⟨_, hr, hx⟩)))))
    | merge hr hh =>
      rw [hmerge] at hr
      exact .inl (.inl (.inl (.inl (.inr ⟨_, Except.ok.inj hr, hh⟩))))
    | cherryPick hr hh =>
      rw [hpick] at hr
      exact .inl (.inl (.inl (.inr ⟨_, Except.ok.inj hr, hh⟩)))
    | revert hr hh =>
      rw [hrevert] at hr
      exact .inl (.inl (.inr ⟨_, Except.ok.inj hr, hh⟩))
    | rebase hin hr hh => exact .inl (.inr ⟨hin, _, hr, hh⟩)
    | conflict hdir hr hc hh =>
      obtain ⟨hs, hfound⟩ := hdirs _ (by simpa using hdir)
      exact .inr ⟨_, hdir, hs, hfound, (mem_conflictRoots hfound h).2 ⟨_, hr, _, hc, hh⟩⟩

theorem mem_allStateLayouts {l : RepoLayout} {trees : List RepoLayout}
    (hout : allStateLayouts l = .ok trees) (tree : RepoLayout) :
    tree ∈ trees ↔ StateTree l tree := by
  rw [allStateLayouts, bind_present_eq_ok] at hout
  have hsort : ∀ (es : List (Bytes × Node)) (e : Bytes × Node),
      e ∈ es.insertionSort (fun a b => a.1 ≤ b.1) ↔ e ∈ es := fun es e =>
    List.mem_insertionSort _
  rcases hout with ⟨entries, hdir, hout⟩ | ⟨hdir, hout⟩
  · obtain rfl := Except.ok.inj hout
    simp only [List.mem_cons, List.mem_map, hsort, List.mem_filter, Option.getD_some]
    constructor
    · rintro (rfl | ⟨e, ⟨he, hd⟩, rfl⟩)
      · exact .main
      · exact .linked hdir he hd
    · intro ht
      cases ht with
      | main => exact .inl rfl
      | linked hr he hd =>
        rw [hdir] at hr
        obtain rfl := Except.ok.inj hr
        exact .inr ⟨_, ⟨he, hd⟩, rfl⟩
  · obtain rfl := Except.ok.inj hout
    simp only [Option.getD_none, List.filter_nil, List.insertionSort_nil, List.map_nil,
      List.mem_singleton]
    constructor
    · rintro rfl
      exact .main
    · intro ht
      cases ht with
      | main => rfl
      | linked hr he hd =>
        rw [hdir] at hr
        cases hr

theorem mem_attestedCommits {common_dir : Path} {out : List Hash}
    (hout : attestedCommits common_dir = .ok out) (h : Hash) :
    h ∈ out ↔ ∃ entries name len listable sub,
      (common_dir.join
        (ascii ['a', 't', 't', 'e', 's', 't', 'a', 't', 'i', 'o', 'n', 's'])).readDir =
          .ok entries ∧
      (name, Node.dir len listable sub) ∈ entries ∧ fromHex name = some h := by
  rw [attestedCommits, bind_present_eq_ok] at hout
  rcases hout with ⟨entries, hdir, hout⟩ | ⟨hdir, hout⟩
  · obtain ⟨-, hmem⟩ := gather_eq_ok hout
    rw [hmem]
    constructor
    · rintro ⟨⟨name, node⟩, he, hs, hfound, hh⟩
      cases node with
      | fault => cases hfound
      | dir len listable sub =>
        obtain rfl := Except.ok.inj hfound
        exact ⟨entries, name, len, listable, sub, hdir, he, Option.mem_toList.1 hh⟩
      | _ =>
        obtain rfl : [] = hs := Except.ok.inj hfound
        cases hh
    · rintro ⟨entries', name, len, listable, sub, hr, he, hx⟩
      rw [hdir] at hr
      obtain rfl := Except.ok.inj hr
      exact ⟨_, he, _, rfl, Option.mem_toList.2 hx⟩
  · obtain rfl : [] = out := Except.ok.inj hout
    rw [hdir]
    simp

theorem mem_pendingHistoryRoots {B : Blake3} {common_dir : Path} {out : List Hash}
    (hout : pendingHistoryRoots B common_dir = .ok out) (h : Hash) :
    h ∈ out ↔ ∃ entries entry file tx,
      (historyBranchesDir common_dir).readDir = .ok entries ∧ entry ∈ entries ∧
      present (Path.join (.ok entry.2)
        (ascii ['t', 'r', 'a', 'n', 's', 'a', 'c', 't', 'i', 'o', 'n'])).read = .ok file ∧
      Transaction.read B file = .ok (some tx) ∧ (tx.previous = some h ∨ tx.target = h) := by
  -- A branch directory that collects has been read, and names the branch of its intent.
  have hbranch : ∀ (entry : Bytes × Node) hs, pendingRoots B entry = .ok hs → (h ∈ hs ↔
      ∃ file tx, present (Path.join (.ok entry.2)
        (ascii ['t', 'r', 'a', 'n', 's', 'a', 'c', 't', 'i', 'o', 'n'])).read = .ok file ∧
      Transaction.read B file = .ok (some tx) ∧ (tx.previous = some h ∨ tx.target = h)) := by
    rintro ⟨name, node⟩ hs hfound
    cases node with
    | dir len listable sub =>
      simp only [pendingRoots, Wire.bind_eq_ok, Wire.mapError_eq_ok] at hfound
      obtain ⟨file, hfile, tx, htx, hfound⟩ := hfound
      simp only [hfile, Except.ok.injEq, exists_and_left, exists_eq_left', htx]
      cases tx with
      | none =>
        obtain rfl : [] = hs := Except.ok.inj hfound
        simp
      | some tx =>
        dsimp only at hfound
        split at hfound
        · cases hfound
        · obtain rfl := Except.ok.inj hfound
          simp [eq_comm]
    | _ => cases hfound
  rw [pendingHistoryRoots, bind_present_eq_ok] at hout
  rcases hout with ⟨entries, hdir, hout⟩ | ⟨hdir, hout⟩
  · obtain ⟨hall, hmem⟩ := gather_eq_ok hout
    rw [hmem]
    constructor
    · rintro ⟨entry, he, hs, hfound, hh⟩
      obtain ⟨file, tx, hfile, htx, hh⟩ := (hbranch entry hs hfound).1 hh
      exact ⟨entries, entry, file, tx, hdir, he, hfile, htx, hh⟩
    · rintro ⟨entries', entry, file, tx, hr, he, hfile, htx, hh⟩
      rw [hdir] at hr
      obtain rfl := Except.ok.inj hr
      obtain ⟨hs, hfound⟩ := hall entry he
      exact ⟨entry, he, hs, hfound, (hbranch entry hs hfound).2 ⟨file, tx, hfile, htx, hh⟩⟩
  · obtain rfl : [] = out := Except.ok.inj hout
    rw [hdir]
    simp

/-- **The collection is exhaustive.** When it succeeds it has found exactly the ids the
repository points at. -/
theorem mem_collectRoots {B : Blake3} {l : RepoLayout} {roots : List Hash}
    (hout : collectRoots B l = .ok roots) (h : Hash) :
    h ∈ roots ↔ RetentionRoot B l h ∧ h ≠ ZERO := by
  simp only [collectRoots, Wire.bind_eq_ok, Wire.mapError_eq_ok] at hout
  obtain ⟨refs, hrefs, trees, htrees, perTree, hper, attested, hatt, pending, hpend, log, hlog,
    hout⟩ := hout
  obtain ⟨hns, hrmem⟩ := gather_eq_ok hrefs
  obtain ⟨hall, htmem⟩ := gather_eq_ok hper
  obtain rfl := Except.ok.inj hout
  have hspace : ∀ ns, ns ∈ REF_NAMESPACES ↔ ns = HEADS_DIR ∨ ns = TAGS_DIR ∨ ns = REMOTES_DIR := by
    intro ns
    simp [REF_NAMESPACES]
  simp only [mem_ascending, List.mem_filter, decide_eq_true_eq, ne_eq]
  refine and_congr_left fun _ => ?_
  simp only [List.mem_append, List.mem_map, hrmem, htmem, mem_attestedCommits hatt,
    mem_pendingHistoryRoots hpend]
  constructor
  · rintro ((((⟨ns, hmem, hs, hfound, hh⟩ | ⟨tree, htree, hs, hfound, hh⟩) |
      ⟨entries, name, len, listable, sub, hr, he, hx⟩) |
      ⟨entries, entry, file, tx, hr, he, hfile, htx, hh⟩) | ⟨e, he, rfl⟩)
    · obtain ⟨entries, hr, hh⟩ := (mem_walkRefRootsStrict hfound h).1 hh
      exact .ref ((hspace ns).1 hmem) hr hh
    · exact .tree ((mem_allStateLayouts htrees tree).1 htree)
        ((mem_collectTreeRoots hfound h).1 hh)
    · exact .attestation hr he hx
    · exact .pending hr he hfile htx hh
    · exact .recovery hlog he
  · intro hroot
    cases hroot with
    | @ref ns entries _ hmem hr hh =>
      have hmem := (hspace ns).2 hmem
      obtain ⟨hs, hfound⟩ := hns _ hmem
      exact .inl (.inl (.inl (.inl
        ⟨ns, hmem, hs, hfound, (mem_walkRefRootsStrict hfound h).2 ⟨entries, hr, hh⟩⟩)))
    | @tree tree _ htree hh =>
      have htree := (mem_allStateLayouts htrees tree).2 htree
      obtain ⟨hs, hfound⟩ := hall _ htree
      exact .inl (.inl (.inl (.inr
        ⟨tree, htree, hs, hfound, (mem_collectTreeRoots hfound h).2 hh⟩)))
    | attestation hr he hx => exact .inl (.inl (.inr ⟨_, _, _, _, _, hr, he, hx⟩))
    | pending hr he hfile htx hh => exact .inl (.inr ⟨_, _, _, _, hr, he, hfile, htx, hh⟩)
    | recovery hr he =>
      rw [hlog] at hr
      obtain rfl := Except.ok.inj hr
      exact .inr ⟨_, he, rfl⟩

end Mkit
