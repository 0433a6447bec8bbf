import Mkit.Content
import Mkit.Lib.Lockstep

/-!
# Merging Trees

The three-way merge of trees (`ops/merge.rs`). `mergeTrees` walks the sorted entries of base,
ours and theirs in lockstep and decides name by name, descending where directories changed on
both sides and merging regular files line by line where it can. What it cannot decide is a
conflict, under which the merged tree keeps one side.

The merge decides about whole entries; what it is for is a statement about files. A leaf is
a file at a full path, `leafAt`. The main result, `clean_merge_pathwise`, is that a merge
without conflicts has at every path the leaf that the three leaves there determine:
`MergedLeaf`. Two leaves are taken to be the same when their modes agree and their contents
do, whatever the objects that hold the contents.

The line-level merge of file contents is a parameter, since nothing here depends on it.
-/

namespace Mkit

open Effect Lockstep

/-- How deep directories may be nested. -/
def MAX_TREE_DEPTH : ℕ := 128

/-- The kinds of conflict. -/
inductive ConflictKind where
  | modifyModify
  | deleteModify
  | addAdd
deriving DecidableEq

/-- A conflict, with what each side has at the path. The path is kept as the bytes that the
source renders as text. -/
structure Conflict where
  path : Bytes
  kind : ConflictKind
  base_hash : Option Hash
  ours_hash : Option Hash
  theirs_hash : Option Hash
  ours_mode : Option EntryMode
  theirs_mode : Option EntryMode
deriving DecidableEq

/-- The merged tree, which is written also when there are conflicts. -/
structure MergeResult where
  tree_hash : Hash
  conflicts : List Conflict
deriving DecidableEq

/-- What base, ours and theirs have under one name. -/
abbrev MergeRow := Row Bytes TreeEntry

/-! ### The merge -/

section Model

variable {σ : Type} (io : SourceSink σ) (mergeBlob3way : Bytes → Bytes → Bytes → Option Bytes)

/-- The entries of a tree; no tree has none. -/
def loadEntries : Option Hash → StoreM σ (List TreeEntry)
  | some h => do
    match ← io.readObject h with
    | .tree t => pure t.entries
    | other => throw (.decode (.invalidObjectType other.objectType.toU8))
  | none => pure []

/-- Write an object. -/
def putObject (o : Object) : StoreM σ Hash := do
  let bytes ← liftM ((serialize o).mapError StoreError.decode)
  io.put bytes

/-- Write a tree. -/
def putTree (entries : List TreeEntry) : StoreM σ Hash :=
  putObject io (.tree ⟨entries⟩)

/-- The bytes of a single blob; a chunked blob is not merged by lines. -/
def singleBlobBytes (h : Hash) : StoreM σ (Option Bytes) := do
  match ← io.readObject h with
  | .blob b => pure (some b.data)
  | _ => pure none

/-- Write the line-level merge, when there is one. -/
def putTextMerge : Option Bytes → Option Bytes → Option Bytes → StoreM σ (Option Hash)
  | some base, some ours, some theirs =>
    match mergeBlob3way base ours theirs with
    | some merged => do
      let h ← putObject io (.blob ⟨merged⟩)
      pure (some h)
    | none => pure none
  | _, _, _ => pure none

/-- Try to merge a file that both sides changed. -/
def tryTextMerge (base ours theirs : Hash) : StoreM σ (Option Hash) := do
  let base ← singleBlobBytes io base
  let ours ← singleBlobBytes io ours
  let theirs ← singleBlobBytes io theirs
  putTextMerge io mergeBlob3way base ours theirs

/-- Whether two entries have the same mode and content. Directories are compared by id. -/
def hashAndModeEq (a b : TreeEntry) : StoreM σ Bool :=
  if a.mode = b.mode then
    if a.object_hash = b.object_hash then pure true
    else if a.mode ≠ .tree then contentEq io a.object_hash b.object_hash
    else pure false
  else pure false

/-- A path below a directory. -/
def joinPath (dir name : Bytes) : Bytes :=
  if dir = [] then name else dir ++ 0x2f :: name

/-- What the merge does to a name: at most one entry, and the conflicts found. -/
abbrev Outcome := Option TreeEntry × List Conflict

/-- Keep an entry as it is. -/
def keep (e : TreeEntry) : StoreM σ Outcome :=
  pure (some e, [])

/-- Report a conflict, keeping `kept`. -/
def conflict (dir : Bytes) (kind : ConflictKind) (row : MergeRow) (kept : TreeEntry) :
    StoreM σ Outcome :=
  pure (some kept, [{
    path := joinPath dir row.key
    kind := kind
    base_hash := row.first.map TreeEntry.object_hash
    ours_hash := row.second.map TreeEntry.object_hash
    theirs_hash := row.third.map TreeEntry.object_hash
    ours_mode := row.second.map TreeEntry.mode
    theirs_mode := row.third.map TreeEntry.mode }])

/-- Both sides changed an entry, differently, and not all three are directories. -/
def mergeModified (dir : Bytes) (row : MergeRow) (b o t : TreeEntry) : StoreM σ Outcome :=
  if o.mode = t.mode ∧ (o.mode = .blob ∨ o.mode = .executable) then do
    let merged ← tryTextMerge io mergeBlob3way b.object_hash o.object_hash t.object_hash
    match merged with
    | some h => keep ⟨row.key, o.mode, h⟩
    | none => conflict dir .modifyModify row o
  else conflict dir .modifyModify row o

/-- The decision for one name; `recurse` merges three directories. -/
def mergeRow (recurse : Option Hash → Option Hash → Option Hash → Bytes → StoreM σ Outcome)
    (dir : Bytes) (row : MergeRow) : StoreM σ Outcome :=
  match row.first, row.second, row.third with
  | some b, some o, some t => do
    let bEqO ← hashAndModeEq io b o
    let bEqT ← hashAndModeEq io b t
    let oEqT ← hashAndModeEq io o t
    if bEqO && bEqT then keep b
    else if bEqT && !bEqO then
      -- Theirs unchanged, ours changed.
      if b.mode = .tree ∧ o.mode = .tree then
        recurse (some b.object_hash) (some o.object_hash) (some b.object_hash) row.key
      else keep o
    else if bEqO && !bEqT then
      -- Ours unchanged, theirs changed.
      if b.mode = .tree ∧ t.mode = .tree then
        recurse (some b.object_hash) (some b.object_hash) (some t.object_hash) row.key
      else keep t
    else if oEqT then
      -- Both changed the same way.
      if b.mode = .tree ∧ o.mode = .tree then
        recurse (some b.object_hash) (some o.object_hash) (some t.object_hash) row.key
      else keep o
    else if b.mode = .tree ∧ o.mode = .tree ∧ t.mode = .tree then
      recurse (some b.object_hash) (some o.object_hash) (some t.object_hash) row.key
    else mergeModified io mergeBlob3way dir row b o t
  | none, some o, none => keep o
  | none, none, some t => keep t
  | none, some o, some t => do
    let oEqT ← hashAndModeEq io o t
    if oEqT then keep o
    else if o.mode = .tree ∧ t.mode = .tree then
      recurse none (some o.object_hash) (some t.object_hash) row.key
    else conflict dir .addAdd row o
  | some b, some o, none => do
    let bEqO ← hashAndModeEq io b o
    -- Ours unchanged, theirs deleted.
    if bEqO then pure (none, [])
    else conflict dir .deleteModify row o
  | some b, none, some t => do
    let bEqT ← hashAndModeEq io b t
    -- Theirs unchanged, ours deleted.
    if bEqT then pure (none, [])
    else conflict dir .deleteModify row t
  | some _, none, none => pure (none, [])
  | none, none, none => pure (none, [])

/-- Merge the rows one after the other. -/
def mergeRows (step : MergeRow → StoreM σ Outcome) :
    List MergeRow → StoreM σ (List TreeEntry × List Conflict)
  | [] => pure ([], [])
  | row :: rest => do
    let (entry, conflicts) ← step row
    let (entries, conflicts') ← mergeRows step rest
    pure (entry.toList ++ entries, conflicts ++ conflicts')

/-- Merge three directories with `merge` and write the result under `name`. -/
def recurseSubtreeMerge
    (merge : Bytes → List TreeEntry → List TreeEntry → List TreeEntry →
      StoreM σ (List TreeEntry × List Conflict))
    (dir : Bytes) (base ours theirs : Option Hash) (name : Bytes) : StoreM σ Outcome := do
  let baseEntries ← loadEntries io base
  let oursEntries ← loadEntries io ours
  let theirsEntries ← loadEntries io theirs
  let (sub, conflicts) ← merge (joinPath dir name) baseEntries oursEntries theirsEntries
  let h ← putTree io sub
  pure (some ⟨name, .tree, h⟩, conflicts)

/-- Merge three lists of entries; `room` levels of directories are left before the depth
bound is passed. -/
def mergeEntriesRecursive : ℕ → Bytes → List TreeEntry → List TreeEntry → List TreeEntry →
    StoreM σ (List TreeEntry × List Conflict)
  | 0, _, _, _, _ => throw .treeTooDeep
  | room + 1, dir, base, ours, theirs =>
    mergeRows
      (mergeRow io mergeBlob3way (recurseSubtreeMerge io (mergeEntriesRecursive room) dir) dir)
      (rows TreeEntry.name (base.length + ours.length + theirs.length) base ours theirs)

/-- Merge three trees, any of which may be missing, and write the merged tree. -/
def mergeTrees (base ours theirs : Option Hash) : StoreM σ MergeResult := do
  let baseEntries ← loadEntries io base
  let oursEntries ← loadEntries io ours
  let theirsEntries ← loadEntries io theirs
  let (merged, conflicts) ← mergeEntriesRecursive io mergeBlob3way (MAX_TREE_DEPTH + 1) []
    baseEntries oursEntries theirsEntries
  let h ← putTree io merged
  pure ⟨h, conflicts⟩

end Model

/-! ### Leaves -/

/-- A file: its mode and the object that holds its content. -/
structure Leaf where
  mode : EntryMode
  object_hash : Hash
deriving DecidableEq

section Leaves

variable (v : View)

/-- The entries of a stored tree. -/
def treeAt (h : Hash) : Option (List TreeEntry) :=
  match v h with
  | some (.tree t) => some t.entries
  | _ => none

/-- The entries below a root that may be missing. -/
def rootEntries (root : Option Hash) : List TreeEntry :=
  (root.bind (treeAt v)).getD []

/-- The leaf at a full path. -/
def leafAt : List TreeEntry → List Bytes → Option Leaf
  | _, [] => none
  | entries, name :: path =>
    match find TreeEntry.name name entries with
    | none => none
    | some e =>
      if e.mode = .tree then leafAt ((treeAt v e.object_hash).getD []) path
      else if path = [] then some ⟨e.mode, e.object_hash⟩
      else none

/-- The leaf at a path below an entry; the empty path is the entry itself. -/
def leafUnder (entry : Option TreeEntry) (path : List Bytes) : Option Leaf :=
  match entry with
  | none => none
  | some e =>
    if e.mode = .tree then leafAt v ((treeAt v e.object_hash).getD []) path
    else if path = [] then some ⟨e.mode, e.object_hash⟩
    else none

theorem leafAt_cons (entries : List TreeEntry) (name : Bytes) (path : List Bytes) :
    leafAt v entries (name :: path) = leafUnder v (find TreeEntry.name name entries) path := by
  rw [leafAt]
  cases find TreeEntry.name name entries <;> rfl

/-- Both absent, or the same mode and the same object or equal content. -/
def SameLeaf : Option Leaf → Option Leaf → Prop
  | none, none => True
  | some a, some b =>
    a.mode = b.mode ∧ (a.object_hash = b.object_hash ∨
      (content v a.object_hash).isSome = true ∧
        content v a.object_hash = content v b.object_hash)
  | _, _ => False

instance : (x y : Option Leaf) → Decidable (SameLeaf v x y)
  | none, none => isTrue trivial
  | some a, some b => inferInstanceAs (Decidable (a.mode = b.mode ∧ (_ ∨ _ ∧ _)))
  | none, some _ => isFalse id
  | some _, none => isFalse id

/-- An entry leads to a stored tree that is well formed `below`, or to valid content. -/
def EntryWf (below : List TreeEntry → Prop) (e : TreeEntry) : Prop :=
  if e.mode = .tree then ∃ entries ∈ treeAt v e.object_hash, below entries
  else ValidContent v e.object_hash

instance (below : List TreeEntry → Prop) [DecidablePred below] (e : TreeEntry) :
    Decidable (EntryWf v below e) :=
  inferInstanceAs (Decidable (if e.mode = .tree then
    ∃ entries ∈ treeAt v e.object_hash, below entries else ValidContent v e.object_hash))

/-- Entries sorted by name, all of whose objects are present, with at most `levels` levels of
directories. -/
def TreeWf : ℕ → List TreeEntry → Prop
  | 0, _ => False
  | levels + 1, entries =>
    Ascending TreeEntry.name entries ∧ ∀ e ∈ entries, EntryWf v (TreeWf levels) e

instance decidableTreeWf : (levels : ℕ) → DecidablePred (TreeWf v levels)
  | 0 => fun _ => isFalse id
  | levels + 1 => fun entries =>
    have := decidableTreeWf levels
    inferInstanceAs (Decidable (entries.Pairwise (fun x y => x.name < y.name) ∧
      ∀ e ∈ entries, EntryWf v (TreeWf v levels) e))

/-- A tree that is missing, or well formed within the depth bound. -/
def RootWf (root : Option Hash) : Prop :=
  ∀ h ∈ root, ∃ entries ∈ treeAt v h, TreeWf v (MAX_TREE_DEPTH + 1) entries

instance (root : Option Hash) : Decidable (RootWf v root) :=
  inferInstanceAs (Decidable (∀ h ∈ root, ∃ entries ∈ treeAt v h, TreeWf v _ entries))

end Leaves

/-- The line-level merge of three files. -/
def TextMerged (mergeBlob3way : Bytes → Bytes → Bytes → Option Bytes) (v v' : View)
    (base ours theirs merged : Option Leaf) : Prop :=
  ∃ b o t h x y z m, base = some b ∧ ours = some o ∧ theirs = some t ∧ o.mode = t.mode ∧
    v b.object_hash = some (.blob ⟨x⟩) ∧ v o.object_hash = some (.blob ⟨y⟩) ∧
    v t.object_hash = some (.blob ⟨z⟩) ∧ mergeBlob3way x y z = some m ∧
    merged = some ⟨o.mode, h⟩ ∧ v' h = some (.blob ⟨m⟩)

/-- The leaf that three leaves determine: where all three agree that of base, where two agree
the third one or the one both sides changed it to, otherwise the line-level merge. -/
def MergedLeaf (mergeBlob3way : Bytes → Bytes → Bytes → Option Bytes) (v v' : View)
    (base ours theirs merged : Option Leaf) : Prop :=
  if SameLeaf v base ours ∧ SameLeaf v base theirs then merged = base
  else if SameLeaf v ours theirs then merged = ours
  else if SameLeaf v base ours then merged = theirs
  else if SameLeaf v base theirs then merged = ours
  else TextMerged mergeBlob3way v v' base ours theirs merged

/-! ### Views only grow -/

/-- Everything stored in `v` is stored in `v'`. -/
def Extends (v v' : View) : Prop :=
  ∀ h o, v h = some o → v' h = some o

section Growth

variable {v v' v'' : View}

theorem Extends.refl (v : View) : Extends v v :=
  fun _ _ h => h

theorem Extends.trans (h : Extends v v') (h' : Extends v' v'') : Extends v v'' :=
  fun k o hk => h' k o (h k o hk)

variable {k : Hash} {c : Bytes}

theorem Extends.chunkBytes (h : Extends v v')
    (hc : Mkit.chunkBytes v k = some c) : Mkit.chunkBytes v' k = some c := by
  rw [Mkit.chunkBytes] at hc ⊢
  split at hc
  · rename_i b hb
    rw [h k _ hb]
    exact hc
  · simp at hc

theorem Extends.reassemble (h : Extends v v') {chunks : List Hash}
    (hc : Mkit.reassemble v chunks = some c) : Mkit.reassemble v' chunks = some c := by
  induction chunks generalizing c with
  | nil => exact hc
  | cons k ks ih =>
    simp only [Mkit.reassemble, Option.bind_eq_bind, Option.bind_eq_some_iff] at hc ⊢
    obtain ⟨data, hd, rest, hr, hc⟩ := hc
    exact ⟨data, h.chunkBytes hd, rest, ih hr, hc⟩

theorem Extends.content (h : Extends v v')
    (hc : Mkit.content v k = some c) : Mkit.content v' k = some c := by
  rw [Mkit.content] at hc ⊢
  split at hc
  · rename_i b hb
    rw [h k _ hb]
    exact hc
  · rename_i m hm
    rw [h k _ hm]
    obtain ⟨hr, hlen⟩ := Option.filter_eq_some_iff.1 hc
    exact Option.filter_eq_some_iff.2 ⟨h.reassemble hr, hlen⟩
  · simp at hc

/-- What can be reassembled has all its chunks. -/
theorem exists_chunkBytes_of_reassemble {chunks : List Hash}
    (hc : reassemble v chunks = some c) (hk : k ∈ chunks) : ∃ data, chunkBytes v k = some data := by
  induction chunks generalizing c with
  | nil => simp at hk
  | cons k' ks ih =>
    simp only [reassemble, Option.bind_eq_bind, Option.bind_eq_some_iff] at hc
    obtain ⟨data, hd, rest, hr, -⟩ := hc
    rcases List.mem_cons.1 hk with rfl | hk
    · exact ⟨data, hd⟩
    · exact ih hr hk

theorem Extends.validContent (h : Extends v v') (hk : ValidContent v k) : ValidContent v' k := by
  obtain ⟨hsome, hwhole⟩ := hk
  obtain ⟨c, hc⟩ := Option.isSome_iff_exists.1 hsome
  refine ⟨Option.isSome_iff_exists.2 ⟨c, h.content hc⟩, ?_⟩
  cases hv : v k with
  | none => simp [Mkit.content, hv] at hc
  | some o =>
    rw [h k o hv]
    rw [hv] at hwhole
    cases o with
    | chunkedBlob m =>
      intro x hx hnil
      obtain ⟨tail, hr, -⟩ := (content_chunkedBlob hv hc).1
      obtain ⟨data, hd⟩ := exists_chunkBytes_of_reassemble hr hx
      rw [h.chunkBytes hd] at hnil
      exact hwhole x hx (hd.trans hnil)
    | _ => exact trivial

theorem Extends.treeAt (h : Extends v v') {entries : List TreeEntry}
    (hk : entries ∈ Mkit.treeAt v k) : entries ∈ Mkit.treeAt v' k := by
  rw [Mkit.treeAt] at hk ⊢
  split at hk
  · rename_i t ht
    rw [h k _ ht]
    exact hk
  · simp at hk

variable {e : TreeEntry}

theorem EntryWf.extends {below below' : List TreeEntry → Prop}
    (h : Extends v v') (hb : ∀ entries, below entries → below' entries)
    (he : EntryWf v below e) : EntryWf v' below' e := by
  rw [EntryWf] at he ⊢
  split
  · rename_i hm
    rw [if_pos hm] at he
    obtain ⟨entries, hentries, hbelow⟩ := he
    exact ⟨entries, h.treeAt hentries, hb entries hbelow⟩
  · rename_i hm
    rw [if_neg hm] at he
    exact h.validContent he

theorem TreeWf.extends {levels : ℕ} {entries : List TreeEntry} (h : Extends v v')
    (hw : TreeWf v levels entries) : TreeWf v' levels entries := by
  induction levels generalizing entries with
  | zero => exact hw
  | succ levels ih => exact ⟨hw.1, fun e he => (hw.2 e he).extends h fun _ => ih⟩

/-- The leaves below a directory. -/
theorem leafUnder_tree {entries : List TreeEntry} (hm : e.mode = .tree)
    (hentries : entries ∈ treeAt v e.object_hash) (path : List Bytes) :
    leafUnder v (some e) path = leafAt v entries path := by
  rw [leafUnder.eq_def]
  simp only [hm, if_true, Option.mem_def.1 hentries, Option.getD_some]

/-- The leaf that is an entry itself. -/
theorem leafUnder_file (hm : e.mode ≠ .tree) (path : List Bytes) :
    leafUnder v (some e) path = if path = [] then some ⟨e.mode, e.object_hash⟩ else none := by
  rw [leafUnder.eq_def]
  simp only [hm, if_false]

/-- Entries found in a well-formed tree are well formed. -/
theorem TreeWf.find {levels : ℕ} {entries : List TreeEntry} {name : Bytes}
    (hw : TreeWf v levels entries) (he : e ∈ find TreeEntry.name name entries) :
    ∃ below, levels = below + 1 ∧ EntryWf v (TreeWf v below) e := by
  cases levels with
  | zero => exact hw.elim
  | succ levels => exact ⟨levels, rfl, hw.2 e (mem_of_find he)⟩

/-- In a well-formed tree the leaves stay as they are. -/
theorem leafAt_extends {levels : ℕ} {entries : List TreeEntry} (h : Extends v v')
    (hw : TreeWf v levels entries) (path : List Bytes) :
    leafAt v' entries path = leafAt v entries path := by
  induction path generalizing levels entries with
  | nil => rfl
  | cons name path ih =>
    rw [leafAt_cons, leafAt_cons]
    cases hf : Lockstep.find TreeEntry.name name entries with
    | none => rfl
    | some e =>
      obtain ⟨below, -, hwf⟩ := hw.find (Option.mem_def.2 hf)
      by_cases hm : e.mode = .tree
      · rw [EntryWf, if_pos hm] at hwf
        obtain ⟨sub, hsub, hsubwf⟩ := hwf
        rw [leafUnder_tree hm (h.treeAt hsub), leafUnder_tree hm hsub]
        exact ih hsubwf
      · rw [leafUnder_file hm, leafUnder_file hm]

theorem leafUnder_extends {levels : ℕ} {entry : Option TreeEntry} (h : Extends v v')
    (hw : ∀ e ∈ entry, EntryWf v (TreeWf v levels) e) (path : List Bytes) :
    leafUnder v' entry path = leafUnder v entry path := by
  cases entry with
  | none => rfl
  | some e =>
    have hwf := hw e rfl
    by_cases hm : e.mode = .tree
    · rw [EntryWf, if_pos hm] at hwf
      obtain ⟨sub, hsub, hsubwf⟩ := hwf
      rw [leafUnder_tree hm (h.treeAt hsub), leafUnder_tree hm hsub]
      exact leafAt_extends h hsubwf path
    · rw [leafUnder_file hm, leafUnder_file hm]

variable {mergeBlob3way : Bytes → Bytes → Bytes → Option Bytes}

theorem MergedLeaf.extends {v₀ : View} {b o t m : Option Leaf}
    (hm : MergedLeaf mergeBlob3way v₀ v b o t m) (h : Extends v v') :
    MergedLeaf mergeBlob3way v₀ v' b o t m := by
  rw [MergedLeaf] at hm ⊢
  split at hm
  · rename_i hall
    rwa [if_pos hall]
  · rename_i hall
    rw [if_neg hall]
    split at hm
    · rename_i hot
      rwa [if_pos hot]
    · rename_i hot
      rw [if_neg hot]
      split at hm
      · rename_i hbo
        rwa [if_pos hbo]
      · rename_i hbo
        rw [if_neg hbo]
        split at hm
        · rename_i hbt
          rwa [if_pos hbt]
        · rename_i hbt
          rw [if_neg hbt]
          obtain ⟨b, o, t, k, x, y, z, w, hb, ho, ht, hmode, hx, hy, hz, hw, hm, hk⟩ := hm
          exact ⟨b, o, t, k, x, y, z, w, hb, ho, ht, hmode, hx, hy, hz, hw, hm, h k _ hk⟩

end Growth

/-! ### Sameness of leaves -/

section Same

variable {v : View} {x y z : Option Leaf}

theorem SameLeaf.refl (x : Option Leaf) : SameLeaf v x x := by
  cases x with
  | none => exact trivial
  | some a => exact ⟨rfl, .inl rfl⟩

theorem SameLeaf.symm (h : SameLeaf v x y) : SameLeaf v y x := by
  cases x <;> cases y
  · exact trivial
  · exact h.elim
  · exact h.elim
  · obtain ⟨hmode, hhash | ⟨hsome, hc⟩⟩ := h
    · exact ⟨hmode.symm, .inl hhash.symm⟩
    · exact ⟨hmode.symm, .inr ⟨hc ▸ hsome, hc.symm⟩⟩

theorem SameLeaf.trans (h : SameLeaf v x y) (h' : SameLeaf v y z) : SameLeaf v x z := by
  cases x <;> cases y <;> cases z <;> try exact h.elim
  · exact trivial
  · exact h'.elim
  · exact h'.elim
  · obtain ⟨hmode, hsame⟩ := h
    obtain ⟨hmode', hsame'⟩ := h'
    refine ⟨hmode.trans hmode', ?_⟩
    rcases hsame with hhash | ⟨hsome, hc⟩
    · rwa [hhash]
    · rcases hsame' with hhash' | ⟨-, hc'⟩
      · exact .inr ⟨hsome, hhash' ▸ hc⟩
      · exact .inr ⟨hsome, hc.trans hc'⟩

theorem SameLeaf.eq_none (h : SameLeaf v none x) : x = none := by
  cases x with
  | none => rfl
  | some a => exact h.elim

variable (v)

/-- Two entries have the same leaves below them. -/
def SameUnder (e e' : Option TreeEntry) : Prop :=
  ∀ path, SameLeaf v (leafUnder v e path) (leafUnder v e' path)

/-- Two entries have no leaf in common. -/
def Apart (e e' : Option TreeEntry) : Prop :=
  ∀ path, SameLeaf v (leafUnder v e path) (leafUnder v e' path) →
    leafUnder v e path = none ∧ leafUnder v e' path = none

variable {v} {b o t : Option TreeEntry} {mergeBlob3way : Bytes → Bytes → Bytes → Option Bytes}

theorem Apart.none_left (e : Option TreeEntry) : Apart v none e :=
  fun _ h => ⟨rfl, h.eq_none⟩

theorem Apart.none_right (e : Option TreeEntry) : Apart v e none :=
  fun _ h => ⟨h.symm.eq_none, rfl⟩

theorem SameUnder.refl (e : Option TreeEntry) : SameUnder v e e :=
  fun _ => .refl _

/-- Nothing changed: the merged leaves are those of base. -/
theorem mergedLeaf_unchanged (hbo : SameUnder v b o) (hbt : SameUnder v b t) (v' : View)
    (path : List Bytes) : MergedLeaf mergeBlob3way v v' (leafUnder v b path)
      (leafUnder v o path) (leafUnder v t path) (leafUnder v b path) := by
  rw [MergedLeaf, if_pos ⟨hbo path, hbt path⟩]

/-- Theirs unchanged, ours changed: the merged leaves are ours. -/
theorem mergedLeaf_ours (hbt : SameUnder v b t) (hbo : Apart v b o) (v' : View)
    (path : List Bytes) : MergedLeaf mergeBlob3way v v' (leafUnder v b path)
      (leafUnder v o path) (leafUnder v t path) (leafUnder v o path) := by
  rw [MergedLeaf]
  split
  · rename_i h
    obtain ⟨hb, ho⟩ := hbo path h.1
    rw [hb, ho]
  · rename_i h
    have hno : ¬ SameLeaf v (leafUnder v b path) (leafUnder v o path) :=
      fun hs => h ⟨hs, hbt path⟩
    rw [if_neg hno, if_pos (hbt path)]
    split <;> rfl

/-- Ours unchanged, theirs changed: the merged leaves are theirs. -/
theorem mergedLeaf_theirs (hbo : SameUnder v b o) (hbt : Apart v b t) (v' : View)
    (path : List Bytes) : MergedLeaf mergeBlob3way v v' (leafUnder v b path)
      (leafUnder v o path) (leafUnder v t path) (leafUnder v t path) := by
  rw [MergedLeaf]
  split
  · rename_i h
    obtain ⟨hb, ht⟩ := hbt path h.2
    rw [hb, ht]
  · rename_i h
    have hno : ¬ SameLeaf v (leafUnder v o path) (leafUnder v t path) :=
      fun hs => h ⟨hbo path, (hbo path).trans hs⟩
    rw [if_neg hno, if_pos (hbo path)]

/-- Both changed the same way: the merged leaves are ours. -/
theorem mergedLeaf_both (hot : SameUnder v o t) (hbo : Apart v b o) (v' : View)
    (path : List Bytes) : MergedLeaf mergeBlob3way v v' (leafUnder v b path)
      (leafUnder v o path) (leafUnder v t path) (leafUnder v o path) := by
  rw [MergedLeaf]
  split
  · rename_i h
    obtain ⟨hb, ho⟩ := hbo path h.1
    rw [hb, ho]
  · rw [if_pos (hot path)]

end Same

/-! ### Comparing entries -/

section Entries

variable {v : View} {below : List TreeEntry → Prop} {a b : TreeEntry}

variable (v) in
/-- What `hashAndModeEq` decides. -/
def SameEntry (a b : TreeEntry) : Prop :=
  a.mode = b.mode ∧ (a.object_hash = b.object_hash ∨
    a.mode ≠ .tree ∧ content v a.object_hash = content v b.object_hash)

instance (a b : TreeEntry) : Decidable (SameEntry v a b) :=
  inferInstanceAs (Decidable (_ ∧ (_ ∨ _ ∧ _)))

theorem EntryWf.validContent (h : EntryWf v below a) (hm : a.mode ≠ .tree) :
    ValidContent v a.object_hash := by
  rwa [EntryWf, if_neg hm] at h

theorem EntryWf.exists_tree (h : EntryWf v below a) (hm : a.mode = .tree) :
    ∃ entries ∈ treeAt v a.object_hash, below entries := by
  rwa [EntryWf, if_pos hm] at h

/-- Same entries have the same leaves. -/
theorem SameEntry.sameUnder (h : SameEntry v a b) (ha : EntryWf v below a) :
    SameUnder v (some a) (some b) := by
  obtain ⟨hmode, hsame⟩ := h
  intro path
  by_cases hm : a.mode = .tree
  · -- Directories are the same only when they are one object.
    have hhash : a.object_hash = b.object_hash :=
      hsame.resolve_right fun hc => hc.1 hm
    have heq : leafUnder v (some a) path = leafUnder v (some b) path := by
      rw [leafUnder.eq_def, leafUnder.eq_def]
      simp only [hm, ← hmode, hhash]
    rw [heq]
    exact .refl _
  · rw [leafUnder_file hm, leafUnder_file (hmode ▸ hm)]
    split
    · refine ⟨hmode, ?_⟩
      rcases hsame with hhash | ⟨-, hc⟩
      · exact .inl hhash
      · exact .inr ⟨(ha.validContent hm).1, hc⟩
    · exact trivial

/-- Files that are the same leaf are the same entry. -/
theorem sameEntry_of_sameLeaf (hm : a.mode ≠ .tree)
    (h : SameLeaf v (some ⟨a.mode, a.object_hash⟩) (some ⟨b.mode, b.object_hash⟩)) :
    SameEntry v a b := by
  obtain ⟨hmode, hsame⟩ := h
  exact ⟨hmode, hsame.imp_right fun hc => ⟨hm, hc.2⟩⟩

/-- Different entries, not both directories, have no leaf in common. -/
theorem apart_of_not_sameEntry (h : ¬ SameEntry v a b) (hm : ¬ (a.mode = .tree ∧ b.mode = .tree)) :
    Apart v (some a) (some b) := by
  -- A directory has no leaf at the empty path, a file none at any other.
  have hfile : ∀ {e : TreeEntry} {path : List Bytes}, e.mode ≠ .tree → path ≠ [] →
      leafUnder v (some e) path = none := by
    intro e path he hp
    rw [leafUnder_file he, if_neg hp]
  have htree : ∀ {e : TreeEntry}, e.mode = .tree → leafUnder v (some e) [] = none := by
    intro e he
    rw [leafUnder.eq_def]
    simp only [he, if_true]
    rfl
  intro path hs
  by_cases hp : path = []
  · subst hp
    by_cases ha : a.mode = .tree
    · rw [htree ha] at hs ⊢
      exact ⟨rfl, hs.eq_none⟩
    · by_cases hb : b.mode = .tree
      · rw [htree hb] at hs ⊢
        exact ⟨hs.symm.eq_none, rfl⟩
      · rw [leafUnder_file ha, leafUnder_file hb, if_pos rfl, if_pos rfl] at hs
        exact absurd (sameEntry_of_sameLeaf ha hs) h
  · by_cases ha : a.mode = .tree
    · have hb : b.mode ≠ .tree := fun hb => hm ⟨ha, hb⟩
      rw [hfile hb hp] at hs ⊢
      exact ⟨hs.symm.eq_none, rfl⟩
    · rw [hfile ha hp] at hs ⊢
      exact ⟨rfl, hs.eq_none⟩

variable {σ : Type} {io : SourceSink σ} {s s' : σ}

/-- The comparison of entries, in a store that has grown from `v`. -/
theorem yields_hashAndModeEq {r : Bool} (hy : Yields (hashAndModeEq io a b) s r s')
    (hv : Extends v (io.view s)) (ha : EntryWf v below a) (hb : EntryWf v below b) :
    r = decide (SameEntry v a b) ∧ io.view s' = io.view s := by
  rw [hashAndModeEq] at hy
  split at hy
  · rename_i hmode
    split at hy
    · rename_i hhash
      obtain ⟨rfl, rfl⟩ := yields_pure.1 hy
      exact ⟨(decide_eq_true ⟨hmode, .inl hhash⟩).symm, rfl⟩
    · rename_i hhash
      split at hy
      · rename_i hm
        have hca := ha.validContent hm
        have hcb := hb.validContent (hmode ▸ hm)
        obtain ⟨hr, hkeep⟩ := contentEq_spec hy (hv.validContent hca) (hv.validContent hcb)
        refine ⟨?_, hkeep⟩
        obtain ⟨ca, hca'⟩ := Option.isSome_iff_exists.1 hca.1
        obtain ⟨cb, hcb'⟩ := Option.isSome_iff_exists.1 hcb.1
        rw [hv.content hca', hv.content hcb'] at hr
        have hm' : b.mode ≠ .tree := hmode ▸ hm
        rw [hr, decide_eq_decide, SameEntry, hca', hcb']
        simp [hmode, hhash, hm']
      · rename_i hm
        obtain ⟨rfl, rfl⟩ := yields_pure.1 hy
        refine ⟨(decide_eq_false fun hsame => ?_).symm, rfl⟩
        rcases hsame.2 with h | h
        · exact hhash h
        · exact hm h.1
  · rename_i hmode
    obtain ⟨rfl, rfl⟩ := yields_pure.1 hy
    exact ⟨(decide_eq_false fun hsame => hmode hsame.1).symm, rfl⟩

end Entries

/-! ### What was put is there -/

theorem writeTreeEntry_prefixFree : Wire.PrefixFree writeTreeEntry := by
  intro e e' u u' x y hu hu' h
  simp only [writeTreeEntry, Wire.bind_eq_ok, Except.ok.injEq] at hu hu'
  obtain ⟨n, hn, rfl⟩ := hu
  obtain ⟨n', hn', rfl⟩ := hu'
  rw [List.append_assoc, List.append_assoc] at h
  obtain ⟨hname, h⟩ := (parses_readLpBytes "tree.entry.name").prefixFree _ _ _ _ _ _ hn hn' h
  rw [List.cons_append, List.cons_append] at h
  obtain ⟨hmode, h⟩ := List.cons.inj h
  obtain ⟨hhash, rfl⟩ := List.append_inj h
    (by rw [e.object_hash.length_bytes, e'.object_hash.length_bytes])
  obtain ⟨_, _, _⟩ := e
  obtain ⟨_, _, _⟩ := e'
  simp only [TreeEntry.mk.injEq, and_true]
  exact ⟨hname, EntryMode.toU8_inj hmode, ByteArr.ext hhash⟩

variable {o : Object}

/-- The first byte tells the type. -/
theorem objectType_eq_of_serialize {o' : Object} {bytes : Bytes}
    (ho : serialize o = .ok bytes) (ho' : serialize o' = .ok bytes) :
    o.objectType = o'.objectType := by
  have hhead := (head?_serialize ho).symm.trans (head?_serialize ho')
  have htag := ObjectType.fromU8_eq_ok.2 (Option.some.inj hhead)
  rw [ObjectType.fromU8_eq_ok.2 rfl] at htag
  exact Except.ok.inj htag

/-- The bytes of a tree are the bytes of no other object, even of a tree too large to be read
back. -/
theorem eq_tree_of_serialize {t : Tree} {bytes : Bytes}
    (ht : serialize (.tree t) = .ok bytes) (ho : serialize o = .ok bytes) : o = .tree t := by
  have htype : o.objectType = .tree := objectType_eq_of_serialize ho ht
  cases o with
  | tree t' =>
    simp only [serialize, writeBody, writeTree, Wire.bind_eq_ok, Except.ok.injEq] at ht ho
    obtain ⟨_, ⟨n, hn, u, hu, rfl⟩, rfl⟩ := ht
    obtain ⟨_, ⟨n', hn', u', hu', rfl⟩, h⟩ := ho
    have h := List.append_cancel_left h
    obtain ⟨hcount, h⟩ := List.append_inj h (by simp [writeU32Le])
    have hnn : n' = n := by
      have h₁ := (parses_readU32 (writeU32Le n') n' []).mpr ⟨_, rfl, by simp⟩
      rw [hcount] at h₁
      have h₂ := (parses_readU32 (writeU32Le n) n []).mpr ⟨_, rfl, by simp⟩
      rw [h₁] at h₂
      simpa using h₂
    have hlen : t'.entries.length = t.entries.length := by
      rw [← count_eq hn, ← count_eq hn', hnn]
    have hentries : t'.entries = t.entries :=
      (writeTreeEntry_prefixFree.writeAll hlen hu' hu (congrArg (· ++ []) h)).1
    obtain ⟨_⟩ := t
    obtain ⟨_⟩ := t'
    simpa using hentries
  | _ => exact absurd htype (by simp [Object.objectType])

/-- The bytes of a blob are the bytes of no other object. -/
theorem eq_blob_of_serialize {b : Blob} {bytes : Bytes}
    (hb : serialize (.blob b) = .ok bytes) (ho : serialize o = .ok bytes) : o = .blob b := by
  have hdecodable : ∀ {b : Blob}, serialize (.blob b) = .ok bytes → (Object.blob b).Decodable := by
    intro b hb
    simp only [serialize, writeBody, writeBlob, Wire.bind_eq_ok] at hb
    obtain ⟨_, hw, -⟩ := hb
    exact (writeLpBytes_eq_ok.1 hw).1
  have htype : o.objectType = .blob := objectType_eq_of_serialize ho hb
  cases o with
  | blob b' =>
    have h := deserialize_eq_ok_iff.2 ⟨hdecodable hb, hb⟩
    rw [deserialize_eq_ok_iff.2 ⟨hdecodable ho, ho⟩] at h
    exact Except.ok.inj h
  | _ => exact absurd htype (by simp [Object.objectType])

section Put

variable {σ : Type} {io : SourceSink σ} {s s' : σ} {h : Hash}

theorem yields_putObject {o : Object} (hy : Yields (putObject io o) s h s') :
    (∃ bytes o', serialize o = .ok bytes ∧ serialize o' = .ok bytes ∧
      io.view s' h = some o') ∧ Extends (io.view s) (io.view s') := by
  obtain ⟨bytes, s₁, hser, hput⟩ := yields_bind.1 hy
  obtain ⟨hser, rfl⟩ := yields_liftExcept.1 hser
  have hser : serialize o = .ok bytes := by
    cases hs : serialize o with
    | error e => simp [hs, Except.mapError] at hser
    | ok bs => simpa [hs, Except.mapError] using hser
  obtain ⟨o', hv, ho'⟩ := io.view_of_put hser hput
  exact ⟨⟨bytes, o', hser, ho', hv⟩, io.kept_of_put hput⟩

theorem yields_putTree {entries : List TreeEntry} (hy : Yields (putTree io entries) s h s') :
    io.view s' h = some (.tree ⟨entries⟩) ∧ Extends (io.view s) (io.view s') := by
  obtain ⟨⟨bytes, o', hser, ho', hv⟩, hext⟩ := yields_putObject hy
  rw [eq_tree_of_serialize hser ho'] at hv
  exact ⟨hv, hext⟩

theorem yields_putBlob {data : Bytes} (hy : Yields (putObject io (.blob ⟨data⟩)) s h s') :
    io.view s' h = some (.blob ⟨data⟩) ∧ Extends (io.view s) (io.view s') := by
  obtain ⟨⟨bytes, o', hser, ho', hv⟩, hext⟩ := yields_putObject hy
  rw [eq_blob_of_serialize hser ho'] at hv
  exact ⟨hv, hext⟩

variable {v : View}

theorem treeAt_eq_some {t : Tree} (hv : v h = some (.tree t)) : t.entries ∈ treeAt v h := by
  rw [treeAt, hv]
  rfl

theorem eq_of_mem_treeAt {entries : List TreeEntry} (he : entries ∈ treeAt v h) :
    v h = some (.tree ⟨entries⟩) := by
  rw [treeAt] at he
  split at he
  · rename_i t ht
    obtain rfl := Option.some.inj he
    exact ht
  · simp at he

/-- Loading a tree that is stored, in a store that has grown. -/
theorem yields_loadEntries {entries loaded : List TreeEntry}
    (hy : Yields (loadEntries io (some h)) s loaded s') (hv : Extends v (io.view s))
    (he : entries ∈ treeAt v h) : loaded = entries ∧ io.view s' = io.view s := by
  obtain ⟨o, s₁, hread, hy⟩ := yields_bind.1 hy
  obtain ⟨ho, hkeep⟩ := io.view_of_read hread
  rw [hv h _ (eq_of_mem_treeAt he)] at ho
  obtain rfl := Option.some.inj ho
  obtain ⟨rfl, rfl⟩ := yields_pure.1 hy
  exact ⟨rfl, hkeep⟩

theorem yields_singleBlobBytes {data : Option Bytes}
    (hy : Yields (singleBlobBytes io h) s data s') :
    (∀ x ∈ data, io.view s h = some (.blob ⟨x⟩)) ∧ io.view s' = io.view s := by
  obtain ⟨o, s₁, hread, hy⟩ := yields_bind.1 hy
  obtain ⟨ho, hkeep⟩ := io.view_of_read hread
  cases o with
  | blob b =>
    obtain ⟨rfl, rfl⟩ := yields_pure.1 hy
    refine ⟨fun x hx => ?_, hkeep⟩
    obtain rfl := Option.some.inj hx
    exact ho
  | _ =>
    obtain ⟨rfl, rfl⟩ := yields_pure.1 hy
    exact ⟨by simp, hkeep⟩

end Put

/-! ### The merge of a name -/

section Rows

variable {σ : Type} {io : SourceSink σ} {mergeBlob3way : Bytes → Bytes → Bytes → Option Bytes}
  {v : View} {levels : ℕ}

variable (mergeBlob3way) in
/-- An entry merges a row, in the view `v'`: it has the name of the row, leads to well-formed
objects and has the merged leaves below it. -/
structure RowMerged (v v' : View) (levels : ℕ) (row : MergeRow) (m : Option TreeEntry) :
    Prop where
  name_eq : ∀ e ∈ m, e.name = row.key
  wf : ∀ e ∈ m, EntryWf v' (TreeWf v' levels) e
  leaf : ∀ path, MergedLeaf mergeBlob3way v v' (leafUnder v row.first path)
    (leafUnder v row.second path) (leafUnder v row.third path) (leafUnder v' m path)

variable {v' : View} {m : Option TreeEntry}

theorem RowMerged.extends {v'' : View} {row : MergeRow}
    (h : RowMerged mergeBlob3way v v' levels row m) (hv : Extends v' v'') :
    RowMerged mergeBlob3way v v'' levels row m := by
  refine ⟨h.name_eq, fun e he => (h.wf e he).extends hv fun _ => TreeWf.extends hv,
    fun path => ?_⟩
  rw [leafUnder_extends hv h.wf]
  exact (h.leaf path).extends hv

/-- A row of well-formed trees. -/
structure RowWf (v : View) (levels : ℕ) (row : MergeRow) : Prop where
  name_eq : ∀ e, e ∈ row.first ∨ e ∈ row.second ∨ e ∈ row.third → e.name = row.key
  wf : ∀ e, e ∈ row.first ∨ e ∈ row.second ∨ e ∈ row.third → EntryWf v (TreeWf v levels) e

/-- Keeping an entry of the row, or none, merges the row when the leaves say so. -/
theorem RowWf.merged_of_mem {row : MergeRow} (hrow : RowWf v levels row) (hv : Extends v v')
    (hm : ∀ e ∈ m, e ∈ row.first ∨ e ∈ row.second ∨ e ∈ row.third)
    (hleaf : ∀ path, MergedLeaf mergeBlob3way v v' (leafUnder v row.first path)
      (leafUnder v row.second path) (leafUnder v row.third path) (leafUnder v m path)) :
    RowMerged mergeBlob3way v v' levels row m := by
  have hwf : ∀ e ∈ m, EntryWf v (TreeWf v levels) e := fun e he => hrow.wf e (hm e he)
  refine ⟨fun e he => hrow.name_eq e (hm e he),
    fun e he => (hwf e he).extends hv fun _ => TreeWf.extends hv, fun path => ?_⟩
  rw [leafUnder_extends hv hwf]
  exact hleaf path

variable (io mergeBlob3way v levels) in
/-- `merge` merges well-formed lists of entries: when it finds no conflict, what it returns
is well formed and has the merged leaves. -/
def MergesEntries (merge : Bytes → List TreeEntry → List TreeEntry → List TreeEntry →
    StoreM σ (List TreeEntry × List Conflict)) : Prop :=
  ∀ dir bs os ts s s' merged, Yields (merge dir bs os ts) s (merged, []) s' →
    Extends v (io.view s) → TreeWf v levels bs → TreeWf v levels os → TreeWf v levels ts →
    Extends (io.view s) (io.view s') ∧ TreeWf (io.view s') levels merged ∧
      ∀ path, MergedLeaf mergeBlob3way v (io.view s') (leafAt v bs path) (leafAt v os path)
        (leafAt v ts path) (leafAt (io.view s') merged path)

variable (io v levels) in
/-- The directory with the root `root`, or none, is what is below an entry. -/
def IsDirectory (root : Option Hash) (e : Option TreeEntry) : Prop :=
  ∃ entries, TreeWf v levels entries ∧ (∀ path, leafUnder v e path = leafAt v entries path) ∧
    ∀ (s s' : σ) loaded, Yields (loadEntries io root) s loaded s' → Extends v (io.view s) →
      loaded = entries ∧ io.view s' = io.view s

theorem isDirectory_none (hlevels : 0 < levels) : IsDirectory io v levels none none := by
  obtain ⟨n, rfl⟩ := Nat.exists_eq_succ_of_ne_zero hlevels.ne'
  refine ⟨[], ⟨List.Pairwise.nil, by simp⟩, fun path => ?_, fun s s' loaded hy _ => ?_⟩
  · cases path <;> rfl
  · obtain ⟨rfl, rfl⟩ := yields_pure.1 hy
    exact ⟨rfl, rfl⟩

variable {e : TreeEntry}

theorem isDirectory_tree (he : EntryWf v (TreeWf v levels) e)
    (hm : e.mode = .tree) : IsDirectory io v levels (some e.object_hash) (some e) := by
  obtain ⟨entries, hentries, hwf⟩ := he.exists_tree hm
  exact ⟨entries, hwf, leafUnder_tree hm hentries,
    fun s s' loaded hy hv => yields_loadEntries hy hv hentries⟩

variable {s s' : σ}

/-- Descending into a directory merges its row. -/
theorem yields_recurseSubtreeMerge {merge : Bytes → List TreeEntry → List TreeEntry →
      List TreeEntry → StoreM σ (List TreeEntry × List Conflict)} {row : MergeRow}
    {dir : Bytes} {base ours theirs : Option Hash}
    (hmerge : MergesEntries io mergeBlob3way v levels merge)
    (hb : IsDirectory io v levels base row.first) (ho : IsDirectory io v levels ours row.second)
    (ht : IsDirectory io v levels theirs row.third) (hv : Extends v (io.view s))
    (hy : Yields (recurseSubtreeMerge io merge dir base ours theirs row.key) s (m, []) s') :
    Extends (io.view s) (io.view s') ∧
      RowMerged mergeBlob3way v (io.view s') levels row m := by
  obtain ⟨bs, hbwf, hbleaf, hbload⟩ := hb
  obtain ⟨os, howf, holeaf, hoload⟩ := ho
  obtain ⟨ts, htwf, htleaf, htload⟩ := ht
  obtain ⟨bs', s₁, hload₁, hy⟩ := yields_bind.1 hy
  obtain ⟨os', s₂, hload₂, hy⟩ := yields_bind.1 hy
  obtain ⟨ts', s₃, hload₃, hy⟩ := yields_bind.1 hy
  obtain ⟨⟨sub, conflicts⟩, s₄, hsub, hy⟩ := yields_bind.1 hy
  obtain ⟨h, s₅, hput, hy⟩ := yields_bind.1 hy
  obtain ⟨hout, rfl⟩ := yields_pure.1 hy
  obtain ⟨rfl, rfl⟩ := Prod.mk.inj hout
  -- The three loads leave the store as it is.
  obtain ⟨rfl, hkeep₁⟩ := hbload _ _ _ hload₁ hv
  obtain ⟨rfl, hkeep₂⟩ := hoload _ _ _ hload₂ (hkeep₁ ▸ hv)
  obtain ⟨rfl, hkeep₃⟩ := htload _ _ _ hload₃ (hkeep₂ ▸ hkeep₁ ▸ hv)
  have hkeep : io.view s₃ = io.view s := hkeep₃.trans (hkeep₂.trans hkeep₁)
  obtain ⟨hext, hwf, hleaf⟩ :=
    hmerge _ _ _ _ _ _ _ hsub (hkeep ▸ hv) hbwf howf htwf
  obtain ⟨hstored, hext'⟩ := yields_putTree hput
  have hsubtree := treeAt_eq_some hstored
  refine ⟨hkeep ▸ hext.trans hext', by simp, ?_, fun path => ?_⟩
  · rintro e he
    obtain rfl := Option.some.inj he
    rw [EntryWf, if_pos rfl]
    exact ⟨sub, hsubtree, hwf.extends hext'⟩
  · rw [hbleaf, holeaf, htleaf, leafUnder_tree rfl hsubtree, leafAt_extends hext' hwf]
    exact (hleaf path).extends hext'

/-- Keeping an entry leaves the store as it is. -/
theorem yields_keep {conflicts : List Conflict}
    (hy : Yields (keep e : StoreM σ Outcome) s (m, conflicts) s') : m = some e ∧ s' = s := by
  obtain ⟨hout, rfl⟩ := yields_pure.1 hy
  exact ⟨(Prod.mk.inj hout).1.symm, rfl⟩

/-- A reported conflict is not a clean merge. -/
theorem not_yields_conflict {dir : Bytes} {kind : ConflictKind} {row : MergeRow}
    {kept : TreeEntry} : ¬ Yields (conflict dir kind row kept : StoreM σ Outcome) s (m, []) s' := by
  intro hy
  obtain ⟨hout, -⟩ := yields_pure.1 hy
  exact absurd (Prod.mk.inj hout).2 (by simp)

/-- Where the line-level merge succeeds, its result is written. -/
theorem yields_tryTextMerge {b o t h : Hash}
    (hy : Yields (tryTextMerge io mergeBlob3way b o t) s (some h) s') :
    Extends (io.view s) (io.view s') ∧ ∃ x y z m, io.view s b = some (.blob ⟨x⟩) ∧
      io.view s o = some (.blob ⟨y⟩) ∧ io.view s t = some (.blob ⟨z⟩) ∧
      mergeBlob3way x y z = some m ∧ io.view s' h = some (.blob ⟨m⟩) := by
  obtain ⟨base, s₁, hb, hy₁⟩ := yields_bind.1 hy
  obtain ⟨ours, s₂, ho, hy₂⟩ := yields_bind.1 hy₁
  obtain ⟨theirs, s₃, ht, hy₃⟩ := yields_bind.1 hy₂
  obtain ⟨hbx, hkeep₁⟩ := yields_singleBlobBytes hb
  obtain ⟨hoy, hkeep₂⟩ := yields_singleBlobBytes ho
  obtain ⟨htz, hkeep₃⟩ := yields_singleBlobBytes ht
  rw [hkeep₁] at hoy hkeep₂
  rw [hkeep₂] at htz hkeep₃
  cases base with
  | none => exact absurd (yields_pure.1 hy₃).1 (by simp)
  | some x =>
    cases ours with
    | none => exact absurd (yields_pure.1 hy₃).1 (by simp)
    | some y =>
      cases theirs with
      | none => exact absurd (yields_pure.1 hy₃).1 (by simp)
      | some z =>
        rw [putTextMerge] at hy₃
        cases hm : mergeBlob3way x y z with
        | none =>
          rw [hm] at hy₃
          exact absurd (yields_pure.1 hy₃).1 (by simp)
        | some m =>
          rw [hm] at hy₃
          obtain ⟨k, s₄, hput, hy₄⟩ := yields_bind.1 hy₃
          obtain ⟨hk, rfl⟩ := yields_pure.1 hy₄
          obtain rfl := Option.some.inj hk
          obtain ⟨hstored, hext⟩ := yields_putBlob hput
          exact ⟨hkeep₃ ▸ hext, x, y, z, m, hbx x rfl, hoy y rfl, htz z rfl, hm, hstored⟩

/-- An object that is stored from the start is still the same one later. -/
theorem Extends.eq_of_view {k : Hash} {o : Object} (hv : Extends v v')
    (hk : ValidContent v k) (ho : v' k = some o) : v k = some o := by
  cases hvk : v k with
  | none =>
    have hsome := hk.1
    simp [Mkit.content, hvk] at hsome
  | some o' =>
    rw [hv k o' hvk] at ho
    exact ho

/-- A file that both sides changed, merged by lines. -/
theorem yields_mergeModified {dir : Bytes} {row : MergeRow} {b o t : TreeEntry}
    (hrow : RowWf v levels row) (hb : row.first = some b)
    (ho : row.second = some o) (ht : row.third = some t) (hv : Extends v (io.view s))
    (hbo : ¬ SameEntry v b o) (hbt : ¬ SameEntry v b t) (hot : ¬ SameEntry v o t)
    (hy : Yields (mergeModified io mergeBlob3way dir row b o t) s (m, []) s') :
    Extends (io.view s) (io.view s') ∧
      RowMerged mergeBlob3way v (io.view s') levels row m := by
  rw [mergeModified] at hy
  split at hy
  · rename_i hmode
    obtain ⟨merged, s₁, htext, hy₁⟩ := yields_bind.1 hy
    cases merged with
    | none => exact absurd hy₁ not_yields_conflict
    | some h =>
      obtain ⟨rfl, rfl⟩ := yields_keep hy₁
      obtain ⟨hext, x, y, z, w, hx, hy', hz, hw, hstored⟩ := yields_tryTextMerge htext
      have hbwf := hrow.wf b (.inl hb)
      have howf := hrow.wf o (.inr (.inl ho))
      have htwf := hrow.wf t (.inr (.inr ht))
      have hom : o.mode ≠ .tree := by
        rcases hmode.2 with h | h <;> simp [h]
      have htm : t.mode ≠ .tree := hmode.1 ▸ hom
      -- Base holds a blob, so it is not a directory.
      have hbm : b.mode ≠ .tree := by
        intro hbm
        obtain ⟨entries, hentries, -⟩ := hbwf.exists_tree hbm
        have htree := hv _ _ (eq_of_mem_treeAt hentries)
        rw [hx] at htree
        simp at htree
      refine ⟨hext, by simp, ?_, fun path => ?_⟩
      · rintro e he
        obtain rfl := Option.some.inj he
        rw [EntryWf, if_neg hom]
        refine ⟨by simp [content, hstored], ?_⟩
        rw [hstored]
        exact trivial
      · rw [hb, ho, ht, leafUnder_file hbm, leafUnder_file hom, leafUnder_file htm,
          leafUnder_file (e := ⟨row.key, o.mode, h⟩) hom]
        by_cases hp : path = []
        · simp only [hp, if_true]
          rw [MergedLeaf, if_neg fun hs => hbo (sameEntry_of_sameLeaf hbm hs.1),
            if_neg fun hs => hot (sameEntry_of_sameLeaf hom hs),
            if_neg fun hs => hbo (sameEntry_of_sameLeaf hbm hs),
            if_neg fun hs => hbt (sameEntry_of_sameLeaf hbm hs)]
          exact ⟨_, _, _, h, x, y, z, w, rfl, rfl, rfl, hmode.1,
            hv.eq_of_view (hbwf.validContent hbm) hx,
            hv.eq_of_view (howf.validContent hom) hy',
            hv.eq_of_view (htwf.validContent htm) hz, hw, rfl, hstored⟩
        · simp only [hp, if_false]
          rw [MergedLeaf, if_pos ⟨.refl _, .refl _⟩]
  · exact absurd hy not_yields_conflict

section Recurse

variable {merge : Bytes → List TreeEntry → List TreeEntry → List TreeEntry →
    StoreM σ (List TreeEntry × List Conflict)} {dir : Bytes} {row : MergeRow}
  {m : Option TreeEntry} {b o t : TreeEntry}

/-- All three sides have the name. -/
theorem yields_mergeRow_three (hmerge : MergesEntries io mergeBlob3way v levels merge)
    (hrow : RowWf v levels row) (hv : Extends v (io.view s)) (hb : row.first = some b)
    (ho : row.second = some o) (ht : row.third = some t)
    (hy : Yields (mergeRow io mergeBlob3way (recurseSubtreeMerge io merge dir) dir row) s
      (m, []) s') : Extends (io.view s) (io.view s') ∧
      RowMerged mergeBlob3way v (io.view s') levels row m := by
  have hbwf := hrow.wf b (.inl hb)
  have howf := hrow.wf o (.inr (.inl ho))
  have htwf := hrow.wf t (.inr (.inr ht))
  rw [mergeRow, hb, ho, ht] at hy
  obtain ⟨bEqO, s₁, h₁, hy₁⟩ := yields_bind.1 hy
  obtain ⟨bEqT, s₂, h₂, hy₂⟩ := yields_bind.1 hy₁
  obtain ⟨oEqT, s₃, h₃, hy₃⟩ := yields_bind.1 hy₂
  obtain ⟨rfl, hkeep₁⟩ := yields_hashAndModeEq h₁ hv hbwf howf
  obtain ⟨rfl, hkeep₂⟩ := yields_hashAndModeEq h₂ (hkeep₁ ▸ hv) hbwf htwf
  obtain ⟨rfl, hkeep₃⟩ := yields_hashAndModeEq h₃ (hkeep₂ ▸ hkeep₁ ▸ hv) howf htwf
  have hkeep : io.view s₃ = io.view s := hkeep₃.trans (hkeep₂.trans hkeep₁)
  rw [← hkeep] at hv ⊢
  clear hy hy₁ hy₂ h₁ h₂ h₃ hkeep₁ hkeep₂ hkeep₃ hkeep
  -- What is left is kept by one of the row's entries, or by descending.
  have hkept : ∀ {e : TreeEntry}, Yields (keep e : StoreM σ Outcome) s₃ (m, []) s' →
      (some e = row.first ∨ some e = row.second ∨ some e = row.third) →
      (∀ path, MergedLeaf mergeBlob3way v (io.view s₃) (leafUnder v (some b) path)
        (leafUnder v (some o) path) (leafUnder v (some t) path) (leafUnder v (some e) path)) →
      Extends (io.view s₃) (io.view s') ∧
        RowMerged mergeBlob3way v (io.view s') levels row m := by
    intro e hk hmem hleaf
    obtain ⟨rfl, rfl⟩ := yields_keep hk
    refine ⟨.refl _, hrow.merged_of_mem hv ?_ (by rwa [hb, ho, ht])⟩
    rintro e' he'
    obtain rfl := Option.some.inj he'
    exact hmem.imp Eq.symm (Or.imp Eq.symm Eq.symm)
  have hdir : ∀ {e e' : TreeEntry}, EntryWf v (TreeWf v levels) e' → e'.mode = .tree →
      e.object_hash = e'.object_hash →
      IsDirectory io v levels (some e.object_hash) (some e') := by
    intro e e' he' hm heq
    rw [heq]
    exact isDirectory_tree he' hm
  by_cases hbo : SameEntry v b o
  · by_cases hbt : SameEntry v b t
    · simp only [hbo, hbt, decide_true, Bool.and_self, if_true] at hy₃
      exact hkept hy₃ (.inl hb.symm)
        (mergedLeaf_unchanged (hbo.sameUnder hbwf) (hbt.sameUnder hbwf) _)
    · simp only [hbo, hbt, decide_true, decide_false, Bool.and_false, Bool.not_false,
        Bool.not_true, Bool.and_true, if_true, if_false, Bool.false_eq_true] at hy₃
      split at hy₃
      · rename_i hm
        have hom : o.mode = .tree := hbo.1 ▸ hm.1
        have hhash : b.object_hash = o.object_hash := hbo.2.resolve_right fun h => h.1 hm.1
        exact yields_recurseSubtreeMerge hmerge (hb ▸ isDirectory_tree hbwf hm.1)
          (ho ▸ hdir howf hom hhash) (ht ▸ isDirectory_tree htwf hm.2) hv hy₃
      · rename_i hm
        exact hkept hy₃ (.inr (.inr ht.symm))
          (mergedLeaf_theirs (hbo.sameUnder hbwf) (apart_of_not_sameEntry hbt hm) _)
  · by_cases hbt : SameEntry v b t
    · simp only [hbo, hbt, decide_true, decide_false, Bool.false_and, Bool.not_false,
        Bool.and_true, if_true, if_false, Bool.false_eq_true] at hy₃
      split at hy₃
      · rename_i hm
        have htm : t.mode = .tree := hbt.1 ▸ hm.1
        have hhash : b.object_hash = t.object_hash := hbt.2.resolve_right fun h => h.1 hm.1
        exact yields_recurseSubtreeMerge hmerge (hb ▸ isDirectory_tree hbwf hm.1)
          (ho ▸ isDirectory_tree howf hm.2) (ht ▸ hdir htwf htm hhash) hv hy₃
      · rename_i hm
        exact hkept hy₃ (.inr (.inl ho.symm))
          (mergedLeaf_ours (hbt.sameUnder hbwf) (apart_of_not_sameEntry hbo hm) _)
    · simp only [hbo, hbt, decide_false, Bool.and_false, Bool.false_and, if_false,
        Bool.false_eq_true] at hy₃
      by_cases hot : SameEntry v o t
      · simp only [hot, decide_true, if_true] at hy₃
        split at hy₃
        · rename_i hm
          have htm : t.mode = .tree := hot.1 ▸ hm.2
          exact yields_recurseSubtreeMerge hmerge (hb ▸ isDirectory_tree hbwf hm.1)
            (ho ▸ isDirectory_tree howf hm.2) (ht ▸ isDirectory_tree htwf htm) hv hy₃
        · rename_i hm
          exact hkept hy₃ (.inr (.inl ho.symm))
            (mergedLeaf_both (hot.sameUnder howf) (apart_of_not_sameEntry hbo hm) _)
      · simp only [hot, decide_false, if_false, Bool.false_eq_true] at hy₃
        split at hy₃
        · rename_i hm
          exact yields_recurseSubtreeMerge hmerge (hb ▸ isDirectory_tree hbwf hm.1)
            (ho ▸ isDirectory_tree howf hm.2.1) (ht ▸ isDirectory_tree htwf hm.2.2) hv hy₃
        · exact yields_mergeModified hrow hb ho ht hv hbo hbt hot hy₃

/-- The name is missing on some side. -/
theorem yields_mergeRow_missing (hmerge : MergesEntries io mergeBlob3way v levels merge)
    (hrow : RowWf v levels row) (hv : Extends v (io.view s))
    (hmissing : row.first = none ∨ row.second = none ∨ row.third = none)
    (hy : Yields (mergeRow io mergeBlob3way (recurseSubtreeMerge io merge dir) dir row) s
      (m, []) s') : Extends (io.view s) (io.view s') ∧
      RowMerged mergeBlob3way v (io.view s') levels row m := by
  have hwf := hrow.wf
  -- The entry kept is one of the row's, or none.
  have hkept : ∀ {e : Option TreeEntry} {s₁ : σ}, io.view s₁ = io.view s →
      Yields (pure (e, []) : StoreM σ Outcome) s₁ (m, []) s' →
      (∀ x ∈ e, x ∈ row.first ∨ x ∈ row.second ∨ x ∈ row.third) →
      (∀ path, MergedLeaf mergeBlob3way v (io.view s) (leafUnder v row.first path)
        (leafUnder v row.second path) (leafUnder v row.third path) (leafUnder v e path)) →
      Extends (io.view s) (io.view s') ∧
        RowMerged mergeBlob3way v (io.view s') levels row m := by
    intro e s₁ hkeep hk hmem hleaf
    obtain ⟨hout, rfl⟩ := yields_pure.1 hk
    obtain rfl : e = m := (Prod.mk.inj hout).1
    rw [hkeep]
    exact ⟨.refl _, hrow.merged_of_mem hv hmem hleaf⟩
  rw [mergeRow] at hy
  rcases hb : row.first with _ | b <;> rcases ho : row.second with _ | o <;>
    rcases ht : row.third with _ | t <;> rw [hb, ho, ht] at hy hkept hwf <;> dsimp only at hy
  · exact hkept rfl hy (by simp) (mergedLeaf_unchanged (.refl _) (.refl _) _)
  · exact hkept rfl hy (by simp) (mergedLeaf_theirs (.refl _) (.none_left _) _)
  · exact hkept rfl hy (by simp) (mergedLeaf_ours (.refl _) (.none_left _) _)
  · -- Both sides added the name.
    have howf := hwf o (by simp)
    have htwf := hwf t (by simp)
    obtain ⟨oEqT, s₁, h₁, hy₁⟩ := yields_bind.1 hy
    obtain ⟨rfl, hkeep⟩ := yields_hashAndModeEq h₁ hv howf htwf
    by_cases hot : SameEntry v o t
    · simp only [hot, decide_true, if_true] at hy₁
      exact hkept hkeep hy₁ (by simp) (mergedLeaf_both (hot.sameUnder howf) (.none_left _) _)
    · simp only [hot, decide_false, if_false, Bool.false_eq_true] at hy₁
      split at hy₁
      · rename_i hm
        obtain ⟨sub, -, hsub⟩ := howf.exists_tree hm.1
        have hlevels : 0 < levels := by
          rcases levels with _ | n
          · exact hsub.elim
          · exact n.succ_pos
        rw [← hkeep] at hv ⊢
        exact yields_recurseSubtreeMerge hmerge (hb ▸ isDirectory_none hlevels)
          (ho ▸ isDirectory_tree howf hm.1) (ht ▸ isDirectory_tree htwf hm.2) hv hy₁
      · exact absurd hy₁ not_yields_conflict
  · exact hkept rfl hy (by simp) (mergedLeaf_both (.refl _) (.none_right _) _)
  · -- Ours deleted the name.
    have hbwf := hwf b (by simp)
    have htwf := hwf t (by simp)
    obtain ⟨bEqT, s₁, h₁, hy₁⟩ := yields_bind.1 hy
    obtain ⟨rfl, hkeep⟩ := yields_hashAndModeEq h₁ hv hbwf htwf
    by_cases hbt : SameEntry v b t
    · simp only [hbt, decide_true, if_true] at hy₁
      exact hkept hkeep hy₁ (by simp) (mergedLeaf_ours (hbt.sameUnder hbwf) (.none_right _) _)
    · simp only [hbt, decide_false, if_false, Bool.false_eq_true] at hy₁
      exact absurd hy₁ not_yields_conflict
  · -- Theirs deleted the name.
    have hbwf := hwf b (by simp)
    have howf := hwf o (by simp)
    obtain ⟨bEqO, s₁, h₁, hy₁⟩ := yields_bind.1 hy
    obtain ⟨rfl, hkeep⟩ := yields_hashAndModeEq h₁ hv hbwf howf
    by_cases hbo : SameEntry v b o
    · simp only [hbo, decide_true, if_true] at hy₁
      exact hkept hkeep hy₁ (by simp) (mergedLeaf_theirs (hbo.sameUnder hbwf) (.none_right _) _)
    · simp only [hbo, decide_false, if_false, Bool.false_eq_true] at hy₁
      exact absurd hy₁ not_yields_conflict
  · simp [hb, ho, ht] at hmissing

/-- **One name.** A clean decision merges its row. -/
theorem yields_mergeRow (hmerge : MergesEntries io mergeBlob3way v levels merge)
    (hrow : RowWf v levels row) (hv : Extends v (io.view s))
    (hy : Yields (mergeRow io mergeBlob3way (recurseSubtreeMerge io merge dir) dir row) s
      (m, []) s') : Extends (io.view s) (io.view s') ∧
      RowMerged mergeBlob3way v (io.view s') levels row m := by
  rcases hb : row.first with _ | b
  · exact yields_mergeRow_missing hmerge hrow hv (.inl hb) hy
  · rcases ho : row.second with _ | o
    · exact yields_mergeRow_missing hmerge hrow hv (.inr (.inl ho)) hy
    · rcases ht : row.third with _ | t
      · exact yields_mergeRow_missing hmerge hrow hv (.inr (.inr ht)) hy
      · exact yields_mergeRow_three hmerge hrow hv hb ho ht hy

end Recurse

variable {rs : List MergeRow}

/-- A clean pass over the rows merges each of them. -/
theorem yields_mergeRows {step : MergeRow → StoreM σ Outcome}
    {merged : List TreeEntry} (hv : Extends v (io.view s))
    (hstep : ∀ row ∈ rs, ∀ s s' m, Extends v (io.view s) → Yields (step row) s (m, []) s' →
      Extends (io.view s) (io.view s') ∧ RowMerged mergeBlob3way v (io.view s') levels row m)
    (hy : Yields (mergeRows step rs) s (merged, []) s') :
    Extends (io.view s) (io.view s') ∧ ∃ outs, merged = outs.reduceOption ∧
      List.Forall₂ (RowMerged mergeBlob3way v (io.view s') levels) rs outs := by
  induction rs generalizing s merged with
  | nil =>
    obtain ⟨hout, rfl⟩ := yields_pure.1 hy
    obtain rfl := (Prod.mk.inj hout).1
    exact ⟨.refl _, [], rfl, .nil⟩
  | cons row rs ih =>
    obtain ⟨⟨m, cs⟩, s₁, hrow, hy₁⟩ := yields_bind.1 hy
    obtain ⟨⟨rest, cs'⟩, s₂, hrest, hy₂⟩ := yields_bind.1 hy₁
    obtain ⟨hout, rfl⟩ := yields_pure.1 hy₂
    obtain ⟨rfl, hcs⟩ := Prod.mk.inj hout
    obtain ⟨rfl, rfl⟩ := List.append_eq_nil_iff.1 hcs
    obtain ⟨hext, hm⟩ := hstep row List.mem_cons_self s s₁ m hv hrow
    obtain ⟨hext', outs, rfl, houts⟩ := ih (hv.trans hext)
      (fun r hr => hstep r (List.mem_cons_of_mem _ hr)) hrest
    refine ⟨hext.trans hext', m :: outs, ?_, .cons (hm.extends hext') houts⟩
    cases m <;> rfl

/-- The rows of well-formed entries are well formed. -/
theorem rowWf_of_mem_rows {bs os ts : List TreeEntry}
    (hb : TreeWf v (levels + 1) bs) (ho : TreeWf v (levels + 1) os)
    (ht : TreeWf v (levels + 1) ts) (hrs : RowsOf TreeEntry.name bs os ts rs) {row : MergeRow}
    (hrow : row ∈ rs) : RowWf v levels row := by
  obtain ⟨h₁, h₂, h₃⟩ := hrs.lookups row hrow
  refine ⟨?_, ?_⟩
  · rintro e (he | he | he)
    · exact key_of_find (h₁ ▸ he)
    · exact key_of_find (h₂ ▸ he)
    · exact key_of_find (h₃ ▸ he)
  · rintro e (he | he | he)
    · exact hb.2 e (mem_of_find (h₁ ▸ he))
    · exact ho.2 e (mem_of_find (h₂ ▸ he))
    · exact ht.2 e (mem_of_find (h₃ ▸ he))

/-- Merged rows make up a merged tree. -/
theorem treeWf_and_mergedLeaf_of_rows {bs os ts : List TreeEntry} {outs : List (Option TreeEntry)}
    (hrs : RowsOf TreeEntry.name bs os ts rs)
    (houts : List.Forall₂ (RowMerged mergeBlob3way v v' levels) rs outs) :
    TreeWf v' (levels + 1) outs.reduceOption ∧
      ∀ path, MergedLeaf mergeBlob3way v v' (leafAt v bs path) (leafAt v os path)
        (leafAt v ts path) (leafAt v' outs.reduceOption path) := by
  have hnames : List.Forall₂ (fun (r : MergeRow) o => ∀ e ∈ o, TreeEntry.name e = r.key)
      rs outs := houts.imp fun r o h => h.name_eq
  have hlen := houts.length_eq
  refine ⟨⟨ascending_reduceOption hrs.ascending hnames, fun e he => ?_⟩, fun path => ?_⟩
  · have hmem : some e ∈ (rs.zip outs).map Prod.snd := by
      rw [List.map_snd_zip hlen.ge]
      exact List.reduceOption_mem_iff.1 he
    obtain ⟨⟨r, o⟩, hro, rfl⟩ := List.mem_map.1 hmem
    exact (List.forall₂_zip houts hro).wf e rfl
  · cases path with
    | nil => simp [leafAt, MergedLeaf, SameLeaf]
    | cons name path =>
      rw [leafAt_cons, leafAt_cons, leafAt_cons, leafAt_cons]
      by_cases hname : ∀ r ∈ rs, r.key ≠ name
      · obtain ⟨h₁, h₂, h₃⟩ := hrs.complete name hname
        rw [h₁, h₂, h₃, find_reduceOption_eq_none hnames hname]
        exact mergedLeaf_unchanged (.refl _) (.refl _) _ _
      · push Not at hname
        obtain ⟨r, hr, rfl⟩ := hname
        have hmem : r ∈ (rs.zip outs).map Prod.fst := by
          rwa [List.map_fst_zip hlen.le]
        obtain ⟨⟨_, o⟩, hro, rfl⟩ := List.mem_map.1 hmem
        obtain ⟨h₁, h₂, h₃⟩ := hrs.lookups _ hr
        rw [← h₁, ← h₂, ← h₃, find_reduceOption hrs.ascending hnames hro]
        exact (List.forall₂_zip houts hro).leaf path

/-- **All names, at any depth.** A clean merge of entries, by induction on the levels left:
the rows are merged one by one, and descending is covered by the hypothesis. -/
theorem mergesEntries_mergeEntriesRecursive (v : View) (levels room : ℕ) :
    MergesEntries io mergeBlob3way v levels (mergeEntriesRecursive io mergeBlob3way room) := by
  induction room generalizing levels with
  | zero => exact fun _ _ _ _ _ _ _ hy => absurd hy yields_throw
  | succ room ih =>
    intro dir bs os ts s s' merged hy hv hb ho ht
    cases levels with
    | zero => exact hb.elim
    | succ levels =>
      have hrs := rowsOf_rows hb.1 ho.1 ht.1 (le_refl _)
      obtain ⟨hext, outs, rfl, houts⟩ := yields_mergeRows hv
        (fun row hrow s s' m hv hy =>
          yields_mergeRow (ih levels) (rowWf_of_mem_rows hb ho ht hrs hrow) hv hy) hy
      exact ⟨hext, treeWf_and_mergedLeaf_of_rows hrs houts⟩

/-- Loading a root. -/
theorem yields_loadEntries_root {root : Option Hash} {loaded : List TreeEntry}
    (hy : Yields (loadEntries io root) s loaded s') (hv : Extends v (io.view s))
    (hroot : RootWf v root) : loaded = rootEntries v root ∧ TreeWf v (MAX_TREE_DEPTH + 1) loaded ∧
      io.view s' = io.view s := by
  cases root with
  | none =>
    obtain ⟨rfl, rfl⟩ := yields_pure.1 hy
    exact ⟨rfl, ⟨List.Pairwise.nil, by simp⟩, rfl⟩
  | some h =>
    obtain ⟨entries, hentries, hwf⟩ := hroot h rfl
    obtain ⟨rfl, hkeep⟩ := yields_loadEntries hy hv hentries
    exact ⟨by simp [rootEntries, Option.mem_def.1 hentries], hwf, hkeep⟩

/-- **A clean merge is the path-wise three-way merge.** For any store and any three
well-formed trees, if the merge succeeds without conflicts then the merged tree is stored,
every tree in it is sorted and leads to objects that are present, and the leaf at every path
is the one that the three leaves there determine. -/
theorem clean_merge_pathwise (io : SourceSink σ)
    (mergeBlob3way : Bytes → Bytes → Bytes → Option Bytes) (s s' : σ)
    (base ours theirs : Option Hash) (tree_hash : Hash) (hb : RootWf (io.view s) base)
    (ho : RootWf (io.view s) ours) (ht : RootWf (io.view s) theirs)
    (hy : Yields (mergeTrees io mergeBlob3way base ours theirs) s ⟨tree_hash, []⟩ s') :
    ∃ merged, io.view s' tree_hash = some (.tree ⟨merged⟩) ∧
      TreeWf (io.view s') (MAX_TREE_DEPTH + 1) merged ∧
      ∀ path, MergedLeaf mergeBlob3way (io.view s) (io.view s')
        (leafAt (io.view s) (rootEntries (io.view s) base) path)
        (leafAt (io.view s) (rootEntries (io.view s) ours) path)
        (leafAt (io.view s) (rootEntries (io.view s) theirs) path)
        (leafAt (io.view s') merged path) := by
  obtain ⟨bs, s₁, hload₁, hy₁⟩ := yields_bind.1 hy
  obtain ⟨os, s₂, hload₂, hy₂⟩ := yields_bind.1 hy₁
  obtain ⟨ts, s₃, hload₃, hy₃⟩ := yields_bind.1 hy₂
  obtain ⟨⟨merged, conflicts⟩, s₄, hmerge, hy₄⟩ := yields_bind.1 hy₃
  obtain ⟨h, s₅, hput, hy₅⟩ := yields_bind.1 hy₄
  obtain ⟨hout, rfl⟩ := yields_pure.1 hy₅
  obtain ⟨rfl, rfl⟩ := MergeResult.mk.inj hout
  have hv := Extends.refl (io.view s)
  obtain ⟨rfl, hbwf, hkeep₁⟩ := yields_loadEntries_root hload₁ hv hb
  obtain ⟨rfl, howf, hkeep₂⟩ := yields_loadEntries_root hload₂ (hkeep₁ ▸ hv) ho
  obtain ⟨rfl, htwf, hkeep₃⟩ := yields_loadEntries_root hload₃ (hkeep₂ ▸ hkeep₁ ▸ hv) ht
  have hkeep : io.view s₃ = io.view s := hkeep₃.trans (hkeep₂.trans hkeep₁)
  obtain ⟨-, hwf, hleaf⟩ := mergesEntries_mergeEntriesRecursive (io.view s)
    (MAX_TREE_DEPTH + 1) _ _ _ _ _ _ _ _ hmerge (hkeep ▸ hv) hbwf howf htwf
  obtain ⟨hstored, hext⟩ := yields_putTree hput
  refine ⟨merged, hstored, hwf.extends hext, fun path => ?_⟩
  rw [leafAt_extends hext hwf]
  exact (hleaf path).extends hext

end Rows

/-! ### A store in memory, and two merges in it -/

/-- Object bytes by id. -/
abbrev MemoryObjects := AList fun _ : Hash => Bytes

def MemoryObjects.view (s : MemoryObjects) (h : Hash) : Option Object :=
  (s.lookup h).bind fun bytes => (deserialize bytes).toOption

def memoryRead (h : Hash) : StoreM MemoryObjects Object := do
  let s ← get
  match s.view h with
  | some o => pure o
  | none => throw (.objectNotFound (toHex h))

/-- Put bytes under their id. Bytes that would not be read back are refused, among them those
that collide with other ones. -/
def memoryPut (B : Blake3) (bytes : Bytes) : StoreM MemoryObjects Hash := do
  let s ← get
  match objectIdFromBytes B bytes, deserialize bytes with
  | some h, .ok _ =>
    match s.lookup h with
    | none => do
      set (s.insert h bytes)
      pure h
    | some old => if old = bytes then pure h else throw .io
  | _, _ => throw .io

theorem yields_memoryPut {B : Blake3} {bytes : Bytes} {s s' : MemoryObjects} {h : Hash}
    (hy : Yields (memoryPut B bytes) s h s') : (∃ o, deserialize bytes = .ok o) ∧
      (s.lookup h = none ∧ s' = s.insert h bytes ∨ s.lookup h = some bytes ∧ s' = s) := by
  obtain ⟨t, s₁, hget, hy₁⟩ := yields_bind.1 hy
  obtain ⟨rfl, rfl⟩ := yields_get.1 hget
  split at hy₁
  · rename_i h' o hid hd
    refine ⟨⟨o, hd⟩, ?_⟩
    split at hy₁
    · rename_i hnone
      obtain ⟨_, s₂, hset, hy₂⟩ := yields_bind.1 hy₁
      obtain ⟨rfl, rfl⟩ := yields_pure.1 hy₂
      exact .inl ⟨hnone, (yields_set.1 hset).symm⟩
    · rename_i old hold
      split at hy₁
      · rename_i heq
        obtain ⟨rfl, rfl⟩ := yields_pure.1 hy₁
        exact .inr ⟨heq ▸ hold, rfl⟩
      · exact absurd hy₁ yields_throw
  · exact absurd hy₁ yields_throw

/-- The store in memory. -/
def memorySink (B : Blake3) : SourceSink MemoryObjects where
  view := MemoryObjects.view
  readObject := memoryRead
  put := memoryPut B
  view_of_read := by
    intro h s o s' hy
    obtain ⟨t, s₁, hget, hy₁⟩ := yields_bind.1 hy
    obtain ⟨rfl, rfl⟩ := yields_get.1 hget
    split at hy₁
    · rename_i o' ho'
      obtain ⟨rfl, rfl⟩ := yields_pure.1 hy₁
      exact ⟨ho', rfl⟩
    · exact absurd hy₁ yields_throw
  view_of_put := by
    intro _ bytes s h s' _ hy
    obtain ⟨⟨o, hd⟩, hs'⟩ := yields_memoryPut hy
    have hlookup : s'.lookup h = some bytes := by
      rcases hs' with ⟨-, rfl⟩ | ⟨hold, rfl⟩
      · exact AList.lookup_insert s
      · exact hold
    refine ⟨o, ?_, (deserialize_eq_ok_iff.1 hd).2⟩
    rw [MemoryObjects.view, hlookup, Option.bind_some, hd]
    rfl
  kept_of_put := by
    intro bytes s h s' hy k o hk
    obtain ⟨-, ⟨hnone, rfl⟩ | ⟨-, rfl⟩⟩ := yields_memoryPut hy
    · have hkh : k ≠ h := by
        rintro rfl
        simp [MemoryObjects.view, hnone] at hk
      rwa [MemoryObjects.view, AList.lookup_insert_ne hkh]
    · exact hk

/-- The bytes of an object, and the id they are stored under. -/
def stored (o : Object) : Bytes × Hash :=
  let bytes := (serialize o).toOption.getD []
  (bytes, (objectIdFromBytes toyBlake3 bytes).getD ZERO)

/-- The store that holds some objects. -/
def storedObjects (objects : List Object) : MemoryObjects :=
  objects.foldr (fun o s => s.insert (stored o).2 (stored o).1) ∅

/-- A one-byte file, stored as a blob. -/
def inlineFile : Object := .blob ⟨[7]⟩

/-- The same file behind a manifest of one chunk. -/
def chunkedFile : Object := .chunkedBlob ⟨1, 0, [(stored inlineFile).2]⟩

/-- A tree with one file, `a`. -/
def treeOfFile (file : Object) : Object := .tree ⟨[⟨[97], .blob, (stored file).2⟩]⟩

/-- One file in both layouts, in a tree each. -/
def bothLayouts : MemoryObjects :=
  storedObjects [inlineFile, chunkedFile, treeOfFile inlineFile, treeOfFile chunkedFile]

/-- Three files of three lines: the second changes the first line, the third the last. -/
def textFile (first last : UInt8) : Object := .blob ⟨[first, 10, 50, 10, last, 10]⟩

/-- Take the first line from ours and the last one from theirs, where they were changed. -/
def mergeThreeLines (base ours theirs : Bytes) : Option Bytes :=
  match base, ours, theirs with
  | [b, 10, 50, 10, b', 10], [o, 10, 50, 10, o', 10], [t, 10, 50, 10, t', 10] =>
    if t = b ∧ o' = b' then some [o, 10, 50, 10, t', 10] else none
  | _, _, _ => none

/-- The directory that holds the file `f`. -/
def directoryOf (file : Object) : Object := .tree ⟨[⟨[102], .blob, (stored file).2⟩]⟩

/-- A tree with the directory `d` and other entries. -/
def treeOfDirectory (file : Object) (others : List TreeEntry) : Object :=
  .tree ⟨⟨[100], .tree, (stored (directoryOf file)).2⟩ :: others⟩

/-- The file `g`. -/
def fileG : TreeEntry := ⟨[103], .executable, (stored inlineFile).2⟩

/-- A file changed on both sides below a directory, and a file that theirs deletes. -/
def nestedMemory : MemoryObjects :=
  storedObjects [inlineFile, textFile 49 51, textFile 48 51, textFile 49 52,
    directoryOf (textFile 49 51), directoryOf (textFile 48 51), directoryOf (textFile 49 52),
    treeOfDirectory (textFile 49 51) [fileG], treeOfDirectory (textFile 48 51) [fileG],
    treeOfDirectory (textFile 49 52) []]

/-- The merge of the two changes. -/
def nestedMerge : StoreM MemoryObjects MergeResult :=
  mergeTrees (memorySink toyBlake3) mergeThreeLines
    (some (stored (treeOfDirectory (textFile 49 51) [fileG])).2)
    (some (stored (treeOfDirectory (textFile 48 51) [fileG])).2)
    (some (stored (treeOfDirectory (textFile 49 52) [])).2)

theorem clean_merge_pathwise_nested : ∃ s' merged,
      Yields nestedMerge nestedMemory
        ⟨(stored (treeOfDirectory (textFile 48 52) [])).2, []⟩ s' ∧
      s'.view (stored (treeOfDirectory (textFile 48 52) [])).2 = some (.tree ⟨merged⟩) ∧
      TreeWf s'.view (MAX_TREE_DEPTH + 1) merged ∧
      ∀ path, MergedLeaf mergeThreeLines nestedMemory.view s'.view
        (leafAt nestedMemory.view (rootEntries nestedMemory.view
          (some (stored (treeOfDirectory (textFile 49 51) [fileG])).2)) path)
        (leafAt nestedMemory.view (rootEntries nestedMemory.view
          (some (stored (treeOfDirectory (textFile 48 51) [fileG])).2)) path)
        (leafAt nestedMemory.view (rootEntries nestedMemory.view
          (some (stored (treeOfDirectory (textFile 49 52) [])).2)) path)
        (leafAt s'.view merged path) := by
  have hok : (exec nestedMerge nestedMemory).1 =
      .ok ⟨(stored (treeOfDirectory (textFile 48 52) [])).2, []⟩ := by decide +kernel
  have hy : Yields nestedMerge nestedMemory
      ⟨(stored (treeOfDirectory (textFile 48 52) [])).2, []⟩
      (exec nestedMerge nestedMemory).2 := by
    rw [Yields, ← hok]
  obtain ⟨merged, hmerged⟩ := clean_merge_pathwise (memorySink toyBlake3) mergeThreeLines _ _ _ _ _
    _ (by decide +kernel) (by decide +kernel) (by decide +kernel) hy
  exact ⟨_, merged, hy, hmerged⟩

/-- The merge of one file in two layouts: ours and theirs have it as a blob, base has it
behind a manifest. -/
def layoutMerge : Except StoreError MergeResult × MemoryObjects :=
  exec (mergeTrees (memorySink toyBlake3) mergeThreeLines
    (some (stored (treeOfFile chunkedFile)).2) (some (stored (treeOfFile inlineFile)).2)
    (some (stored (treeOfFile inlineFile)).2)) bothLayouts

/-- Where all three leaves agree the merged leaf is that of base: here ours and theirs are the
same leaf, and the merged one is another object. -/
theorem agreeing_leaf_keeps_base :
    RootWf bothLayouts.view (some (stored (treeOfFile chunkedFile)).2) ∧
    RootWf bothLayouts.view (some (stored (treeOfFile inlineFile)).2) ∧
    layoutMerge.1 = .ok ⟨(stored (treeOfFile chunkedFile)).2, []⟩ ∧
    SameLeaf bothLayouts.view
      (leafAt bothLayouts.view
        (rootEntries bothLayouts.view (some (stored (treeOfFile inlineFile)).2)) [[97]])
      (leafAt bothLayouts.view
        (rootEntries bothLayouts.view (some (stored (treeOfFile inlineFile)).2)) [[97]]) ∧
    leafAt layoutMerge.2.view
        (rootEntries layoutMerge.2.view (some (stored (treeOfFile chunkedFile)).2)) [[97]] ≠
      leafAt bothLayouts.view
        (rootEntries bothLayouts.view (some (stored (treeOfFile inlineFile)).2)) [[97]] := by
  refine ⟨?_, ?_, ?_, ?_, ?_⟩ <;> decide +kernel

end Mkit
