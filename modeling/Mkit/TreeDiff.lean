import Mkit.ContentReads
import Mkit.Lib.Text
import Mkit.TreeMerge

/-!
# Tree Diffs

The diff of two trees (`ops/diff.rs`). `diffTrees` walks the sorted entries of both in lockstep,
descends into directories that differ, and lists what it finds leaf by leaf under the full path,
sorted by path.

A diff is a statement about leaves, `ExactDiff`: the paths listed are those where the two trees
differ in presence, mode or content, each entry describes the two leaves at its path, and the
entries turn the leaves of the old tree into those of the new one. `diffTrees_exact_iff` says
when a diff is exact: always, but for files behind two manifests with the same bytes whose empty
chunks fall in different places, which the comparison of contents takes to be different.
-/

namespace Mkit

open Effect Lockstep

/-- The kinds of change. -/
inductive DiffKind where
  | added
  | removed
  | modified
  | modeChanged
  | renamed
deriving DecidableEq

/-- One change to a leaf. The path is the bytes of the source's string; `old_path` is set for
renamed entries only. -/
structure DiffEntry where
  path : Bytes
  kind : DiffKind
  old_hash : Option Hash
  new_hash : Option Hash
  old_mode : Option EntryMode
  new_mode : Option EntryMode
  old_path : Option Bytes
deriving DecidableEq

/-- The changes, sorted by path. -/
structure DiffResult where
  entries : List DiffEntry
deriving DecidableEq

/-! ### The diff -/

section Model

variable {σ : Type} (io : SourceSink σ)

/-- The entries of a tree. -/
def loadTree (h : Hash) : StoreM σ (List TreeEntry) :=
  loadEntries io (some h)

/-- The path of an entry below a directory. A name that is not UTF-8 is rendered lossily. -/
def diffJoinPath (dir name : Bytes) : Bytes :=
  joinPath dir (Text.fromUtf8Lossy name)

/-- What a step finds for each element, one after the other. -/
def collect {α β : Type} (step : α → StoreM σ (List β)) : List α → StoreM σ (List β)
  | [] => pure []
  | x :: rest => do
    let found ← step x
    let found' ← collect step rest
    pure (found ++ found')

/-- Every leaf of an entry; `room` levels of directories are left before the depth bound is
passed. -/
def addEntries (leaf : Bytes → TreeEntry → DiffEntry) :
    ℕ → Bytes → TreeEntry → StoreM σ (List DiffEntry)
  | 0, _, _ => throw .treeTooDeep
  | room + 1, dir, entry =>
    if entry.mode = .tree then do
      let sub ← loadTree io entry.object_hash
      collect (addEntries leaf room (diffJoinPath dir entry.name)) sub
    else pure [leaf (diffJoinPath dir entry.name) entry]

/-- A leaf that is gone. -/
def removedEntry (path : Bytes) (entry : TreeEntry) : DiffEntry where
  path := path
  kind := .removed
  old_hash := some entry.object_hash
  new_hash := none
  old_mode := some entry.mode
  new_mode := none
  old_path := none

/-- A leaf that is new. -/
def addedEntry (path : Bytes) (entry : TreeEntry) : DiffEntry where
  path := path
  kind := .added
  old_hash := none
  new_hash := some entry.object_hash
  old_mode := none
  new_mode := some entry.mode
  old_path := none

/-- A leaf that is on both sides. -/
def changedEntry (kind : DiffKind) (path : Bytes) (o n : TreeEntry) : DiffEntry where
  path := path
  kind := kind
  old_hash := some o.object_hash
  new_hash := some n.object_hash
  old_mode := some o.mode
  new_mode := some n.mode
  old_path := none

/-- Every leaf of an entry, as removed. -/
def addRemovedEntries : ℕ → Bytes → TreeEntry → StoreM σ (List DiffEntry) :=
  addEntries io removedEntry

/-- Every leaf of an entry, as added. -/
def addAddedEntries : ℕ → Bytes → TreeEntry → StoreM σ (List DiffEntry) :=
  addEntries io addedEntry

/-- A regular file on one side and an executable one on the other. -/
def regularExecutablePair (a b : EntryMode) : Bool :=
  a = .blob ∧ b = .executable ∨ a = .executable ∧ b = .blob

/-- The changes under one name; `recurse` compares two directories. -/
def diffPair (recurse : Bytes → List TreeEntry → List TreeEntry → StoreM σ (List DiffEntry))
    (ignore_regular_executable_mode : Bool) (room : ℕ) (dir : Bytes) :
    Option TreeEntry × Option TreeEntry → StoreM σ (List DiffEntry)
  | (some o, none) => addRemovedEntries io room dir o
  | (none, some n) => addAddedEntries io room dir n
  | (some o, some n) =>
    if o.mode = .tree ∧ n.mode = .tree then
      if o.object_hash ≠ n.object_hash then do
        let oldSub ← loadTree io o.object_hash
        let newSub ← loadTree io n.object_hash
        recurse (diffJoinPath dir o.name) oldSub newSub
      else pure []
    else if o.mode = .tree ∨ n.mode = .tree then do
      -- A directory replaced by a file, or a file by a directory.
      let removed ← addRemovedEntries io room dir o
      let added ← addAddedEntries io room dir n
      pure (removed ++ added)
    else do
      let same ← contentEq io o.object_hash n.object_hash
      if same then
        if o.mode = n.mode then pure []
        else if !ignore_regular_executable_mode || !regularExecutablePair o.mode n.mode then
          pure [changedEntry .modeChanged (diffJoinPath dir o.name) o n]
        else pure []
      else if o.object_hash ≠ n.object_hash ∨ o.mode ≠ n.mode then
        pure [changedEntry .modified (diffJoinPath dir o.name) o n]
      else pure []
  | (none, none) => pure []

/-- The lockstep walk of two lists of entries. -/
def diffEntriesRecursive (ignore_regular_executable_mode : Bool) :
    ℕ → Bytes → List TreeEntry → List TreeEntry → StoreM σ (List DiffEntry)
  | 0, _, _, _ => throw .treeTooDeep
  | room + 1, dir, old, new =>
    collect
      (diffPair io (diffEntriesRecursive ignore_regular_executable_mode room)
        ignore_regular_executable_mode (room + 1) dir)
      (pairs TreeEntry.name (old.length + new.length) old new)

/-- Entries in the order of their paths. -/
def sortByPath (entries : List DiffEntry) : List DiffEntry :=
  entries.insertionSort fun a b => a.path ≤ b.path

/-- Compare two trees, either of which may be missing. -/
def diffTreesInner (old new : Option Hash) (ignore_regular_executable_mode : Bool) :
    StoreM σ DiffResult :=
  if old = new then pure ⟨[]⟩
  else do
    let oldEntries ← loadEntries io old
    let newEntries ← loadEntries io new
    let out ← diffEntriesRecursive io ignore_regular_executable_mode (MAX_TREE_DEPTH + 1) []
      oldEntries newEntries
    pure ⟨sortByPath out⟩

/-- Compare two trees. -/
def diffTrees (old new : Option Hash) : StoreM σ DiffResult :=
  diffTreesInner io old new false

end Model

/-! ### What a diff says -/

section Meaning

/-- Both absent, or the same mode and contents that are the same for `same`. -/
def SameBy (same : Hash → Hash → Prop) : Option Leaf → Option Leaf → Prop
  | none, none => True
  | some a, some b => a.mode = b.mode ∧ same a.object_hash b.object_hash
  | _, _ => False

/-- The kind of change from one leaf to another. -/
def KindOf (same : Hash → Hash → Prop) : Option Leaf → Option Leaf → DiffKind → Prop
  | none, some _, .added => True
  | some _, none, .removed => True
  | some o, some n, .modeChanged => same o.object_hash n.object_hash
  | some o, some n, .modified => ¬ same o.object_hash n.object_hash
  | _, _, _ => False

/-- An entry that describes the change from one leaf to another. -/
structure Describes (same : Hash → Hash → Prop) (old new : Option Leaf) (e : DiffEntry) :
    Prop where
  kind : KindOf same old new e.kind
  old_hash : e.old_hash = old.map Leaf.object_hash
  new_hash : e.new_hash = new.map Leaf.object_hash
  old_mode : e.old_mode = old.map Leaf.mode
  new_mode : e.new_mode = new.map Leaf.mode
  old_path : e.old_path = none

/-- The leaf an entry leaves behind. -/
def DiffEntry.newLeaf (e : DiffEntry) : Option Leaf :=
  e.new_mode.bind fun mode => e.new_hash.map fun h => ⟨mode, h⟩

/-- Apply entries to leaves by path. -/
def applyEntries (leaves : Bytes → Option Leaf) (entries : List DiffEntry) :
    Bytes → Option Leaf :=
  entries.foldl (fun leaves e => Function.update leaves e.path e.newLeaf) leaves

/-- The entries are the differences between two trees, given by their leaves: no path twice,
sorted, a path for every difference and no others, each described by its entry. Applied to the
one they give the other. -/
structure ExactDiff (same : Hash → Hash → Prop) (old new : Bytes → Option Leaf)
    (entries : List DiffEntry) : Prop where
  sorted : entries.Pairwise fun a b => a.path < b.path
  listed : ∀ path, (∃ e ∈ entries, e.path = path) ↔ ¬ SameBy same (old path) (new path)
  describes : ∀ e ∈ entries, Describes same (old e.path) (new e.path) e
  applies : ∀ path, SameBy same (applyEntries old entries path) (new path)

variable (v : View)

/-- The leaf at a `/`-joined path. -/
def leafAtPath (entries : List TreeEntry) (path : Bytes) : Option Leaf :=
  leafAt v entries (path.splitOn 0x2f)

/-- An entry leads to a stored tree that is held `below`, or to content that can be
reassembled. -/
def EntryHeld (below : List TreeEntry → Prop) (e : TreeEntry) : Prop :=
  if e.mode = .tree then ∃ entries ∈ treeAt v e.object_hash, below entries
  else (content v e.object_hash).isSome

instance (below : List TreeEntry → Prop) [DecidablePred below] (e : TreeEntry) :
    Decidable (EntryHeld v below e) :=
  inferInstanceAs (Decidable (if e.mode = .tree then
    ∃ entries ∈ treeAt v e.object_hash, below entries else (content v e.object_hash).isSome))

/-- Entries sorted by name, with UTF-8 names, all of whose objects are present, with at most
`levels` levels of directories. -/
def TreeHeld : ℕ → List TreeEntry → Prop
  | 0, _ => False
  | levels + 1, entries =>
    Ascending TreeEntry.name entries ∧
      ∀ e ∈ entries, Text.isUtf8 e.name = true ∧ EntryHeld v (TreeHeld levels) e

instance decidableTreeHeld : (levels : ℕ) → DecidablePred (TreeHeld v levels)
  | 0 => fun _ => isFalse id
  | levels + 1 => fun entries =>
    have := decidableTreeHeld levels
    inferInstanceAs (Decidable (entries.Pairwise (fun x y => x.name < y.name) ∧
      ∀ e ∈ entries, Text.isUtf8 e.name = true ∧ EntryHeld v (TreeHeld v levels) e))

/-- A tree that is missing, or held within the depth bound. -/
def RootHeld (root : Option Hash) : Prop :=
  ∀ h ∈ root, ∃ entries ∈ treeAt v h, TreeHeld v (MAX_TREE_DEPTH + 1) entries

instance (root : Option Hash) : Decidable (RootHeld v root) :=
  inferInstanceAs (Decidable (∀ h ∈ root, ∃ entries ∈ treeAt v h, TreeHeld v _ entries))

end Meaning

/-! ### Lists of differences

Below a directory the leaves are known by the names that lead to them from there. `Lists` says
that entries are the differences between two such families of leaves, one for each.
-/

/-- The path that names lead to from a directory. -/
def pathUnder (dir : Bytes) (names : List Bytes) : Bytes :=
  names.foldl diffJoinPath dir

/-- An entry for the change between two leaves at a path. -/
def EntryAt (same : Hash → Hash → Prop) (path : Bytes) (old new : Option Leaf) (e : DiffEntry) :
    Prop :=
  e.path = path ∧ Describes same old new e

/-- The entries are the differences between the leaves `old` and `new` below `dir`. -/
def Lists (same : Hash → Hash → Prop) (dir : Bytes) (old new : List Bytes → Option Leaf)
    (entries : List DiffEntry) : Prop :=
  ∃ names : List (List Bytes), names.Nodup ∧ (∀ q, q ∈ names ↔ ¬ SameBy same (old q) (new q)) ∧
    List.Forall₂ (fun q e => EntryAt same (pathUnder dir q) (old q) (new q) e) names entries

section Lists

variable {same : Hash → Hash → Prop} {dir : Bytes} {old new : List Bytes → Option Leaf}

theorem lists_nil (h : ∀ q, SameBy same (old q) (new q)) : Lists same dir old new [] :=
  ⟨[], List.nodup_nil, fun q => iff_of_false List.not_mem_nil (not_not.2 (h q)), .nil⟩

/-- The directory is a leaf itself. -/
theorem lists_single {e : DiffEntry} (h : ¬ SameBy same (old []) (new []))
    (hrest : ∀ q, q ≠ [] → SameBy same (old q) (new q))
    (he : EntryAt same dir (old []) (new []) e) : Lists same dir old new [e] := by
  refine ⟨[[]], List.nodup_singleton _, fun q => ?_, .cons he .nil⟩
  rw [List.mem_singleton]
  constructor
  · rintro rfl
    exact h
  · intro hq
    by_contra hne
    exact hq (hrest q hne)

variable {x : Option Leaf}

theorem sameBy_none_left : SameBy same none x ↔ x = none := by
  cases x with
  | none => exact iff_of_true trivial rfl
  | some a => exact iff_of_false id (Option.some_ne_none a)

theorem sameBy_none_right : SameBy same x none ↔ x = none := by
  cases x with
  | none => exact iff_of_true trivial rfl
  | some a => exact iff_of_false id (Option.some_ne_none a)

/-- Leaves that are gone and leaves that are new, nowhere both. -/
theorem Lists.append {removed added : List DiffEntry}
    (hr : Lists same dir old (fun _ => none) removed)
    (ha : Lists same dir (fun _ => none) new added) (h : ∀ q, old q = none ∨ new q = none) :
    Lists same dir old new (removed ++ added) := by
  obtain ⟨gone, hgone, hmem, hdescribe⟩ := hr
  obtain ⟨fresh, hfresh, hmem', hdescribe'⟩ := ha
  have hold : ∀ q, q ∈ gone ↔ old q ≠ none := fun q =>
    (hmem q).trans (not_congr sameBy_none_right)
  have hnew : ∀ q, q ∈ fresh ↔ new q ≠ none := fun q =>
    (hmem' q).trans (not_congr sameBy_none_left)
  have hdescribe₁ : List.Forall₂ (fun q e => EntryAt same (pathUnder dir q) (old q) (new q) e)
      gone removed := by
    refine ((List.forall₂_and_left _ _).2 ⟨fun q hq => (hold q).1 hq, hdescribe⟩).imp ?_
    rintro q e ⟨hq, he⟩
    rwa [(h q).resolve_left hq]
  have hdescribe₂ : List.Forall₂ (fun q e => EntryAt same (pathUnder dir q) (old q) (new q) e)
      fresh added := by
    refine ((List.forall₂_and_left _ _).2 ⟨fun q hq => (hnew q).1 hq, hdescribe'⟩).imp ?_
    rintro q e ⟨hq, he⟩
    rwa [(h q).resolve_right hq]
  refine ⟨gone ++ fresh, List.nodup_append.2 ⟨hgone, hfresh, ?_⟩, fun q => ?_,
    List.rel_append hdescribe₁ hdescribe₂⟩
  · rintro q hq q' hq' rfl
    exact (h q).elim ((hold q).1 hq) ((hnew q).1 hq')
  · rw [List.mem_append, hold, hnew]
    rcases h q with hq | hq
    · rw [hq, sameBy_none_left]
      exact or_iff_right fun hne => hne rfl
    · rw [hq, sameBy_none_right]
      exact or_iff_left fun hne => hne rfl

variable {ks : List Bytes} {outs : List (List DiffEntry)}

/-- The differences under each of some names, none of them twice. -/
theorem exists_lists_names (hks : ks.Nodup)
    (h : List.Forall₂ (fun k out => Lists same (diffJoinPath dir k) (fun q => old (k :: q))
      (fun q => new (k :: q)) out) ks outs) : ∃ names : List (List Bytes), names.Nodup ∧
      (∀ q, q ∈ names ↔ ∃ k ∈ ks, ∃ q', q = k :: q' ∧ ¬ SameBy same (old q) (new q)) ∧
      List.Forall₂ (fun q e => EntryAt same (pathUnder dir q) (old q) (new q) e) names
        outs.flatten := by
  induction h with
  | nil => exact ⟨[], List.nodup_nil, fun q => by simp, .nil⟩
  | @cons k out ks outs hk _ ih =>
    obtain ⟨hnotMem, hks⟩ := List.nodup_cons.1 hks
    obtain ⟨names, hnodup, hmem, hdescribe⟩ := ih hks
    obtain ⟨below, hbelow, hmemBelow, hdescribeBelow⟩ := hk
    have hunder : ∀ q, q ∈ below.map (k :: ·) ↔
        ∃ q', q = k :: q' ∧ ¬ SameBy same (old q) (new q) := by
      intro q
      rw [List.mem_map]
      constructor
      · rintro ⟨q', hq', rfl⟩
        exact ⟨q', rfl, (hmemBelow q').1 hq'⟩
      · rintro ⟨q', rfl, hne⟩
        exact ⟨q', (hmemBelow q').2 hne, rfl⟩
    refine ⟨below.map (k :: ·) ++ names, List.nodup_append.2
      ⟨hbelow.map fun _ _ heq => (List.cons.inj heq).2, hnodup, ?_⟩, fun q => ?_, ?_⟩
    · rintro q hq q' hq' rfl
      obtain ⟨r, rfl, -⟩ := (hunder q).1 hq
      obtain ⟨k', hk', r', heq, -⟩ := (hmem _).1 hq'
      exact hnotMem ((List.cons.inj heq).1 ▸ hk')
    · rw [List.mem_append, hunder, hmem]
      simp only [List.mem_cons, exists_eq_or_imp]
    · exact List.rel_append (List.forall₂_map_left_iff.2 hdescribeBelow) hdescribe

/-- The differences under every name make up those of the directory. -/
theorem lists_names (hks : ks.Nodup)
    (h : List.Forall₂ (fun k out => Lists same (diffJoinPath dir k) (fun q => old (k :: q))
      (fun q => new (k :: q)) out) ks outs) (hnil : SameBy same (old []) (new []))
    (hother : ∀ k, k ∉ ks → ∀ q, SameBy same (old (k :: q)) (new (k :: q))) :
    Lists same dir old new outs.flatten := by
  obtain ⟨names, hnodup, hmem, hdescribe⟩ := exists_lists_names hks h
  refine ⟨names, hnodup, fun q => (hmem q).trans ⟨fun ⟨_, _, _, _, hne⟩ => hne, fun hne => ?_⟩,
    hdescribe⟩
  rcases q with - | ⟨k, q⟩
  · exact absurd hnil hne
  · exact ⟨k, by_contra fun hk => hne (hother k hk q), q, rfl, hne⟩

end Lists

/-! ### The walk -/

section Walk

variable {σ : Type} {io : SourceSink σ} {v : View}

variable {α β : Type} {s : σ}

/-- A loop whose steps return and leave the store as it is. -/
theorem returns_collect {step : α → StoreM σ (List β)} {P : α → List β → Prop}
    {l : List α} (hstep : ∀ x ∈ l, ∀ s, io.view s = v →
      Returns (step x) s fun out s' => P x out ∧ io.view s' = v) (hs : io.view s = v) :
    Returns (collect step l) s fun out s' =>
      (∃ outs, out = outs.flatten ∧ List.Forall₂ P l outs) ∧ io.view s' = v := by
  induction l generalizing s with
  | nil => exact returns_pure ⟨⟨[], rfl, .nil⟩, hs⟩
  | cons x l ih =>
    rw [List.forall_mem_cons] at hstep
    refine (hstep.1 s hs).bind ?_
    rintro out s₁ ⟨hout, hs₁⟩
    refine (ih hstep.2 hs₁).bind ?_
    rintro _ s₂ ⟨⟨outs, rfl, houts⟩, hs₂⟩
    exact returns_pure ⟨⟨out :: outs, rfl, .cons hout houts⟩, hs₂⟩

theorem collect_map {γ : Type} (step : α → StoreM σ (List β)) (f : γ → α) (l : List γ) :
    collect step (l.map f) = collect (fun x => step (f x)) l := by
  induction l with
  | nil => rfl
  | cons x l ih => rw [List.map_cons, collect, collect, ih]

theorem returns_loadTree (hreads : ReadsAll io) {h : Hash} {entries : List TreeEntry}
    (he : entries ∈ treeAt v h) (hs : io.view s = v) :
    Returns (loadTree io h) s fun r s' => r = entries ∧ io.view s' = v := by
  subst hs
  refine (returns_readObject hreads (eq_of_mem_treeAt he)).bind ?_
  rintro r s' ⟨rfl, hkeep⟩
  exact returns_pure ⟨rfl, hkeep⟩

/-! ### Whole entries -/

/-- Leaves that are on one side only, and the entries made of them. -/
structure OneSided (same : Hash → Hash → Prop) (leaf : Bytes → TreeEntry → DiffEntry)
    (old new : Option Leaf → Option Leaf) : Prop where
  absent : SameBy same (old none) (new none)
  present : ∀ x, ¬ SameBy same (old (some x)) (new (some x))
  entryAt : ∀ path (e : TreeEntry), EntryAt same path (old (some ⟨e.mode, e.object_hash⟩))
    (new (some ⟨e.mode, e.object_hash⟩)) (leaf path e)

variable {same : Hash → Hash → Prop}

theorem oneSided_removed : OneSided same removedEntry id fun _ => none where
  absent := trivial
  present := fun _ h => h
  entryAt := fun _ _ => ⟨rfl, trivial, rfl, rfl, rfl, rfl, rfl⟩

theorem oneSided_added : OneSided same addedEntry (fun _ => none) id where
  absent := trivial
  present := fun _ h => h
  entryAt := fun _ _ => ⟨rfl, trivial, rfl, rfl, rfl, rfl, rfl⟩

/-- The names of ascending entries are all different. -/
theorem nodup_names {entries : List TreeEntry} (h : Ascending TreeEntry.name entries) :
    (entries.map TreeEntry.name).Nodup := by
  rw [List.nodup_iff_pairwise_ne, List.pairwise_map]
  exact h.imp fun hlt => hlt.ne

/-- An entry is listed leaf by leaf. -/
theorem returns_addEntries (hreads : ReadsAll io) {leaf : Bytes → TreeEntry → DiffEntry}
    {old new : Option Leaf → Option Leaf} (hside : OneSided same leaf old new) {levels room : ℕ}
    (hroom : levels < room) {dir : Bytes} {e : TreeEntry}
    (he : EntryHeld v (TreeHeld v levels) e) (hs : io.view s = v) :
    Returns (addEntries io leaf room dir e) s fun out s' =>
      Lists same (diffJoinPath dir e.name) (fun q => old (leafUnder v (some e) q))
        (fun q => new (leafUnder v (some e) q)) out ∧ io.view s' = v := by
  induction room generalizing levels dir e s with
  | zero => omega
  | succ room ih =>
    rw [addEntries]
    by_cases hm : e.mode = .tree
    · rw [if_pos hm]
      rw [EntryHeld, if_pos hm] at he
      obtain ⟨sub, hsub, hheld⟩ := he
      rcases levels with - | levels
      · exact hheld.elim
      obtain ⟨hasc, hentries⟩ := hheld
      refine (returns_loadTree hreads hsub hs).bind ?_
      rintro r s₁ ⟨rfl, hs₁⟩
      refine (returns_collect (fun x hx s hs => ih (by omega) (hentries x hx).2 hs) hs₁).imp ?_
      rintro _ s₂ ⟨⟨outs, rfl, houts⟩, hs₂⟩
      refine ⟨lists_names (nodup_names hasc) (List.forall₂_map_left_iff.2 ?_) ?_ ?_, hs₂⟩
      · refine ((List.forall₂_and_left _ _).2 ⟨fun x hx => hx, houts⟩).imp ?_
        rintro x out ⟨hx, hout⟩
        have hunder : ∀ q, leafUnder v (some e) (x.name :: q) = leafUnder v (some x) q := by
          intro q
          rw [leafUnder_tree hm hsub, leafAt_cons, find_of_mem hasc hx]
        simpa only [hunder] using hout
      · rw [leafUnder_tree hm hsub]
        exact hside.absent
      · intro k hk q
        rw [leafUnder_tree hm hsub, leafAt_cons, find_eq_none_of_notMem hk]
        exact hside.absent
    · rw [if_neg hm]
      refine returns_pure ⟨lists_single ?_ (fun q hq => ?_) ?_, hs⟩
      · rw [leafUnder_file hm, if_pos rfl]
        exact hside.present _
      · rw [leafUnder_file hm, if_neg hq]
        exact hside.absent
      · rw [leafUnder_file hm, if_pos rfl]
        exact hside.entryAt _ e

/-! ### Pairs of entries -/

/-- What the comparison of contents finds equal. -/
def FoundEqual (v : View) (a b : Hash) : Prop :=
  content v a = content v b ∧ SameLayout v a b

theorem sameBy_foundEqual_refl (x : Option Leaf) : SameBy (FoundEqual v) x x := by
  cases x with
  | none => trivial
  | some a => exact ⟨rfl, rfl, .refl v _⟩

variable {recurse : Bytes → List TreeEntry → List TreeEntry → StoreM σ (List DiffEntry)}
  {o n : TreeEntry}

/-- Two files are compared by content and mode. -/
theorem returns_diffFiles (hreads : ReadsAll io) {room : ℕ}
    {dir : Bytes} (hmo : o.mode ≠ .tree) (hmn : n.mode ≠ .tree)
    (ho : (content v o.object_hash).isSome) (hn : (content v n.object_hash).isSome)
    (hs : io.view s = v) :
    Returns (diffPair io recurse false room dir (some o, some n)) s fun out s' =>
      Lists (FoundEqual v) (diffJoinPath dir o.name) (leafUnder v (some o))
        (leafUnder v (some n)) out ∧ io.view s' = v := by
  have hdirs : ¬ (o.mode = .tree ∧ n.mode = .tree) := fun h => hmo h.1
  have hdir : ¬ (o.mode = .tree ∨ n.mode = .tree) := fun h => h.elim hmo hmn
  have hold : leafUnder v (some o) [] = some ⟨o.mode, o.object_hash⟩ := by
    rw [leafUnder_file hmo, if_pos rfl]
  have hnew : leafUnder v (some n) [] = some ⟨n.mode, n.object_hash⟩ := by
    rw [leafUnder_file hmn, if_pos rfl]
  have hrest : ∀ q, q ≠ [] →
      SameBy (FoundEqual v) (leafUnder v (some o) q) (leafUnder v (some n) q) := by
    intro q hq
    rw [leafUnder_file hmo, leafUnder_file hmn, if_neg hq, if_neg hq]
    trivial
  subst hs
  rw [diffPair, if_neg hdirs, if_neg hdir]
  refine (returns_contentEq hreads ho hn).bind ?_
  rintro res s' ⟨hres, hs'⟩
  rcases res with - | -
  · have hdiffer : ¬ FoundEqual (io.view s) o.object_hash n.object_hash :=
      fun h => Bool.false_ne_true (hres.2 h)
    have hne : o.object_hash ≠ n.object_hash := fun heq => hdiffer ⟨by rw [heq], heq ▸ .refl _ _⟩
    rw [if_neg Bool.false_ne_true, if_pos (.inl hne)]
    refine returns_pure ⟨lists_single ?_ hrest ?_, hs'⟩
    · rw [hold, hnew]
      exact fun h => hdiffer h.2
    · rw [hold, hnew]
      exact ⟨rfl, hdiffer, rfl, rfl, rfl, rfl, rfl⟩
  · have hequal : FoundEqual (io.view s) o.object_hash n.object_hash := hres.1 rfl
    rw [if_pos rfl]
    by_cases hmode : o.mode = n.mode
    · rw [if_pos hmode]
      refine returns_pure ⟨lists_nil fun q => ?_, hs'⟩
      by_cases hq : q = []
      · rw [hq, hold, hnew]
        exact ⟨hmode, hequal⟩
      · exact hrest q hq
    · rw [if_neg hmode, Bool.not_false, Bool.true_or, if_pos rfl]
      refine returns_pure ⟨lists_single ?_ hrest ?_, hs'⟩
      · rw [hold, hnew]
        exact fun h => hmode h.1
      · rw [hold, hnew]
        exact ⟨rfl, hequal, rfl, rfl, rfl, rfl, rfl⟩

/-- A directory has no leaf where a file has one. -/
theorem leafUnder_none_of_modes {below : List TreeEntry → Prop}
    (ho : EntryHeld v below o) (hmo : o.mode = .tree) (hmn : n.mode ≠ .tree) (q : List Bytes) :
    leafUnder v (some o) q = none ∨ leafUnder v (some n) q = none := by
  rw [EntryHeld, if_pos hmo] at ho
  obtain ⟨sub, hsub, -⟩ := ho
  by_cases hq : q = []
  · subst hq
    exact .inl (leafUnder_tree hmo hsub [])
  · rw [leafUnder_file hmn, if_neg hq]
    exact .inr rfl

/-- What is done with a pair of entries of one name lists the differences below it. -/
theorem returns_diffPair (hreads : ReadsAll io)
    {levels room : ℕ} (hroom : levels < room) {dir k : Bytes}
    (hrecurse : ∀ dir old new s, TreeHeld v levels old → TreeHeld v levels new → io.view s = v →
      Returns (recurse dir old new) s fun out s' =>
        Lists (FoundEqual v) dir (leafAt v old) (leafAt v new) out ∧ io.view s' = v)
    {o n : Option TreeEntry} (ho : ∀ e ∈ o, e.name = k ∧ EntryHeld v (TreeHeld v levels) e)
    (hn : ∀ e ∈ n, e.name = k ∧ EntryHeld v (TreeHeld v levels) e) (hs : io.view s = v) :
    Returns (diffPair io recurse false room dir (o, n)) s fun out s' =>
      Lists (FoundEqual v) (diffJoinPath dir k) (leafUnder v o) (leafUnder v n) out ∧
        io.view s' = v := by
  have hremoved : OneSided (FoundEqual v) removedEntry id fun _ => none := oneSided_removed
  have hadded : OneSided (FoundEqual v) addedEntry (fun _ => none) id := oneSided_added
  rcases o with - | o <;> rcases n with - | n
  · exact returns_pure ⟨lists_nil fun q => trivial, hs⟩
  · obtain ⟨rfl, hheld⟩ := hn n rfl
    exact returns_addEntries hreads hadded hroom hheld hs
  · obtain ⟨rfl, hheld⟩ := ho o rfl
    exact returns_addEntries hreads hremoved hroom hheld hs
  · obtain ⟨hnameOld, ho⟩ := ho o rfl
    obtain ⟨hnameNew, hn⟩ := hn n rfl
    -- A directory on one side only.
    have hreplaced : o.mode = .tree ∨ n.mode = .tree → ¬ (o.mode = .tree ∧ n.mode = .tree) →
        (∀ q, leafUnder v (some o) q = none ∨ leafUnder v (some n) q = none) →
        Returns (diffPair io recurse false room dir (some o, some n)) s fun out s' =>
          Lists (FoundEqual v) (diffJoinPath dir k) (leafUnder v (some o)) (leafUnder v (some n))
            out ∧ io.view s' = v := by
      intro hone hboth hapart
      rw [diffPair, if_neg hboth, if_pos hone]
      refine (returns_addEntries hreads hremoved hroom ho hs).bind ?_
      rintro gone s₁ ⟨hgone, hs₁⟩
      refine (returns_addEntries hreads hadded hroom hn hs₁).bind ?_
      rintro fresh s₂ ⟨hfresh, hs₂⟩
      rw [hnameOld] at hgone
      rw [hnameNew] at hfresh
      exact returns_pure ⟨Lists.append hgone hfresh hapart, hs₂⟩
    by_cases hmo : o.mode = .tree <;> by_cases hmn : n.mode = .tree
    · rw [EntryHeld, if_pos hmo] at ho
      rw [EntryHeld, if_pos hmn] at hn
      obtain ⟨old, hold, hheldOld⟩ := ho
      obtain ⟨new, hnew, hheldNew⟩ := hn
      rw [diffPair, if_pos ⟨hmo, hmn⟩]
      split
      · refine (returns_loadTree hreads hold hs).bind ?_
        rintro r s₁ ⟨rfl, hs₁⟩
        refine (returns_loadTree hreads hnew hs₁).bind ?_
        rintro r' s₂ ⟨rfl, hs₂⟩
        have hunder : ∀ {e : TreeEntry} {sub : List TreeEntry}, e.mode = .tree →
            sub ∈ treeAt v e.object_hash → leafUnder v (some e) = leafAt v sub :=
          fun hm hsub => funext (leafUnder_tree hm hsub)
        rw [hunder hmo hold, hunder hmn hnew, hnameOld]
        exact hrecurse _ _ _ _ hheldOld hheldNew hs₂
      · rename_i heq
        rw [not_not] at heq
        rw [heq] at hold
        obtain rfl : old = new := Option.some.inj (hold.symm.trans hnew)
        refine returns_pure ⟨lists_nil fun q => ?_, hs⟩
        rw [leafUnder_tree hmo (heq ▸ hold), leafUnder_tree hmn hnew]
        exact sameBy_foundEqual_refl _
    · exact hreplaced (.inl hmo) (fun h => hmn h.2) (leafUnder_none_of_modes ho hmo hmn)
    · exact hreplaced (.inr hmn) (fun h => hmo h.1) fun q =>
        (leafUnder_none_of_modes hn hmn hmo q).symm
    · rw [EntryHeld, if_neg hmo] at ho
      rw [EntryHeld, if_neg hmn] at hn
      rw [← hnameOld]
      exact returns_diffFiles hreads hmo hmn ho hn hs

/-- The walk of two lists of entries lists the differences between their leaves. -/
theorem returns_diffEntriesRecursive (hreads : ReadsAll io) {levels room : ℕ}
    (hroom : levels ≤ room) {dir : Bytes} {old new : List TreeEntry}
    (hold : TreeHeld v levels old) (hnew : TreeHeld v levels new) (hs : io.view s = v) :
    Returns (diffEntriesRecursive io false room dir old new) s fun out s' =>
      Lists (FoundEqual v) dir (leafAt v old) (leafAt v new) out ∧ io.view s' = v := by
  induction room generalizing levels dir old new s with
  | zero =>
    obtain rfl : levels = 0 := by omega
    exact hold.elim
  | succ room ih =>
    rcases levels with - | levels
    · exact hold.elim
    have hrows : RowsOf TreeEntry.name old new []
        (rows TreeEntry.name (old.length + new.length) old new []) :=
      rowsOf_rows hold.1 hnew.1 .nil le_rfl
    have hheld : ∀ {entries : List TreeEntry}, TreeHeld v (levels + 1) entries → ∀ k,
        ∀ e ∈ find TreeEntry.name k entries,
          e.name = k ∧ EntryHeld v (TreeHeld v levels) e :=
      fun h k e he => ⟨key_of_find he, (h.2 e (mem_of_find he)).2⟩
    have hstep : ∀ r ∈ rows TreeEntry.name (old.length + new.length) old new [], ∀ s,
        io.view s = v → Returns (diffPair io (diffEntriesRecursive io false room) false (room + 1)
          dir r.pair) s fun out s' => Lists (FoundEqual v) (diffJoinPath dir r.key)
            (fun q => leafAt v old (r.key :: q)) (fun q => leafAt v new (r.key :: q)) out ∧
              io.view s' = v := by
      intro r hr s hs
      obtain ⟨hfirst, hsecond, -⟩ := hrows.lookups r hr
      simp only [leafAt_cons, Row.pair, hfirst, hsecond]
      exact returns_diffPair hreads (Nat.lt_succ_of_le (Nat.le_of_succ_le_succ hroom))
        (fun _ _ _ _ ho hn hs => ih (Nat.le_of_succ_le_succ hroom) ho hn hs) (hheld hold r.key)
        (hheld hnew r.key) hs
    rw [diffEntriesRecursive, pairs_eq_rows, collect_map]
    refine (returns_collect hstep hs).imp ?_
    rintro _ s' ⟨⟨outs, rfl, houts⟩, hs'⟩
    have hkeys : (List.map Row.key (rows TreeEntry.name (old.length + new.length) old new
        [])).Nodup := by
      rw [List.nodup_iff_pairwise_ne, List.pairwise_map]
      exact hrows.ascending.imp fun hlt => hlt.ne
    refine ⟨lists_names hkeys (List.forall₂_map_left_iff.2 houts) trivial ?_, hs'⟩
    intro k hk q
    obtain ⟨hnoneOld, hnoneNew, -⟩ := hrows.complete k fun r hr heq =>
      hk (heq ▸ List.mem_map_of_mem hr)
    rw [leafAt_cons, leafAt_cons, hnoneOld, hnoneNew]
    trivial

end Walk

/-! ### Paths as text

The names of a tree hold no `/`, so that a path can be split into its names again.
-/

section Paths

/-- A name that can stand between the slashes of a path. -/
structure PathName (name : Bytes) : Prop where
  utf8 : Text.isUtf8 name = true
  ne_nil : name ≠ []
  no_slash : 0x2f ∉ name

theorem diffJoinPath_nil {name : Bytes} (h : PathName name) : diffJoinPath [] name = name := by
  rw [diffJoinPath, Text.fromUtf8Lossy_of_isUtf8 h.utf8, joinPath, if_pos rfl]

theorem diffJoinPath_of_ne_nil {dir name : Bytes} (hdir : dir ≠ []) (h : PathName name) :
    diffJoinPath dir name = dir ++ 0x2f :: name := by
  rw [diffJoinPath, Text.fromUtf8Lossy_of_isUtf8 h.utf8, joinPath, if_neg hdir]

variable {names : List Bytes}

theorem pathUnder_of_ne_nil {dir : Bytes} (hdir : dir ≠ []) (h : ∀ name ∈ names, PathName name) :
    pathUnder dir names = [0x2f].intercalate (dir :: names) := by
  induction names generalizing dir with
  | nil => rw [List.intercalate_singleton, pathUnder, List.foldl_nil]
  | cons name names ih =>
    rw [List.forall_mem_cons] at h
    have hstep : pathUnder dir (name :: names) = pathUnder (dir ++ 0x2f :: name) names := by
      rw [pathUnder, List.foldl_cons, diffJoinPath_of_ne_nil hdir h.1, pathUnder]
    rw [hstep, ih (by simp) h.2, List.intercalate_cons_cons]
    cases names <;> simp [List.intercalate_cons_cons]

/-- The path that names lead to from the root is theirs, joined. -/
theorem pathUnder_nil (hne : names ≠ []) (h : ∀ name ∈ names, PathName name) :
    pathUnder [] names = [0x2f].intercalate names := by
  rcases names with - | ⟨name, names⟩
  · exact absurd rfl hne
  · rw [List.forall_mem_cons] at h
    rw [pathUnder, List.foldl_cons, diffJoinPath_nil h.1]
    exact pathUnder_of_ne_nil h.1.ne_nil h.2

theorem splitOn_pathUnder (hne : names ≠ [])
    (h : ∀ name ∈ names, PathName name) : (pathUnder [] names).splitOn 0x2f = names := by
  rw [pathUnder_nil hne h]
  exact List.splitOn_intercalate 0x2f (fun name hn => (h name hn).no_slash) hne

end Paths

/-! ### Exact diffs -/

section Exact

variable {same : Hash → Hash → Prop}

theorem applyEntries_of_forall_ne (leaves : Bytes → Option Leaf) {entries : List DiffEntry}
    {path : Bytes} (h : ∀ e ∈ entries, e.path ≠ path) :
    applyEntries leaves entries path = leaves path := by
  induction entries generalizing leaves with
  | nil => rfl
  | cons e entries ih =>
    rw [List.forall_mem_cons] at h
    have hrest := ih (Function.update leaves e.path e.newLeaf) h.2
    rw [Function.update_of_ne h.1.symm] at hrest
    exact hrest

variable {e : DiffEntry}

/-- An entry decides about its path when no later one has the same. -/
theorem applyEntries_of_mem {leaves : Bytes → Option Leaf} {entries : List DiffEntry}
    (hsorted : entries.Pairwise fun a b => a.path < b.path) (he : e ∈ entries) :
    applyEntries leaves entries e.path = e.newLeaf := by
  induction entries generalizing leaves with
  | nil => cases he
  | cons x entries ih =>
    obtain ⟨hlt, hrest⟩ := List.pairwise_cons.1 hsorted
    rcases List.mem_cons.1 he with rfl | he
    · have hlast := applyEntries_of_forall_ne (Function.update leaves e.path e.newLeaf)
        fun x hx => (hlt x hx).ne'
      rw [Function.update_self] at hlast
      exact hlast
    · exact ih hrest he

/-- The leaf an entry leaves behind is the new one. -/
theorem Describes.newLeaf_eq {old new : Option Leaf}
    (h : Describes same old new e) : e.newLeaf = new := by
  rw [DiffEntry.newLeaf, h.new_mode, h.new_hash]
  cases new <;> rfl

/-- The differences below the root, sorted, are an exact diff. -/
theorem exactDiff_sortByPath {old new : List Bytes → Option Leaf} {out : List DiffEntry}
    (h : Lists same [] old new out) (hrefl : ∀ x, SameBy same x x)
    (hnamed : ∀ q, ¬ SameBy same (old q) (new q) → q ≠ [] ∧ ∀ name ∈ q, PathName name) :
    ExactDiff same (fun path => old (path.splitOn 0x2f)) (fun path => new (path.splitOn 0x2f))
      (sortByPath out) := by
  obtain ⟨names, hnodup, hmem, hdescribe⟩ := h
  have hsplit : ∀ q ∈ names, (pathUnder [] q).splitOn 0x2f = q := by
    intro q hq
    obtain ⟨hne, hnames⟩ := hnamed q ((hmem q).1 hq)
    exact splitOn_pathUnder hne hnames
  -- Every entry is at the path of the names it is for.
  have hnames : names = out.map fun e => e.path.splitOn 0x2f := by
    rw [← List.forall₂_eq_eq_eq, List.forall₂_map_right_iff]
    refine ((List.forall₂_and_left _ _).2 ⟨fun q hq => hq, hdescribe⟩).imp ?_
    rintro q e ⟨hq, hpath, -⟩
    rw [hpath, hsplit q hq]
  subst hnames
  rw [List.forall₂_map_left_iff, List.forall₂_same] at hdescribe
  have hperm : (sortByPath out).Perm out := List.perm_insertionSort _ out
  have hsorted : (sortByPath out).Pairwise fun a b => a.path < b.path := by
    have hne : (sortByPath out).Pairwise fun a b => a.path ≠ b.path := by
      refine (hperm.pairwise_iff fun h => h.symm).2 ((List.pairwise_map.1 hnodup).imp ?_)
      exact fun hne heq => hne (congrArg (List.splitOn 0x2f) heq)
    exact ((List.pairwise_insertionSort _ out).and hne).imp fun h => lt_of_le_of_ne h.1 h.2
  have hlisted : ∀ path, (∃ e ∈ sortByPath out, e.path = path) ↔
      ¬ SameBy same (old (path.splitOn 0x2f)) (new (path.splitOn 0x2f)) := by
    intro path
    rw [← hmem, List.mem_map]
    constructor
    · rintro ⟨e, he, rfl⟩
      exact ⟨e, hperm.mem_iff.1 he, rfl⟩
    · rintro ⟨e, he, hsame⟩
      refine ⟨e, hperm.mem_iff.2 he, ?_⟩
      have hjoin : [0x2f].intercalate (e.path.splitOn 0x2f) = e.path := List.intercalate_splitOn 0x2f
      rw [← hjoin, hsame, List.intercalate_splitOn]
  have hdescribes : ∀ e ∈ sortByPath out,
      Describes same (old (e.path.splitOn 0x2f)) (new (e.path.splitOn 0x2f)) e :=
    fun e he => (hdescribe e (hperm.mem_iff.1 he)).2
  refine ⟨hsorted, hlisted, hdescribes, fun path => ?_⟩
  by_cases hpath : ∃ e ∈ sortByPath out, e.path = path
  · obtain ⟨e, he, rfl⟩ := hpath
    rw [applyEntries_of_mem hsorted he, (hdescribes e he).newLeaf_eq]
    exact hrefl _
  · rw [applyEntries_of_forall_ne _ fun e he heq => hpath ⟨e, he, heq⟩]
    exact not_not.1 (mt (hlisted path).2 hpath)

end Exact

/-! ### The leaves of a stored tree -/

section Names

variable {v : View}

/-- A stored tree has passed the check of its names. -/
theorem names_of_treeAt (hdecoded : ∀ h o, v h = some o → ∃ bytes, deserialize bytes = .ok o)
    {h : Hash} {entries : List TreeEntry} (he : entries ∈ treeAt v h) :
    ∀ e ∈ entries, TreeEntry.validateName e.name = true := by
  obtain ⟨bytes, hbytes⟩ := hdecoded h _ (eq_of_mem_treeAt he)
  exact (deserialize_eq_ok_iff.1 hbytes).1.2.1

/-- The names that lead to a leaf make up a path. -/
theorem pathNames_of_leafAt
    (hdecoded : ∀ h o, v h = some o → ∃ bytes, deserialize bytes = .ok o) {levels : ℕ}
    {entries : List TreeEntry} (h : TreeHeld v levels entries)
    (hvalid : ∀ e ∈ entries, TreeEntry.validateName e.name = true) {names : List Bytes}
    (hleaf : leafAt v entries names ≠ none) : names ≠ [] ∧ ∀ name ∈ names, PathName name := by
  induction levels generalizing entries names with
  | zero => exact h.elim
  | succ levels ih =>
    rcases names with - | ⟨name, names⟩
    · exact absurd (leafAt.eq_1 v entries) hleaf
    rw [leafAt_cons] at hleaf
    rcases hfind : find TreeEntry.name name entries with - | e
    · rw [hfind] at hleaf
      exact absurd rfl hleaf
    rw [hfind] at hleaf
    have hmem : e ∈ entries := mem_of_find hfind
    obtain rfl : e.name = name := key_of_find hfind
    obtain ⟨hutf8, hheld⟩ := h.2 e hmem
    have hname : PathName e.name := ⟨hutf8,
      List.ne_nil_of_length_pos (TreeEntry.one_le_length_of_validateName (hvalid e hmem)),
      TreeEntry.slash_notMem_of_validateName (hvalid e hmem)⟩
    refine ⟨List.cons_ne_nil _ _, List.forall_mem_cons.2 ⟨hname, ?_⟩⟩
    by_cases hm : e.mode = .tree
    · rw [EntryHeld, if_pos hm] at hheld
      obtain ⟨sub, hsub, hbelow⟩ := hheld
      rw [leafUnder_tree hm hsub] at hleaf
      exact (ih hbelow (names_of_treeAt hdecoded hsub) hleaf).2
    · rw [leafUnder_file hm] at hleaf
      split at hleaf
      · rename_i hnil
        subst hnil
        exact fun name h => absurd h List.not_mem_nil
      · exact absurd rfl hleaf

/-- The entries of a root that may be missing. -/
theorem rootHeld_entries (hdecoded : ∀ h o, v h = some o → ∃ bytes, deserialize bytes = .ok o)
    {root : Option Hash} (h : RootHeld v root) :
    TreeHeld v (MAX_TREE_DEPTH + 1) (rootEntries v root) ∧
      ∀ e ∈ rootEntries v root, TreeEntry.validateName e.name = true := by
  rcases root with - | r
  · exact ⟨⟨.nil, fun e he => absurd he List.not_mem_nil⟩, fun e he => absurd he List.not_mem_nil⟩
  · obtain ⟨entries, hentries, hheld⟩ := h r rfl
    have hroot : rootEntries v (some r) = entries := by
      rw [rootEntries, Option.bind_some, Option.mem_def.1 hentries, Option.getD_some]
    rw [hroot]
    exact ⟨hheld, names_of_treeAt hdecoded hentries⟩

end Names

/-! ### The main result -/

section Main

variable {v : View}

variable {x y : Option Leaf}

theorem SameBy.imp {same same' : Hash → Hash → Prop}
    (h : ∀ a ∈ x, ∀ b ∈ y, same a.object_hash b.object_hash → same' a.object_hash b.object_hash)
    (hxy : SameBy same x y) : SameBy same' x y := by
  rcases x with - | a <;> rcases y with - | b
  · trivial
  · exact hxy
  · exact hxy
  · exact ⟨hxy.1, h a rfl b rfl hxy.2⟩

theorem KindOf.imp {same same' : Hash → Hash → Prop} {kind : DiffKind}
    (h : ∀ a ∈ x, ∀ b ∈ y, same a.object_hash b.object_hash ↔ same' a.object_hash b.object_hash)
    (hkind : KindOf same x y kind) : KindOf same' x y kind := by
  rcases x with - | a <;> rcases y with - | b <;> rcases kind <;> try exact hkind
  · exact mt (h a rfl b rfl).2 hkind
  · exact (h a rfl b rfl).1 hkind

/-- A diff that is exact for the comparison is exact for the contents when the two agree
wherever both trees have a leaf. -/
theorem exactDiff_content_iff {old new : Bytes → Option Leaf} {entries : List DiffEntry}
    (h : ExactDiff (FoundEqual v) old new entries) :
    ExactDiff (fun a b => content v a = content v b) old new entries ↔
      ∀ path, ∀ o ∈ old path, ∀ n ∈ new path,
        content v o.object_hash = content v n.object_hash →
          SameLayout v o.object_hash n.object_hash := by
  constructor
  · intro hexact path o ho n hn hcontent
    by_contra hlayout
    have hdiffer : ¬ FoundEqual v o.object_hash n.object_hash := fun h => hlayout h.2
    have hne : ¬ SameBy (FoundEqual v) (old path) (new path) := by
      rw [Option.mem_def.1 ho, Option.mem_def.1 hn]
      exact fun h => hdiffer h.2
    obtain ⟨e, he, rfl⟩ := (h.listed path).2 hne
    -- The entry says that the file is modified, which it is not.
    have hfound := (h.describes e he).kind
    have hkind := (hexact.describes e he).kind
    rw [Option.mem_def.1 ho, Option.mem_def.1 hn] at hfound hkind
    rcases hk : e.kind <;> rw [hk] at hfound hkind
    · exact hfound
    · exact hfound
    · exact hkind hcontent
    · exact hdiffer hfound
    · exact hfound
  · intro hlayout
    have hiff : ∀ path, ∀ o ∈ old path, ∀ n ∈ new path,
        FoundEqual v o.object_hash n.object_hash ↔
          content v o.object_hash = content v n.object_hash :=
      fun path o ho n hn => ⟨fun h => h.1, fun h => ⟨h, hlayout path o ho n hn h⟩⟩
    refine ⟨h.sorted, fun path => (h.listed path).trans (not_congr ?_), fun e he => ?_,
      fun path => (h.applies path).imp fun _ _ _ _ hfound => hfound.1⟩
    · exact ⟨SameBy.imp fun o ho n hn => (hiff path o ho n hn).1,
        SameBy.imp fun o ho n hn => (hiff path o ho n hn).2⟩
    · have hd := h.describes e he
      exact { hd with kind := hd.kind.imp (hiff e.path) }

variable {σ : Type} {io : SourceSink σ}

theorem returns_loadEntries (hreads : ReadsAll io) {root : Option Hash} (h : RootHeld v root)
    {s : σ} (hs : io.view s = v) :
    Returns (loadEntries io root) s fun r s' => r = rootEntries v root ∧ io.view s' = v := by
  rcases root with - | r
  · exact returns_pure ⟨rfl, hs⟩
  · obtain ⟨entries, hentries, -⟩ := h r rfl
    have hroot : rootEntries v (some r) = entries := by
      rw [rootEntries, Option.bind_some, Option.mem_def.1 hentries, Option.getD_some]
    rw [hroot]
    exact returns_loadTree hreads hentries hs

/-- Up to what the comparison of contents finds equal, the diff is exact. -/
theorem returns_diffTrees (hreads : ReadsAll io)
    (hdecoded : ∀ h o, v h = some o → ∃ bytes, deserialize bytes = .ok o) {old new : Option Hash}
    (hold : RootHeld v old) (hnew : RootHeld v new) {s : σ} (hs : io.view s = v) :
    Returns (diffTrees io old new) s fun r _ =>
      ExactDiff (FoundEqual v) (leafAtPath v (rootEntries v old))
        (leafAtPath v (rootEntries v new)) r.entries := by
  obtain ⟨hheldOld, hvalidOld⟩ := rootHeld_entries hdecoded hold
  obtain ⟨hheldNew, hvalidNew⟩ := rootHeld_entries hdecoded hnew
  have hnamed : ∀ q, ¬ SameBy (FoundEqual v) (leafAt v (rootEntries v old) q)
      (leafAt v (rootEntries v new) q) → q ≠ [] ∧ ∀ name ∈ q, PathName name := by
    intro q hne
    by_cases hleaf : leafAt v (rootEntries v old) q = none
    · rw [hleaf, sameBy_none_left] at hne
      exact pathNames_of_leafAt hdecoded hheldNew hvalidNew hne
    · exact pathNames_of_leafAt hdecoded hheldOld hvalidOld hleaf
  rw [diffTrees, diffTreesInner]
  split
  · rename_i heq
    subst heq
    have hnone : Lists (FoundEqual v) [] (leafAt v (rootEntries v old))
        (leafAt v (rootEntries v old)) [] := lists_nil fun q => sameBy_foundEqual_refl _
    exact returns_pure (exactDiff_sortByPath hnone sameBy_foundEqual_refl hnamed)
  · refine (returns_loadEntries hreads hold hs).bind ?_
    rintro _ s₁ ⟨rfl, hs₁⟩
    refine (returns_loadEntries hreads hnew hs₁).bind ?_
    rintro _ s₂ ⟨rfl, hs₂⟩
    refine (returns_diffEntriesRecursive hreads le_rfl hheldOld hheldNew hs₂).bind ?_
    rintro out s₃ ⟨hout, -⟩
    exact returns_pure (exactDiff_sortByPath hout sameBy_foundEqual_refl hnamed)

/-- The diff of two trees that are present is exact if and only if no two files at one path are
behind manifests with the same bytes and empty chunks in different places. -/
theorem diffTrees_exact_iff (io : SourceSink σ) (hreads : ReadsAll io)
    (hdecoded : ∀ s h o, io.view s h = some o → ∃ bytes, deserialize bytes = .ok o) (s : σ)
    (old new : Option Hash) (hold : RootHeld (io.view s) old) (hnew : RootHeld (io.view s) new) :
    (∃ r s', Yields (diffTrees io old new) s r s' ∧
      ExactDiff (fun a b => content (io.view s) a = content (io.view s) b)
        (leafAtPath (io.view s) (rootEntries (io.view s) old))
        (leafAtPath (io.view s) (rootEntries (io.view s) new)) r.entries) ↔
      ∀ path, ∀ o ∈ leafAtPath (io.view s) (rootEntries (io.view s) old) path,
        ∀ n ∈ leafAtPath (io.view s) (rootEntries (io.view s) new) path,
          content (io.view s) o.object_hash = content (io.view s) n.object_hash →
            SameLayout (io.view s) o.object_hash n.object_hash := by
  obtain ⟨r, s', hy, hfound⟩ := returns_diffTrees hreads (hdecoded s) hold hnew rfl
  rw [← exactDiff_content_iff hfound]
  constructor
  · rintro ⟨r', s'', hy', hexact⟩
    obtain ⟨rfl, -⟩ := hy'.unique hy
    exact hexact
  · exact fun hexact => ⟨r, s', hy, hexact⟩

end Main

/-! ### Two trees whose file has one content in two layouts -/

theorem readsAll_memorySink (B : Blake3) : ReadsAll (memorySink B) := by
  intro s h o ho
  refine ⟨s, yields_get_bind.2 ?_⟩
  rw [show s.view h = some o from ho]
  exact yields_pure.2 ⟨rfl, rfl⟩

theorem decoded_memorySink (B : Blake3) (s : MemoryObjects) (h : Hash) (o : Object)
    (ho : (memorySink B).view s h = some o) : ∃ bytes, deserialize bytes = .ok o := by
  obtain ⟨bytes, -, hbytes⟩ := Option.bind_eq_some_iff.1 ho
  rcases hd : deserialize bytes with e | o'
  · rw [hd] at hbytes
    exact nomatch hbytes
  · rw [hd] at hbytes
    exact ⟨bytes, hd ▸ congrArg Except.ok (Option.some.inj hbytes)⟩

/-- A chunk without bytes. -/
def emptyChunk : Object := .blob ⟨[]⟩

/-- The one-byte file behind a manifest that starts with an empty chunk. -/
def paddedFile : Object :=
  .chunkedBlob ⟨1, 0, [(stored emptyChunk).2, (stored inlineFile).2]⟩

/-- The file behind a manifest with and without the empty chunk, and as a blob, in a tree each. -/
def threeLayouts : MemoryObjects :=
  storedObjects [emptyChunk, inlineFile, chunkedFile, paddedFile, treeOfFile inlineFile,
    treeOfFile chunkedFile, treeOfFile paddedFile]

/-- The root of a tree with the file behind some layout. -/
def layoutRoot (file : Object) : Option Hash :=
  some (stored (treeOfFile file)).2

theorem rootEntries_layoutRoot (file : Object)
    (hfile : file = inlineFile ∨ file = chunkedFile ∨ file = paddedFile) :
    RootHeld threeLayouts.view (layoutRoot file) ∧
      rootEntries threeLayouts.view (layoutRoot file) = [⟨[97], .blob, (stored file).2⟩] := by
  rcases hfile with rfl | rfl | rfl <;> exact ⟨by decide +kernel, by decide +kernel⟩

/-- The only leaf of a tree with one file. -/
theorem leafAt_single {v : View} {e : TreeEntry} (hm : e.mode ≠ .tree) {names : List Bytes}
    {leaf : Leaf} (h : leaf ∈ leafAt v [e] names) :
    names = [e.name] ∧ leaf = ⟨e.mode, e.object_hash⟩ := by
  rcases names with - | ⟨name, names⟩
  · exact absurd h (by simp [leafAt])
  · rw [leafAt_cons] at h
    by_cases hname : e.name = name
    · subst hname
      rw [find_cons_self, leafUnder_file hm] at h
      split at h
      · rename_i hnil
        exact ⟨by rw [hnil], (Option.some.inj h).symm⟩
      · exact absurd h (by simp)
    · rw [find_cons_of_ne hname] at h
      exact absurd h (by simp [find, leafUnder])

/-- A blob and a manifest are always compared by their bytes. -/
theorem diffTrees_exact_layouts :
    ∃ r s', Yields (diffTrees (memorySink toyBlake3) (layoutRoot inlineFile)
        (layoutRoot chunkedFile)) threeLayouts r s' ∧
      ExactDiff (fun a b => content threeLayouts.view a = content threeLayouts.view b)
        (leafAtPath threeLayouts.view (rootEntries threeLayouts.view (layoutRoot inlineFile)))
        (leafAtPath threeLayouts.view (rootEntries threeLayouts.view (layoutRoot chunkedFile)))
        r.entries := by
  obtain ⟨hheldInline, hinline⟩ := rootEntries_layoutRoot inlineFile (.inl rfl)
  obtain ⟨hheldChunked, hchunked⟩ := rootEntries_layoutRoot chunkedFile (.inr (.inl rfl))
  refine (diffTrees_exact_iff (memorySink toyBlake3) (readsAll_memorySink _)
    (decoded_memorySink _) threeLayouts _ _ hheldInline hheldChunked).2 ?_
  intro path o ho n hn _
  have hblob : threeLayouts.view (stored inlineFile).2 = some inlineFile := by decide +kernel
  rw [show (memorySink toyBlake3).view threeLayouts = threeLayouts.view from rfl] at ho hn ⊢
  rw [hinline] at ho
  rw [(leafAt_single (by decide) ho).2, SameLayout, hblob]
  trivial

/-- The same byte with and without an empty chunk in front: the diff has the file as modified. -/
theorem diffTrees_empty_chunk : RootHeld threeLayouts.view (layoutRoot chunkedFile) ∧
      RootHeld threeLayouts.view (layoutRoot paddedFile) ∧
      ¬ ∃ r s', Yields (diffTrees (memorySink toyBlake3) (layoutRoot chunkedFile)
          (layoutRoot paddedFile)) threeLayouts r s' ∧
        ExactDiff (fun a b => content threeLayouts.view a = content threeLayouts.view b)
          (leafAtPath threeLayouts.view (rootEntries threeLayouts.view (layoutRoot chunkedFile)))
          (leafAtPath threeLayouts.view (rootEntries threeLayouts.view (layoutRoot paddedFile)))
          r.entries := by
  refine ⟨(rootEntries_layoutRoot _ (.inr (.inl rfl))).1,
    (rootEntries_layoutRoot _ (.inr (.inr rfl))).1, ?_⟩
  rintro ⟨r, s', hy, hexact⟩
  have hrun : (exec (diffTrees (memorySink toyBlake3) (layoutRoot chunkedFile)
      (layoutRoot paddedFile)) threeLayouts).1 =
      .ok ⟨[changedEntry .modified [97] ⟨[97], .blob, (stored chunkedFile).2⟩
        ⟨[97], .blob, (stored paddedFile).2⟩]⟩ := by decide +kernel
  have hr : Except.ok r = _ := (congrArg Prod.fst hy).symm.trans hrun
  obtain rfl := Except.ok.inj hr
  have hkind := (hexact.describes _ List.mem_cons_self).kind
  have hold : leafAtPath threeLayouts.view
      (rootEntries threeLayouts.view (layoutRoot chunkedFile)) [97] =
      some ⟨.blob, (stored chunkedFile).2⟩ := by decide +kernel
  have hnew : leafAtPath threeLayouts.view
      (rootEntries threeLayouts.view (layoutRoot paddedFile)) [97] =
      some ⟨.blob, (stored paddedFile).2⟩ := by decide +kernel
  have hcontent : content threeLayouts.view (stored chunkedFile).2 =
      content threeLayouts.view (stored paddedFile).2 := by decide +kernel
  rw [changedEntry, hold, hnew] at hkind
  exact hkind hcontent

end Mkit
