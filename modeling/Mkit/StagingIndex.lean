import Mkit.Index
import Mkit.Lib.Run
import Mkit.Lib.SortedMap
import Mkit.TreeMerge

/-!
# The Staging Index in Memory

The index keeps its entries in the order they were staged, and beside them a map from paths to
positions (`index.rs`). Queries go through the map; some operations update the map in place, the
others rebuild it.

`Index.Consistent` says that no path is staged twice and that the map is the inverse of the
list. Every way to make an index establishes it and every operation keeps it
(`Index.Reachable.consistent`), and under it a query answers as a scan of the list would.

Paths are arbitrary strings here: nothing depends on their being valid. A path that is a string
prefix of another, such as `a` of `a-b`, is no ancestor of it.
-/

namespace Mkit

open Wire Text

/-- The staging index. -/
structure Index where
  /-- Entries in the order they were staged. -/
  entries : List IndexEntry
  /-- The position of each path. -/
  by_path : SortedMap Bytes ℕ

/-- The strict ancestors of a path, shallowest first: what stands before each slash. -/
def ancestorPrefixes (path : Bytes) : List Bytes :=
  (path.zipIdx.filter fun p => p.1 = 0x2f).map fun p => path.take p.2

/-- Is `path` a strict descendant of `base`? -/
def pathDescendsFrom (path base : Bytes) : Bool :=
  decide (base.length < path.length) && base.isPrefixOf path && path[base.length]? == some 0x2f

namespace Index

/-- An empty index. -/
def new : Index :=
  ⟨[], .empty⟩

/-- The map from paths to positions, built from scratch. -/
def rebuildPathIndex (entries : List IndexEntry) : SortedMap Bytes ℕ :=
  entries.zipIdx.foldl (fun m p => m.insert p.1.path p.2) .empty

/-- The index of some entries. -/
def fromEntries (entries : List IndexEntry) : Index :=
  ⟨entries, rebuildPathIndex entries⟩

/-- The position of the entry at a path. -/
def findEntry (idx : Index) (path : Bytes) : Option ℕ :=
  idx.by_path.get path

/-- Is the entry at this position tracked? Reading behind the end panics, which is `none`. -/
def trackedAt (idx : Index) (pos : ℕ) : Option Bool :=
  idx.entries[pos]?.map fun e => decide (e.status ≠ .removed)

/-- Is a tracked entry among these positions? The search stops at the first one. -/
def anyTracked (idx : Index) : List ℕ → Option Bool
  | [] => some false
  | pos :: rest => do
    if ← idx.trackedAt pos then some true else idx.anyTracked rest

/-- Is a tracked entry staged at exactly this path? -/
def hasTrackedFileAt (idx : Index) (path : Bytes) : Option Bool :=
  match idx.findEntry path with
  | some pos => idx.trackedAt pos
  | none => some false

/-- Is the path tracked, or does a tracked path lie under it? -/
def tracksPathOrDescendant (idx : Index) (path : Bytes) : Option Bool := do
  if ← idx.hasTrackedFileAt path then some true
  else
    let base := path ++ [0x2f]
    idx.anyTracked
      (((idx.by_path.range base).takeWhile fun p => base.isPrefixOf p.1).map Prod.snd)

/-- Stage an entry, replacing one at the same path. Writing behind the end panics. -/
def upsertEntry (idx : Index) (entry : IndexEntry) : Option Index :=
  match idx.by_path.get entry.path with
  | some pos =>
    if pos < idx.entries.length then some { idx with entries := idx.entries.set pos entry }
    else none
  | none =>
    some
      { entries := idx.entries ++ [entry]
        by_path := idx.by_path.insert entry.path idx.entries.length }

/-- Remove the entry at a position; a position behind the end panics. -/
def removeEntryAt (idx : Index) (pos : ℕ) : Option Index :=
  if pos < idx.entries.length then some (fromEntries (idx.entries.eraseIdx pos)) else none

/-- Remove the entry at a path, if there is one. -/
def removePath (idx : Index) (path : Bytes) : Option Index :=
  match idx.findEntry path with
  | some pos => idx.removeEntryAt pos
  | none => some idx

/-- Keep some of the entries. The choice may depend on how many were looked at before. -/
def retainEntries (idx : Index) (keep : ℕ → IndexEntry → Bool) : Index :=
  fromEntries ((idx.entries.zipIdx.filter fun p => keep p.2 p.1).map Prod.fst)

/-- Remove what is in the way of staging a file at `path`. When neither an ancestor is staged nor
anything follows `path/` directly, nothing is. -/
def removeDirectoryConflicts (idx : Index) (path : Bytes) : Index :=
  let has_ancestor_conflict := (ancestorPrefixes path).any idx.by_path.containsKey
  let base := path ++ [0x2f]
  let has_descendant_conflict :=
    (idx.by_path.range base).head?.any fun p => base.isPrefixOf p.1
  if !has_ancestor_conflict && !has_descendant_conflict then idx
  else
    fromEntries (idx.entries.filter fun e =>
      e.path = path || !(pathDescendsFrom e.path path || pathDescendsFrom path e.path))

end Index

/-! ### An index from a tree -/

/-- The entry of a file of a tree, with nothing cached. -/
def treeIndexEntry (path : Bytes) (status : EntryStatus) (object_hash : Hash) : IndexEntry :=
  { path, status, object_hash, mtime_ns := 0, size := 0, ino := 0, ctime_ns := 0 }

section FromTree

variable (B : Blake3) (store : ObjectStore)

/-- Append the file `entry` names, or what `deeper` finds below the directory it names. -/
def pushTreeEntry (deeper : Hash → Bytes → List IndexEntry → Except IndexError (List IndexEntry))
    (pre : Bytes) (entries : List IndexEntry) (entry : TreeEntry) :
    Except IndexError (List IndexEntry) :=
  if !isUtf8 entry.name then .error .invalidPathEncoding
  else
    let path := joinPath pre entry.name
    let file (status : EntryStatus) : Except IndexError (List IndexEntry) :=
      if !validateIndexPath path then .error (.invalidPath path)
      else .ok (entries ++ [treeIndexEntry path status entry.object_hash])
    match entry.mode with
    | .tree => deeper entry.object_hash path entries
    | .blob => file .blob
    | .executable => file .executable
    | .symlink => file .symlink

/-- Append the files below a tree. The levels still allowed bound the recursion. -/
def pushTreeEntries : ℕ → Hash → Bytes → List IndexEntry → Except IndexError (List IndexEntry)
  | 0, _, _, _ => .error .treeTooDeep
  | levels + 1, tree_hash, pre, entries => do
    match ← (store.readObject B tree_hash).mapError .store with
    | .tree tree => tree.entries.foldlM (pushTreeEntry (pushTreeEntries levels) pre) entries
    | _ => .error .notTree

/-- The index of a committed tree. -/
def Index.fromTree (tree_hash : Hash) : Except IndexError Index :=
  (pushTreeEntries B store (MAX_TREE_DEPTH + 1) tree_hash [] []).map Index.fromEntries

end FromTree

/-! ### Ancestors -/

theorem pathDescendsFrom_eq_true {path base : Bytes} :
    pathDescendsFrom path base = true ↔ base ++ [0x2f] <+: path := by
  rw [pathDescendsFrom, Bool.and_eq_true, Bool.and_eq_true, decide_eq_true_eq,
    List.isPrefixOf_iff_prefix, beq_iff_eq]
  constructor
  · rintro ⟨⟨-, t, rfl⟩, hslash⟩
    rw [List.getElem?_append_right le_rfl, Nat.sub_self] at hslash
    cases t with
    | nil => cases hslash
    | cons b t =>
      obtain rfl : b = 0x2f := by simpa using hslash
      exact ⟨t, by simp⟩
  · rintro ⟨t, rfl⟩
    refine ⟨⟨?_, ?_⟩, ?_⟩
    · simp
    · exact ⟨0x2f :: t, by simp⟩
    · rw [List.append_assoc, List.getElem?_append_right le_rfl, Nat.sub_self]
      rfl

theorem mem_ancestorPrefixes {path anc : Bytes} :
    anc ∈ ancestorPrefixes path ↔ anc ++ [0x2f] <+: path := by
  rw [ancestorPrefixes, List.mem_map]
  constructor
  · rintro ⟨⟨b, i⟩, hmem, rfl⟩
    rw [List.mem_filter, List.mem_zipIdx_iff_getElem?] at hmem
    obtain ⟨hget, hb⟩ := hmem
    obtain rfl : b = 0x2f := by simpa using hb
    refine ⟨path.drop (i + 1), ?_⟩
    obtain ⟨hi, hval⟩ := List.getElem?_eq_some_iff.1 hget
    calc path.take i ++ [0x2f] ++ path.drop (i + 1)
        = path.take i ++ path[i] :: path.drop (i + 1) := by rw [hval]; simp
      _ = path := by rw [← List.drop_eq_getElem_cons hi, List.take_append_drop]
  · rintro ⟨t, rfl⟩
    refine ⟨(0x2f, anc.length), ?_, ?_⟩
    · rw [List.mem_filter, List.mem_zipIdx_iff_getElem?]
      refine ⟨?_, by simp⟩
      rw [List.append_assoc, List.getElem?_append_right le_rfl, Nat.sub_self]
      rfl
    · simp

/-- Nothing descends from itself. -/
theorem pathDescendsFrom_self (path : Bytes) : pathDescendsFrom path path = false := by
  simp [pathDescendsFrom]

/-- The one of two paths is a strict ancestor of the other. -/
def Clash (p q : Bytes) : Prop :=
  p ++ [0x2f] <+: q ∨ q ++ [0x2f] <+: p

instance (p q : Bytes) : Decidable (Clash p q) :=
  inferInstanceAs (Decidable (_ ∨ _))

theorem Clash.symm {p q : Bytes} (h : Clash p q) : Clash q p :=
  Or.symm h

/-! ### The map is the inverse of the list -/

namespace Index

/-- No path is staged twice, and the map is the inverse of the list. -/
structure Consistent (idx : Index) : Prop where
  nodup : (idx.entries.map (·.path)).Nodup
  get_iff : ∀ p i, idx.by_path.get p = some i ↔ ∃ e, idx.entries[i]? = some e ∧ e.path = p

theorem rebuildPathIndex_snoc (es : List IndexEntry) (e : IndexEntry) :
    rebuildPathIndex (es ++ [e]) = (rebuildPathIndex es).insert e.path es.length := by
  rw [rebuildPathIndex, List.zipIdx_append, List.foldl_append]
  simp [rebuildPathIndex]

variable {es : List IndexEntry} {e : IndexEntry}

/-- A path that is new goes behind the others. -/
theorem get_insert_iff {m : SortedMap Bytes ℕ}
    (hm : ∀ p i, m.get p = some i ↔ ∃ e, es[i]? = some e ∧ e.path = p)
    (hnew : e.path ∉ es.map (·.path)) (p : Bytes) (i : ℕ) :
    (m.insert e.path es.length).get p = some i ↔
      ∃ e', (es ++ [e])[i]? = some e' ∧ e'.path = p := by
  rw [SortedMap.get_insert]
  by_cases hp : p = e.path
  · subst hp
    rw [if_pos rfl, Option.some.injEq]
    constructor
    · rintro rfl
      exact ⟨e, by simp, rfl⟩
    · rintro ⟨e', he', hpath⟩
      by_contra hi
      have hlt : i < es.length := by
        obtain ⟨hi', -⟩ := List.getElem?_eq_some_iff.1 he'
        rw [List.length_append, List.length_singleton] at hi'
        omega
      rw [List.getElem?_append_left hlt] at he'
      exact hnew (List.mem_map.2 ⟨e', List.mem_of_getElem? he', hpath⟩)
  · rw [if_neg hp, hm]
    constructor
    · rintro ⟨e', he', hpath⟩
      have hlt : i < es.length := (List.getElem?_eq_some_iff.1 he').1
      exact ⟨e', by rw [List.getElem?_append_left hlt]; exact he', hpath⟩
    · rintro ⟨e', he', hpath⟩
      rcases Nat.lt_or_ge i es.length with hlt | hge
      · rw [List.getElem?_append_left hlt] at he'
        exact ⟨e', he', hpath⟩
      · rw [List.getElem?_append_right hge] at he'
        obtain rfl : e = e' := by
          obtain ⟨hi, -⟩ := List.getElem?_eq_some_iff.1 he'
          rw [List.length_singleton] at hi
          have h0 : i - es.length = 0 := by omega
          rw [h0] at he'
          exact Option.some.inj he'
        exact absurd hpath.symm hp

/-- Rebuilding the map of entries with distinct paths gives their inverse. -/
theorem consistent_fromEntries (h : (es.map (·.path)).Nodup) : (fromEntries es).Consistent := by
  refine ⟨h, ?_⟩
  change ∀ p i, (rebuildPathIndex es).get p = some i ↔ ∃ e, es[i]? = some e ∧ e.path = p
  induction es using List.reverseRecOn with
  | nil => simp [rebuildPathIndex]
  | append_singleton es e ih =>
    rw [List.map_append, List.nodup_append] at h
    intro p i
    rw [rebuildPathIndex_snoc]
    refine get_insert_iff (ih h.1) ?_ p i
    intro hmem
    exact h.2.2 _ hmem _ (List.mem_singleton_self _) rfl

theorem consistent_new : new.Consistent :=
  consistent_fromEntries List.nodup_nil

/-! ### Queries answer as a scan of the list -/

variable {idx : Index} {es : List IndexEntry}

variable {i : ℕ} {p : Bytes}

theorem exists_path_iff : (∃ e, es[i]? = some e ∧ e.path = p) ↔ (es.map (·.path))[i]? = some p := by
  rw [List.getElem?_map, Option.map_eq_some_iff]

/-- With distinct paths, the first entry at a path is the only one. -/
theorem findIdx?_path_eq_some (hn : (es.map (·.path)).Nodup) :
    es.findIdx? (fun e => e.path = p) = some i ↔ ∃ e, es[i]? = some e ∧ e.path = p := by
  rw [List.findIdx?_eq_some_iff_getElem]
  constructor
  · rintro ⟨hi, hp, -⟩
    exact ⟨es[i], List.getElem?_eq_getElem hi, by simpa using hp⟩
  · rintro ⟨e, he, hp⟩
    obtain ⟨hi, rfl⟩ := List.getElem?_eq_some_iff.1 he
    refine ⟨hi, by simpa using hp, fun j hj hpj => ?_⟩
    have hi' : i < (es.map (·.path)).length := by
      rw [List.length_map]
      exact hi
    have hj' : j < (es.map (·.path)).length := hj.trans hi'
    have heq : (es.map (·.path))[j] = (es.map (·.path))[i] := by
      rw [List.getElem_map, List.getElem_map, hp]
      simpa using hpj
    have := (List.Nodup.getElem_inj_iff hn).1 heq
    omega

/-- `findEntry` finds what a scan finds. -/
theorem Consistent.findEntry_eq (h : idx.Consistent) (p : Bytes) :
    idx.findEntry p = idx.entries.findIdx? fun e => e.path = p := by
  ext i
  rw [findIdx?_path_eq_some h.nodup]
  exact h.get_iff p i

/-- Two entries at one path are one entry. -/
theorem Consistent.eq_of_path (h : idx.Consistent) {e' : IndexEntry} (he : e ∈ idx.entries)
    (he' : e' ∈ idx.entries) (hp : e.path = e'.path) : e = e' :=
  List.inj_on_of_nodup_map h.nodup he he' hp

theorem trackedAt_of_getElem? (he : idx.entries[i]? = some e) :
    idx.trackedAt i = some (decide (e.status ≠ .removed)) := by
  rw [trackedAt, he]
  rfl

/-- Is the entry tracked, and at this path? -/
def trackedFile (p : Bytes) (e : IndexEntry) : Bool :=
  decide (e.path = p) && decide (e.status ≠ .removed)

/-- `hasTrackedFileAt` answers as a scan. -/
theorem Consistent.hasTrackedFileAt_eq (h : idx.Consistent) (p : Bytes) :
    idx.hasTrackedFileAt p = some (idx.entries.any (trackedFile p)) := by
  rw [hasTrackedFileAt]
  cases hf : idx.findEntry p with
  | none =>
    have hnone : ∀ e ∈ idx.entries, e.path ≠ p := by
      rw [h.findEntry_eq, List.findIdx?_eq_none_iff] at hf
      exact fun e he => of_decide_eq_false (hf e he)
    refine congrArg some (Eq.symm (List.any_eq_false.2 fun e he => ?_))
    simp [trackedFile, hnone e he]
  | some pos =>
    obtain ⟨e, he, hp⟩ := (h.get_iff p pos).1 hf
    dsimp only
    rw [trackedAt_of_getElem? he, Option.some.injEq, Bool.eq_iff_iff, List.any_eq_true]
    constructor
    · intro hst
      exact ⟨e, List.mem_of_getElem? he, by simp [trackedFile, hp] at hst ⊢; exact hst⟩
    · rintro ⟨e', he', hst⟩
      rw [trackedFile, Bool.and_eq_true, decide_eq_true_eq] at hst
      rw [h.eq_of_path (List.mem_of_getElem? he) he' (hp.trans hst.1.symm)]
      exact hst.2

/-- Searching positions that exist is searching the entries there. -/
theorem anyTracked_eq {l : List ℕ} (hl : ∀ i ∈ l, i < idx.entries.length) :
    idx.anyTracked l = some (l.any fun i => idx.trackedAt i = some true) := by
  induction l with
  | nil => rfl
  | cons i l ih =>
    have hlt := hl i List.mem_cons_self
    have hi := List.getElem?_eq_getElem hlt
    rw [anyTracked, ih fun j hj => hl j (List.mem_cons_of_mem i hj), List.any_cons,
      trackedAt_of_getElem? hi]
    by_cases hst : idx.entries[i].status = .removed
    · simp [hst]
    · simp [hst]

/-- Is the entry tracked, and at this path or below it? -/
def trackedBelow (p : Bytes) (e : IndexEntry) : Bool :=
  (decide (e.path = p) || pathDescendsFrom e.path p) && decide (e.status ≠ .removed)

/-- `tracksPathOrDescendant` answers as a scan. -/
theorem Consistent.tracksPathOrDescendant_eq (h : idx.Consistent) (p : Bytes) :
    idx.tracksPathOrDescendant p = some (idx.entries.any (trackedBelow p)) := by
  have hbelow : idx.anyTracked (((idx.by_path.range (p ++ [0x2f])).takeWhile
      fun q => (p ++ [0x2f]).isPrefixOf q.1).map Prod.snd) =
        some (idx.entries.any fun e => pathDescendsFrom e.path p && decide (e.status ≠ .removed)) := by
    rw [SortedMap.takeWhile_range]
    have hpos : ∀ i ∈ ((idx.by_path.entries.filter
        fun q => (p ++ [0x2f]).isPrefixOf q.1).map Prod.snd), ∃ e, idx.entries[i]? = some e ∧
          pathDescendsFrom e.path p = true := by
      intro i hi
      obtain ⟨⟨q, j⟩, hmem, rfl⟩ := List.mem_map.1 hi
      obtain ⟨hmem, hpre⟩ := List.mem_filter.1 hmem
      obtain ⟨e, he, rfl⟩ := (h.get_iff q j).1 (SortedMap.get_eq_some.2 hmem)
      exact ⟨e, he, pathDescendsFrom_eq_true.2 (List.isPrefixOf_iff_prefix.1 hpre)⟩
    rw [anyTracked_eq, Option.some.injEq, Bool.eq_iff_iff, List.any_eq_true, List.any_eq_true]
    · constructor
      · rintro ⟨i, hi, htr⟩
        obtain ⟨e, he, hdesc⟩ := hpos i hi
        rw [trackedAt_of_getElem? he] at htr
        refine ⟨e, List.mem_of_getElem? he, ?_⟩
        rw [hdesc, Bool.true_and]
        simpa using htr
      · rintro ⟨e, he, hst⟩
        rw [Bool.and_eq_true] at hst
        obtain ⟨i, hi⟩ := List.getElem?_of_mem he
        refine ⟨i, List.mem_map.2 ⟨(e.path, i), List.mem_filter.2 ⟨?_, ?_⟩, rfl⟩, ?_⟩
        · exact SortedMap.get_eq_some.1 ((h.get_iff e.path i).2 ⟨e, hi, rfl⟩)
        · exact List.isPrefixOf_iff_prefix.2 (pathDescendsFrom_eq_true.1 hst.1)
        · rw [trackedAt_of_getElem? hi, hst.2]
          rfl
    · intro i hi
      obtain ⟨e, he, -⟩ := hpos i hi
      exact (List.getElem?_eq_some_iff.1 he).1
  rw [tracksPathOrDescendant, h.hasTrackedFileAt_eq]
  dsimp only [Option.bind_eq_bind, Option.bind_some]
  rw [hbelow]
  have hsplit : idx.entries.any (trackedBelow p) = (idx.entries.any (trackedFile p) ||
      idx.entries.any fun e => pathDescendsFrom e.path p && decide (e.status ≠ .removed)) := by
    have hone : ∀ e, trackedBelow p e = true ↔ trackedFile p e = true ∨
        (pathDescendsFrom e.path p && decide (e.status ≠ .removed)) = true := by
      intro e
      simp [trackedBelow, trackedFile, or_and_right]
    rw [Bool.eq_iff_iff, Bool.or_eq_true, List.any_eq_true, List.any_eq_true, List.any_eq_true]
    constructor
    · rintro ⟨e, he, hst⟩
      exact ((hone e).1 hst).imp (fun h => ⟨e, he, h⟩) fun h => ⟨e, he, h⟩
    · rintro (⟨e, he, hst⟩ | ⟨e, he, hst⟩)
      · exact ⟨e, he, (hone e).2 (.inl hst)⟩
      · exact ⟨e, he, (hone e).2 (.inr hst)⟩
  rw [hsplit]
  cases idx.entries.any (trackedFile p) <;> rfl

/-! ### Operations keep the map in step -/

/-- The paths staged in an index. -/
def paths (idx : Index) : List Bytes :=
  idx.entries.map (·.path)

/-- Part of a consistent index, with the map rebuilt. -/
theorem Consistent.sublist (h : idx.Consistent) (hs : es.Sublist idx.entries) :
    (fromEntries es).Consistent :=
  consistent_fromEntries (h.nodup.sublist (hs.map _))

variable {idx' : Index}

theorem Consistent.removeEntryAt (h : idx.Consistent) {pos : ℕ}
    (hop : idx.removeEntryAt pos = some idx') : idx'.Consistent := by
  rw [Index.removeEntryAt] at hop
  split_ifs at hop
  obtain rfl := Option.some.inj hop
  exact h.sublist (List.eraseIdx_sublist _ _)

theorem Consistent.removePath (h : idx.Consistent) {path : Bytes}
    (hop : idx.removePath path = some idx') : idx'.Consistent := by
  rw [Index.removePath] at hop
  cases hf : idx.findEntry path with
  | none =>
    rw [hf] at hop
    obtain rfl := Option.some.inj hop
    exact h
  | some pos =>
    rw [hf] at hop
    exact h.removeEntryAt hop

theorem Consistent.retainEntries (h : idx.Consistent) (keep : ℕ → IndexEntry → Bool) :
    (idx.retainEntries keep).Consistent := by
  refine h.sublist ?_
  have hs := (List.filter_sublist : (idx.entries.zipIdx.filter fun p => keep p.2 p.1).Sublist
    idx.entries.zipIdx).map Prod.fst
  rwa [List.zipIdx_map_fst] at hs

/-- Staging an entry never panics; it takes the place of the entry at its path, or the end. -/
theorem Consistent.upsertEntry (h : idx.Consistent) (e : IndexEntry) :
    ∃ idx', idx.upsertEntry e = some idx' ∧ idx'.Consistent ∧
      ∀ q, q ∈ idx'.paths ↔ q ∈ idx.paths ∨ q = e.path := by
  rw [Index.upsertEntry]
  cases hget : idx.by_path.get e.path with
  | none =>
    have hnew : e.path ∉ idx.entries.map (·.path) := by
      intro hmem
      obtain ⟨e', he', hp⟩ := List.mem_map.1 hmem
      obtain ⟨i, hi⟩ := List.getElem?_of_mem he'
      rw [(h.get_iff e.path i).2 ⟨e', hi, hp⟩] at hget
      cases hget
    refine ⟨_, rfl, ⟨?_, get_insert_iff h.get_iff hnew⟩, fun q => ?_⟩
    · rw [List.map_append, List.nodup_append]
      refine ⟨h.nodup, List.nodup_singleton _, ?_⟩
      intro x hx y hy hxy
      rw [List.map_singleton, List.mem_singleton] at hy
      rw [hxy, hy] at hx
      exact hnew hx
    · simp [paths]
  | some pos =>
    obtain ⟨old, hold, hp⟩ := (h.get_iff e.path pos).1 hget
    obtain ⟨hpos, rfl⟩ := List.getElem?_eq_some_iff.1 hold
    have hpaths : (idx.entries.set pos e).map (·.path) = idx.entries.map (·.path) := by
      rw [List.map_set, ← hp]
      have hpos' : pos < (idx.entries.map (·.path)).length := by
        rw [List.length_map]
        exact hpos
      have hval : idx.entries[pos].path = (idx.entries.map (·.path))[pos] := by
        rw [List.getElem_map]
      rw [hval, List.set_getElem_self]
    dsimp only
    rw [if_pos hpos]
    refine ⟨_, rfl, ⟨?_, fun p i => ?_⟩, fun q => ?_⟩
    · rw [hpaths]
      exact h.nodup
    · rw [exists_path_iff, hpaths, ← exists_path_iff]
      exact h.get_iff p i
    · have hmem : e.path ∈ idx.paths :=
        List.mem_map.2 ⟨_, List.getElem_mem hpos, hp⟩
      rw [paths, hpaths]
      exact ⟨.inl, fun hq => hq.elim id fun hq => hq ▸ hmem⟩

/-- Everything that clashes with the path goes and nothing else, also when the fast check finds
no conflict. -/
theorem Consistent.removeDirectoryConflicts (h : idx.Consistent) (path : Bytes) :
    (idx.removeDirectoryConflicts path).Consistent ∧
    (idx.removeDirectoryConflicts path).entries =
      idx.entries.filter fun e => decide (¬ Clash e.path path) := by
  have hclash : ∀ q, (pathDescendsFrom q path || pathDescendsFrom path q) = true ↔
      Clash q path := by
    intro q
    rw [Bool.or_eq_true, pathDescendsFrom_eq_true, pathDescendsFrom_eq_true]
    exact Or.comm
  have hfilter : (idx.entries.filter fun e => decide (e.path = path) ||
      !(pathDescendsFrom e.path path || pathDescendsFrom path e.path)) =
        idx.entries.filter fun e => decide (¬ Clash e.path path) := by
    refine List.filter_congr fun e _ => ?_
    rw [Bool.eq_iff_iff, Bool.or_eq_true, decide_eq_true_eq, decide_eq_true_eq, ← hclash,
      Bool.not_eq_true']
    constructor
    · rintro (heq | hno)
      · rw [heq, pathDescendsFrom_self]
        simp
      · rw [hno]
        simp
    · intro hno
      exact .inr (by rwa [Bool.not_eq_true] at hno)
  -- The map knows every path, so the fast check misses no conflict.
  have hkey : ∀ q, q ∈ idx.paths ↔ ∃ i, (q, i) ∈ idx.by_path.entries := by
    intro q
    rw [paths, List.mem_map]
    constructor
    · rintro ⟨e, he, rfl⟩
      obtain ⟨i, hi⟩ := List.getElem?_of_mem he
      exact ⟨i, SortedMap.get_eq_some.1 ((h.get_iff _ i).2 ⟨e, hi, rfl⟩)⟩
    · rintro ⟨i, hi⟩
      obtain ⟨e, he, hp⟩ := (h.get_iff q i).1 (SortedMap.get_eq_some.2 hi)
      exact ⟨e, List.mem_of_getElem? he, hp⟩
  rw [Index.removeDirectoryConflicts, SortedMap.head?_range]
  split_ifs with hfast
  · rw [Bool.and_eq_true, Bool.not_eq_true', Bool.not_eq_true'] at hfast
    obtain ⟨hanc, hdesc⟩ := hfast
    refine ⟨h, (List.filter_eq_self.2 fun e he => decide_eq_true ?_).symm⟩
    obtain ⟨i, hi⟩ := (hkey e.path).1 (List.mem_map.2 ⟨e, he, rfl⟩)
    rintro (hup | hdown)
    · have := List.any_eq_false.1 hanc _ (mem_ancestorPrefixes.2 hup)
      exact this (SortedMap.containsKey_eq_true.2 ⟨i, hi⟩)
    · exact List.any_eq_false.1 hdesc _ hi (List.isPrefixOf_iff_prefix.2 hdown)
  · rw [hfilter]
    exact ⟨h.sublist List.filter_sublist, rfl⟩

end Index

/-! ### Where an index comes from -/

/-- An entry read from a file has a path no entry before it has. -/
theorem path_notMem_of_readIndexEntry {entries : List IndexEntry} {inp rest : Bytes}
    {e : IndexEntry} (h : readIndexEntry entries inp = .ok (e, rest)) :
    e.path ∉ entries.map (·.path) := by
  rw [readIndexEntry, parser_bind_eq_ok] at h
  obtain ⟨-, _, -, h⟩ := h
  rw [parser_bind_eq_ok] at h
  obtain ⟨tag, _, -, h⟩ := h
  cases hst : EntryStatus.fromByte tag with
  | none =>
    rw [hst] at h
    cases h
  | some status =>
    rw [hst] at h
    dsimp only at h
    simp only [parser_bind_eq_ok] at h
    obtain ⟨object_hash, _, -, mtime_ns, _, -, size, _, -, ino, _, -, ctime_ns, _, -, len, _, -,
      h⟩ := h
    by_cases hlen : len.toNat > MAX_PATH_LEN
    · rw [if_pos hlen] at h
      cases h
    rw [if_neg hlen, parser_bind_eq_ok] at h
    obtain ⟨path, _, -, h⟩ := h
    by_cases hdup : path ∈ entries.map (·.path)
    · rw [if_pos hdup] at h
      split_ifs at h <;> cases h
    · rw [if_neg hdup] at h
      split_ifs at h <;> cases h
      exact hdup

theorem nodup_of_repeatWith {n : ℕ} {entries out : List IndexEntry} {inp rest : Bytes}
    (hn : (entries.map (·.path)).Nodup)
    (h : repeatWith readIndexEntry n entries inp = .ok (out, rest)) : (out.map (·.path)).Nodup := by
  induction n generalizing entries inp with
  | zero =>
    obtain rfl := congrArg Prod.fst (Except.ok.inj h)
    exact hn
  | succ n ih =>
    rw [repeatWith, parser_bind_eq_ok] at h
    obtain ⟨e, _, he, h⟩ := h
    refine ih ?_ h
    rw [List.map_append, List.nodup_append]
    refine ⟨hn, List.nodup_singleton _, ?_⟩
    intro x hx y hy hxy
    rw [List.map_singleton, List.mem_singleton] at hy
    rw [hxy, hy] at hx
    exact path_notMem_of_readIndexEntry he hx

/-- No path stands twice in an index file. -/
theorem nodup_of_deserializeIndex {B : Blake3} {data : Bytes} {entries : List IndexEntry}
    (h : deserializeIndex B data = .ok entries) : (entries.map (·.path)).Nodup := by
  rw [deserializeIndex] at h
  split_ifs at h
  dsimp only at h
  split_ifs at h
  rw [bind_eq_ok] at h
  obtain ⟨⟨out, rest⟩, hout, h⟩ := h
  dsimp only at h
  split_ifs at h
  obtain rfl := Except.ok.inj h
  have hnil : (([] : List IndexEntry).map (·.path)).Nodup := List.nodup_nil
  exact nodup_of_repeatWith hnil hout

/-- The path is `q` or lies below it. -/
def AtOrBelow (q p : Bytes) : Prop :=
  p = q ∨ q ++ [0x2f] <+: p

/-- Names without a slash can be told apart by what lies below them. -/
theorem eq_of_atOrBelow {pre m n p : Bytes} (hm : 0x2f ∉ m) (hn : 0x2f ∉ n)
    (hpm : AtOrBelow (joinPath pre m) p) (hpn : AtOrBelow (joinPath pre n) p) : m = n := by
  obtain ⟨dir, hdir⟩ : ∃ dir, ∀ name, joinPath pre name = dir ++ name := by
    by_cases hpre : pre = []
    · exact ⟨[], fun name => if_pos hpre⟩
    · exact ⟨pre ++ [0x2f], fun name => by rw [joinPath, if_neg hpre]; simp⟩
  have hcut : ∀ name, 0x2f ∉ name → AtOrBelow (joinPath pre name) p →
      (p.drop dir.length).takeWhile (· ≠ 0x2f) = name := by
    intro name hname hp
    have hall : ∀ b ∈ name, (decide (b ≠ 0x2f)) = true := fun b hb =>
      decide_eq_true fun h => hname (h ▸ hb)
    rw [hdir] at hp
    rcases hp with rfl | ⟨t, rfl⟩
    · rw [List.drop_left, List.takeWhile_eq_self_iff]
      exact hall
    · rw [List.append_assoc, List.append_assoc, List.drop_left,
        List.takeWhile_append_of_pos hall, List.singleton_append, List.takeWhile_cons_of_neg,
        List.append_nil]
      simp
  rw [← hcut m hm hpm, ← hcut n hn hpn]

/-- What a walk below the directory `q` appends: entries with distinct paths below `q`. -/
def PushesBelow (q : Bytes) (entries out : List IndexEntry) : Prop :=
  ∃ new, out = entries ++ new ∧ (new.map (·.path)).Nodup ∧ ∀ e ∈ new, q ++ [0x2f] <+: e.path

variable {deeper : Hash → Bytes → List IndexEntry → Except IndexError (List IndexEntry)}

theorem pushTreeEntry_eq_ok {pre : Bytes} {entries out : List IndexEntry}
    {entry : TreeEntry} (hname : entry.name ≠ [])
    (hdeeper : ∀ h q entries out, q ≠ [] → deeper h q entries = .ok out →
      PushesBelow q entries out) (h : pushTreeEntry deeper pre entries entry = .ok out) :
    ∃ new, out = entries ++ new ∧ (new.map (·.path)).Nodup ∧
      ∀ e ∈ new, AtOrBelow (joinPath pre entry.name) e.path := by
  have hfile : ∀ status, (if !validateIndexPath (joinPath pre entry.name) then
        .error (.invalidPath (joinPath pre entry.name))
      else .ok (entries ++ [treeIndexEntry (joinPath pre entry.name) status entry.object_hash])) =
        Except.ok (α := List IndexEntry) (ε := IndexError) out →
      ∃ new, out = entries ++ new ∧ (new.map (·.path)).Nodup ∧
        ∀ e ∈ new, AtOrBelow (joinPath pre entry.name) e.path := by
    intro status hok
    split_ifs at hok
    refine ⟨_, (Except.ok.inj hok).symm, List.nodup_singleton _, fun e he => .inl ?_⟩
    rw [List.mem_singleton.1 he]
    rfl
  rw [pushTreeEntry] at h
  split_ifs at h
  dsimp only at h
  cases hmode : entry.mode with
  | tree =>
    rw [hmode] at h
    have hjoin : joinPath pre entry.name ≠ [] := by
      rw [joinPath]
      split_ifs
      · exact hname
      · simp
    obtain ⟨new, hout, hnodup, hbelow⟩ := hdeeper _ _ _ _ hjoin h
    exact ⟨new, hout, hnodup, fun e he => .inr (hbelow e he)⟩
  | blob =>
    rw [hmode] at h
    exact hfile _ h
  | executable =>
    rw [hmode] at h
    exact hfile _ h
  | symlink =>
    rw [hmode] at h
    exact hfile _ h

/-- The entries pushed for the files and directories of one tree have distinct paths. -/
theorem foldlM_pushTreeEntry {pre : Bytes} {ts : List TreeEntry} {entries out : List IndexEntry}
    (hvalid : ∀ t ∈ ts, t.name ≠ [] ∧ 0x2f ∉ t.name) (hts : (ts.map (·.name)).Nodup)
    (hdeeper : ∀ h q entries out, q ≠ [] → deeper h q entries = .ok out →
      PushesBelow q entries out) (h : ts.foldlM (pushTreeEntry deeper pre) entries = .ok out) :
    ∃ new, out = entries ++ new ∧ (new.map (·.path)).Nodup ∧
      ∀ e ∈ new, ∃ t ∈ ts, AtOrBelow (joinPath pre t.name) e.path := by
  induction ts generalizing entries with
  | nil =>
    obtain rfl := Except.ok.inj h
    exact ⟨[], by simp, List.nodup_nil, fun e he => (List.not_mem_nil he).elim⟩
  | cons t ts ih =>
    rw [List.foldlM_cons, bind_eq_ok] at h
    obtain ⟨mid, hmid, h⟩ := h
    rw [List.map_cons, List.nodup_cons] at hts
    obtain ⟨hne, hslash⟩ := hvalid t List.mem_cons_self
    obtain ⟨new, rfl, hnodup, hat⟩ := pushTreeEntry_eq_ok hne hdeeper hmid
    obtain ⟨new', rfl, hnodup', hat'⟩ :=
      ih (fun t' ht' => hvalid t' (List.mem_cons_of_mem t ht')) hts.2 h
    refine ⟨new ++ new', List.append_assoc _ _ _, ?_, fun e he => ?_⟩
    · rw [List.map_append, List.nodup_append]
      refine ⟨hnodup, hnodup', ?_⟩
      rintro x hx y hy rfl
      obtain ⟨e, he, rfl⟩ := List.mem_map.1 hx
      obtain ⟨e', he', hpath⟩ := List.mem_map.1 hy
      obtain ⟨t', ht', hat'⟩ := hat' e' he'
      rw [hpath] at hat'
      have := eq_of_atOrBelow hslash (hvalid t' (List.mem_cons_of_mem t ht')).2 (hat e he) hat'
      exact hts.1 (List.mem_map.2 ⟨t', ht', this.symm⟩)
    · rcases List.mem_append.1 he with he | he
      · exact ⟨t, List.mem_cons_self, hat e he⟩
      · obtain ⟨t', ht', hat'⟩ := hat' e he
        exact ⟨t', List.mem_cons_of_mem t ht', hat'⟩

section FromTree

variable {B : Blake3} {store : ObjectStore}

/-- A tree the store reads has distinct valid names. -/
theorem names_of_readObject {h : Hash} {tree : Tree}
    (hread : store.readObject B h = .ok (.tree tree)) :
    (∀ t ∈ tree.entries, t.name ≠ [] ∧ 0x2f ∉ t.name) ∧ (tree.entries.map (·.name)).Nodup := by
  obtain ⟨bytes, -, -, hdes⟩ := (ObjectStore.readObject_eq_ok B).1 hread
  obtain ⟨⟨-, hnames, hsorted⟩, -⟩ := deserialize_eq_ok_iff.1 hdes
  refine ⟨fun t ht => ⟨?_, ?_⟩, ?_⟩
  · exact List.ne_nil_of_length_pos (TreeEntry.one_le_length_of_validateName (hnames t ht))
  · exact TreeEntry.slash_notMem_of_validateName (hnames t ht)
  · have hchain : (tree.entries.map (·.name)).IsChain (· < ·) := by
      rw [List.isChain_map]
      exact hsorted
    exact (List.isChain_iff_pairwise.1 hchain).imp ne_of_lt

theorem pushTreeEntries_eq_ok {levels : ℕ} {h : Hash} {pre : Bytes}
    {entries out : List IndexEntry} (hok : pushTreeEntries B store levels h pre entries = .ok out) :
    ∃ new, out = entries ++ new ∧ (new.map (·.path)).Nodup ∧
      (pre ≠ [] → ∀ e ∈ new, pre ++ [0x2f] <+: e.path) := by
  induction levels generalizing h pre entries out with
  | zero => cases hok
  | succ levels ih =>
    rw [pushTreeEntries, bind_eq_ok] at hok
    obtain ⟨o, hread, hok⟩ := hok
    rw [mapError_eq_ok] at hread
    cases o with
    | tree tree =>
      obtain ⟨hvalid, hnodup⟩ := names_of_readObject hread
      have hdeeper : ∀ h q entries out, q ≠ [] →
          pushTreeEntries B store levels h q entries = .ok out →
          PushesBelow q entries out := by
        intro h q entries out hq hout
        obtain ⟨new, hnew, hnodup, hbelow⟩ := ih hout
        exact ⟨new, hnew, hnodup, hbelow hq⟩
      obtain ⟨new, hout, hnew, hat⟩ := foldlM_pushTreeEntry hvalid hnodup hdeeper hok
      refine ⟨new, hout, hnew, fun hpre e he => ?_⟩
      obtain ⟨t, -, hp⟩ := hat e he
      have hjoin : pre ++ [0x2f] <+: joinPath pre t.name := by
        rw [joinPath, if_neg hpre]
        exact ⟨t.name, by simp⟩
      rcases hp with hp | hp
      · rw [hp]
        exact hjoin
      · exact hjoin.trans ((List.prefix_append _ _).trans hp)
    | blob _ => cases hok
    | commit _ => cases hok
    | remix _ => cases hok
    | chunkedBlob _ => cases hok
    | delta _ => cases hok
    | tag _ => cases hok

end FromTree

/-! ### Every index that can be reached -/

namespace Index

variable {B : Blake3} {idx : Index}

/-- How an index is made. -/
inductive Source (B : Blake3) : Index → Prop
  | new : Source B new
  | deserialize {data : Bytes} {entries : List IndexEntry}
      (h : deserializeIndex B data = .ok entries) : Source B (fromEntries entries)
  | fromTree {store : ObjectStore} {tree_hash : Hash} {idx : Index}
      (h : fromTree B store tree_hash = .ok idx) : Source B idx

/-- The operations that change an index. -/
inductive Op where
  | upsertEntry (entry : IndexEntry)
  | removeEntryAt (pos : ℕ)
  | removePath (path : Bytes)
  | retainEntries (keep : ℕ → IndexEntry → Bool)
  | removeDirectoryConflicts (path : Bytes)

/-- Run an operation; `none` is a panic. -/
def apply (idx : Index) : Op → Option Index
  | .upsertEntry entry => idx.upsertEntry entry
  | .removeEntryAt pos => idx.removeEntryAt pos
  | .removePath path => idx.removePath path
  | .retainEntries keep => some (idx.retainEntries keep)
  | .removeDirectoryConflicts path => some (idx.removeDirectoryConflicts path)

theorem Source.consistent (h : Source B idx) : idx.Consistent := by
  cases h with
  | new => exact consistent_new
  | deserialize h => exact consistent_fromEntries (nodup_of_deserializeIndex h)
  | fromTree h =>
    rw [Index.fromTree] at h
    cases hpush : pushTreeEntries B _ (MAX_TREE_DEPTH + 1) _ [] [] with
    | error e =>
      rw [hpush] at h
      cases h
    | ok entries =>
      rw [hpush] at h
      obtain rfl := Except.ok.inj h
      obtain ⟨new, rfl, hnodup, -⟩ := pushTreeEntries_eq_ok hpush
      exact consistent_fromEntries hnodup

/-- Every operation keeps the map in step. -/
theorem Consistent.apply (h : idx.Consistent) {op : Op} {idx' : Index}
    (hop : idx.apply op = some idx') : idx'.Consistent := by
  cases op with
  | upsertEntry entry =>
    obtain ⟨idx'', hup, hc, -⟩ := h.upsertEntry entry
    obtain rfl := Option.some.inj (hup.symm.trans hop)
    exact hc
  | removeEntryAt pos => exact h.removeEntryAt hop
  | removePath path => exact h.removePath hop
  | retainEntries keep =>
    obtain rfl := Option.some.inj hop
    exact h.retainEntries keep
  | removeDirectoryConflicts path =>
    obtain rfl := Option.some.inj hop
    exact (h.removeDirectoryConflicts path).1

/-- Only a removal behind the end panics. -/
theorem Consistent.apply_eq_none (h : idx.Consistent) {op : Op} :
    idx.apply op = none ↔ ∃ pos, op = .removeEntryAt pos ∧ idx.entries.length ≤ pos := by
  cases op with
  | upsertEntry entry =>
    obtain ⟨idx', hup, -⟩ := h.upsertEntry entry
    rw [Index.apply, hup]
    simp
  | removeEntryAt pos => simp [Index.apply, Index.removeEntryAt]
  | removePath path =>
    rw [Index.apply, Index.removePath]
    cases hf : idx.findEntry path with
    | none => simp
    | some pos =>
      obtain ⟨e, he, -⟩ := (h.get_iff path pos).1 hf
      have hpos : pos < idx.entries.length := (List.getElem?_eq_some_iff.1 he).1
      simp [Index.removeEntryAt, hpos]
  | retainEntries keep => simp [Index.apply]
  | removeDirectoryConflicts path => simp [Index.apply]

/-- No staged path is an ancestor of another. -/
def ClashFree (idx : Index) : Prop :=
  ∀ p ∈ idx.paths, ∀ q ∈ idx.paths, ¬ Clash p q

theorem not_clash_self (p : Bytes) : ¬ Clash p p := by
  intro h
  have hlen : (p ++ [0x2f]).length ≤ p.length := (or_self_iff.1 h).length_le
  simp at hlen

/-- Making room for a path and staging it there keeps ancestors apart. -/
theorem Consistent.clashFree_upsert (h : idx.Consistent) (hfree : idx.ClashFree) (e : IndexEntry) :
    ∃ idx', (idx.removeDirectoryConflicts e.path).upsertEntry e = some idx' ∧ idx'.ClashFree := by
  obtain ⟨hc, hentries⟩ := h.removeDirectoryConflicts e.path
  obtain ⟨idx', hup, -, hpaths⟩ := hc.upsertEntry e
  have hkept : ∀ q ∈ (idx.removeDirectoryConflicts e.path).paths,
      q ∈ idx.paths ∧ ¬ Clash q e.path := by
    intro q hq
    rw [paths, hentries] at hq
    obtain ⟨e', he', rfl⟩ := List.mem_map.1 hq
    obtain ⟨hmem, hno⟩ := List.mem_filter.1 he'
    exact ⟨List.mem_map.2 ⟨e', hmem, rfl⟩, of_decide_eq_true hno⟩
  refine ⟨idx', hup, fun p hp q hq => ?_⟩
  rcases (hpaths p).1 hp with hp | rfl <;> rcases (hpaths q).1 hq with hq | rfl
  · exact hfree p (hkept p hp).1 q (hkept q hq).1
  · exact (hkept p hp).2
  · exact fun hcl => (hkept q hq).2 hcl.symm
  · exact not_clash_self _

/-- **The staging index answers as its list of entries would.** -/
theorem staging_index_exact {idx₀ idx : Index} {ops : List Op} (h₀ : Source B idx₀)
    (hrun : Lts.Run (fun idx op idx' => apply idx op = some idx') idx₀ ops idx) : (idx.paths.Nodup ∧
      ∀ p i, idx.by_path.get p = some i ↔ ∃ e, idx.entries[i]? = some e ∧ e.path = p) ∧
    (∀ op, idx.apply op = none ↔ ∃ pos, op = .removeEntryAt pos ∧ idx.entries.length ≤ pos) ∧
    (∀ p, idx.findEntry p = idx.entries.findIdx? fun e => e.path = p) ∧
    (∀ p, idx.hasTrackedFileAt p =
      some (decide (∃ e ∈ idx.entries, e.path = p ∧ e.status ≠ .removed))) ∧
    (∀ p, idx.tracksPathOrDescendant p =
      some (decide (∃ e ∈ idx.entries,
        (e.path = p ∨ p ++ [0x2f] <+: e.path) ∧ e.status ≠ .removed))) ∧
    (∀ p, (idx.removeDirectoryConflicts p).entries =
      idx.entries.filter fun e => decide (¬ Clash e.path p)) ∧
    (idx.ClashFree → ∀ e, ∃ idx',
      (idx.removeDirectoryConflicts e.path).upsertEntry e = some idx' ∧ idx'.ClashFree) := by
  have h : idx.Consistent :=
    Lts.Run.invariant (I := fun _ idx => idx.Consistent) hrun h₀.consistent
      fun _ _ _ _ hc hop => hc.apply hop
  refine ⟨⟨h.nodup, h.get_iff⟩, fun op => h.apply_eq_none, h.findEntry_eq, fun p => ?_, fun p => ?_,
    fun p => (h.removeDirectoryConflicts p).2, h.clashFree_upsert⟩
  · rw [h.hasTrackedFileAt_eq, Option.some.injEq, Bool.eq_iff_iff, List.any_eq_true,
      decide_eq_true_eq]
    simp [trackedFile]
  · rw [h.tracksPathOrDescendant_eq, Option.some.injEq, Bool.eq_iff_iff, List.any_eq_true,
      decide_eq_true_eq]
    simp [trackedBelow, pathDescendsFrom_eq_true]

/-- An entry for a regular file. -/
def fileEntry (path : Bytes) : IndexEntry :=
  treeIndexEntry path .blob ZERO

/-- Next to `a-b`, the directory `a` gives way to the file `a`. -/
theorem staging_index_exact_siblings : ∃ idx : Index,
      Lts.Run (fun idx op idx' => apply idx op = some idx') new
        [.upsertEntry (fileEntry (ascii ['a', '-', 'b'])),
          .upsertEntry (fileEntry (ascii ['a', '/', 'b']))] idx ∧
      idx.tracksPathOrDescendant (ascii ['a']) = some true ∧
      (idx.removeDirectoryConflicts (ascii ['a'])).entries =
        [fileEntry (ascii ['a', '-', 'b'])] := by
  obtain ⟨idx, hrun, hentries⟩ : ∃ idx : Index,
      Lts.Run (fun idx op idx' => apply idx op = some idx') new
        [.upsertEntry (fileEntry (ascii ['a', '-', 'b'])),
          .upsertEntry (fileEntry (ascii ['a', '/', 'b']))] idx ∧
      idx.entries = [fileEntry (ascii ['a', '-', 'b']), fileEntry (ascii ['a', '/', 'b'])] :=
    ⟨_, ((Lts.Run.nil new).snoc rfl).snoc rfl, rfl⟩
  obtain ⟨-, -, -, -, htracks, hremove, -⟩ := staging_index_exact (Source.new (B := toyBlake3)) hrun
  refine ⟨idx, hrun, ?_, ?_⟩
  · rw [htracks, hentries]
    decide
  · rw [hremove, hentries]
    decide

end Index

end Mkit
