import Mkit.AncestryChain
import Mkit.Bisect
import Mkit.Graph
import Mkit.MergeBase

/-!
# Reachable Sets and Lines of History

What the walkers over the object graph promise each other. `reachable_exact` says what the closure
walk of garbage collection returns: the least closed set, unless it says otherwise. The walk over
one snapshot does not say when the cap cut it short, so its answer is the least closed set only if
that has at most `MAX_REACHABLE` members.

`isAncestor` follows the parents of commits; `children`, `firstParentChain` and everything else
that walks the history follow those of remixes as well. `isAncestor_agrees_iff` says when the two
notions give the same answer.
-/

namespace Mkit

open Closure Relation

/-! ### The closure walk -/

section Exact

variable (B : Blake3) (s : ObjectStore)

/-- The sets that hold the roots and, with an object, what it refers to. -/
abbrev ClosedUnder (mode : ClosureMode) (roots : List Hash) : Set (Set Hash) :=
  ClosedSets (RefersTo B mode s) (· ∈ roots)

variable {B s}

/-- A snapshot is taken whole unless it is larger than the cap. -/
theorem reachableSnapshot_eq_ok {root : Hash} {out : Finset Hash}
    (h : reachableSnapshot B s root = .ok out) :
    (∀ a ∈ out, Reachable B .snapshot s (· ∈ [root]) a ∧ s.contains a = true) ∧
      (IsLeast (ClosedUnder B s .snapshot [root]) ↑out ↔
        ∀ T : Finset Hash, (∀ a ∈ T, Reachable B .snapshot s (· ∈ [root]) a) →
          T.card ≤ MAX_REACHABLE) := by
  rw [reachableSnapshot, Wire.bind_eq_ok] at h
  obtain ⟨⟨out', cut⟩, hwalk, h⟩ := h
  obtain rfl : out' = out := Except.ok.inj h
  have hmem := reachable_of_mem hwalk
  have hcard := card_of_walk hwalk
  rw [Finset.card_empty, Nat.zero_add] at hcard
  refine ⟨hmem, isLeast_iff.trans ⟨fun hall T hT => ?_, fun hsmall a => ⟨fun ha => (hmem a ha).1,
    fun ha => ?_⟩⟩⟩
  · exact (Finset.card_le_card fun a ha => (hall a).2 (hT a ha)).trans hcard.1
  · cases cut with
    | false => exact ((mem_reachableWithMode hwalk).1 a).2 ha
    | true =>
      -- One more id would not fit under the cap.
      by_contra hnot
      have hle := hsmall (insert a out') fun x hx => (Finset.mem_insert.1 hx).elim
        (fun h => h ▸ ha) fun hx => (hmem x hx).1
      rw [Finset.card_insert_of_notMem hnot, hcard.2 rfl] at hle
      omega

/-- **The closure walk is exact unless it says otherwise.** -/
theorem reachable_exact (B : Blake3) (s : ObjectStore) :
    (∀ roots out, reachableClosureChecked B s roots = .ok (out, false) →
      IsLeast (ClosedUnder B s .history roots) ↑out ∧ ∀ a ∈ out, s.contains a = true) ∧
    (∀ roots out, reachableClosureChecked B s roots = .ok (out, true) →
      (∀ T ∈ ClosedUnder B s .history roots, ↑out ⊆ T) ∧ out.card = MAX_REACHABLE) ∧
    (∀ roots a, Reachable B .history s (· ∈ roots) a → s.contains a = false →
      ∀ out, reachableClosureChecked B s roots ≠ .ok (out, false)) ∧
    (∀ root out, reachableSnapshot B s root = .ok out →
      (∀ T ∈ ClosedUnder B s .snapshot [root], ↑out ⊆ T) ∧ (∀ a ∈ out, s.contains a = true) ∧
        (IsLeast (ClosedUnder B s .snapshot [root]) ↑out ↔
          ∀ T : Finset Hash, (∀ a ∈ T, Reachable B .snapshot s (· ∈ [root]) a) →
            T.card ≤ MAX_REACHABLE)) ∧
    ∀ root a, Reachable B .snapshot s (· ∈ [root]) a →
      Reachable B .history s (· ∈ [root]) a := by
  have hsub : ∀ {mode roots cap out cut}, reachableWithMode B mode s roots cap = .ok (out, cut) →
      ∀ T ∈ ClosedUnder B s mode roots, ↑out ⊆ T := fun h T hT a ha =>
    (isLeast_reach (RefersTo B _ s) (· ∈ _)).2 hT (reachable_of_mem h a ha).1
  refine ⟨fun roots out h => ?_, fun roots out h => ⟨hsub h, ?_⟩,
    fun roots a ha hmissing out h => ?_, fun root out h => ?_, fun root a ha => ha.mono fun _ _ => RefersTo.history⟩
  · obtain ⟨hmem, hfile⟩ := mem_reachableWithMode h
    exact ⟨isLeast_iff.2 hmem, hfile⟩
  · have hcard := (card_of_walk h).2 rfl
    rwa [Finset.card_empty, Nat.zero_add] at hcard
  · obtain ⟨hmem, hfile⟩ := mem_reachableWithMode h
    rw [hfile a ((hmem a).2 ha)] at hmissing
    exact Bool.false_ne_true hmissing.symm
  · obtain ⟨hmem, hleast⟩ := reachableSnapshot_eq_ok h
    exact ⟨fun T hT a ha => (isLeast_reach _ _).2 hT (hmem a ha).1, fun a ha => (hmem a ha).2,
      hleast⟩

end Exact

/-- A blob, a tree that holds it, and a commit of the tree. -/
def snapshotFiles : List (Hash × Bytes) :=
  let file := bisectFile (.blob ⟨[7]⟩)
  let tree := bisectFile (.tree ⟨[⟨[97], .blob, file.1⟩]⟩)
  [file, tree, bisectFile (.commit ⟨tree.1, [], ⟨.opaqueBytes, [1]⟩, ByteArr.fill 32 0, [], 1, ZERO,
    ZERO, ByteArr.fill 64 0⟩)]

/-- An object of the snapshot, by its place. -/
def snapshotId (i : ℕ) : Hash := (snapshotFiles.map Prod.fst).getD i ZERO

/-- The closure of the commit is the three objects. -/
theorem reachable_exact_snapshot :
    IsLeast (ClosedUnder toyBlake3 (bisectStore snapshotFiles) .history [snapshotId 2])
      ↑({snapshotId 0, snapshotId 1, snapshotId 2} : Finset Hash) :=
  ((reachable_exact toyBlake3 (bisectStore snapshotFiles)).1 [snapshotId 2] _
    (by decide +kernel)).1

/-! ### A walk over more than fits under the cap -/

/-- A blob that holds its number. -/
def numberedBlob (i : ℕ) : Object := .blob ⟨Wire.leBytes 8 i⟩

def numberedBytes (i : ℕ) : Bytes :=
  (serialize (numberedBlob i)).toOption.getD []

/-- A digest that tells blobs by their number. -/
def numberDigest (bytes : Bytes) : Hash :=
  match deserialize bytes with
  | .ok (.blob b) => longId (Wire.ofLeBytes b.data)
  | _ => ZERO

/-- The first `n` numbered blobs. -/
def numberedStore (n : ℕ) (hn : n < 2 ^ 64) : ObjectStore where
  entries := (List.range n).map fun i => ⟨longId i, ⟨some (numberedBytes i), none⟩⟩
  nodupKeys := by
    rw [List.NodupKeys, List.keys, List.map_map]
    refine List.nodup_range.map_on fun i hi j hj h => ?_
    rw [List.mem_range] at hi hj
    exact longId_inj (hi.trans hn) (hj.trans hn) h

section Numbered

variable {n : ℕ} (hn : n < 2 ^ 64)

theorem serialize_numberedBlob (i : ℕ) :
    serialize (numberedBlob i) = .ok (numberedBytes i) ∧ (numberedBytes i).length ≤ 512 := by
  have hser : ∀ data : Bytes, data.length = 8 → ∃ b, serialize (.blob ⟨data⟩) = .ok b ∧
      b.length ≤ 512 := by
    intro data hdata
    refine ⟨writePrologue .blob ++ (writeU32Le (UInt32.ofNat 8) ++ data), ?_, ?_⟩
    · rw [serialize, writeBody, writeBlob, writeLpBytes, checkedU32, hdata]
      rfl
    · simp [writePrologue, writeU32Le, MAGIC, ascii, hdata]
  obtain ⟨b, hb, hlength⟩ := hser (Wire.leBytes 8 i) (Wire.length_leBytes _ _)
  have hb : serialize (numberedBlob i) = .ok b := hb
  rw [numberedBytes, hb]
  exact ⟨rfl, hlength⟩

/-- The blobs are stored under their ids. -/
theorem readObject_numberedStore {i : ℕ} (hi : i < n) :
    (numberedStore n hn).readObject (.ofFun numberDigest) (longId i) = .ok (numberedBlob i) := by
  obtain ⟨hser, hlength⟩ := serialize_numberedBlob i
  have hdec : deserialize (numberedBytes i) = .ok (numberedBlob i) := by
    refine deserialize_eq_ok_iff.2 ⟨?_, hser⟩
    rw [numberedBlob, Object.Decodable, Wire.length_leBytes]
    decide
  have hlookup : (numberedStore n hn).lookup (longId i) = some ⟨some (numberedBytes i), none⟩ :=
    AList.mem_lookup_iff.2 (List.mem_map.2 ⟨i, List.mem_range.2 hi, rfl⟩)
  refine (ObjectStore.readObject_eq_ok _).2 ⟨numberedBytes i, ?_, ?_, hdec⟩
  · have hbound : ¬ (numberedBytes i).length > MAX_RAW_OBJECT_SIZE := by
      rw [MAX_RAW_OBJECT_SIZE]
      omega
    rw [ObjectStore.readRaw, hlookup]
    dsimp only
    rw [if_neg hbound]
  · rw [objectIdFromBytes_of_deserialize hdec, Option.some.injEq]
    change numberDigest (numberedBytes i) = _
    rw [numberDigest, hdec, numberedBlob]
    dsimp only
    rw [Wire.ofLeBytes_leBytes, Nat.mod_eq_of_lt ((hi.trans hn).trans_le (by decide))]

theorem not_contains_numberedStore : (numberedStore n hn).contains (longId n) = false := by
  have hkeys : longId n ∉ (numberedStore n hn).keys := by
    rw [AList.keys, numberedStore, List.keys, List.map_map, List.mem_map]
    rintro ⟨i, hi, heq⟩
    rw [List.mem_range] at hi
    exact hi.ne (longId_inj (hi.trans hn) hn heq)
  rw [ObjectStore.contains, AList.lookup_eq_none.2 hkeys]
  rfl

end Numbered

/-- Of `MAX_REACHABLE + 1` roots the last one is missing; the walk ends before it. -/
theorem reachable_missing_root :
    ∃ (B : Blake3) (s : ObjectStore) (roots : List Hash) (root : Hash) (out : Finset Hash),
      root ∈ roots ∧ s.contains root = false ∧
        (∀ r ∈ roots, r ≠ root → ∃ obj, s.readObject B r = .ok obj) ∧
        reachableClosureChecked B s roots = .ok (out, true) := by
  have hn : MAX_REACHABLE < 2 ^ 64 := by decide
  have hread := fun i (hi : i < MAX_REACHABLE) => readObject_numberedStore hn hi
  have hnodup : ((List.range MAX_REACHABLE).map longId).Nodup :=
    List.nodup_range.map_on fun i hi j hj h => longId_inj ((List.mem_range.1 hi).trans hn)
      ((List.mem_range.1 hj).trans hn) h
  have hleaf : ∀ a ∈ (List.range MAX_REACHABLE).map longId,
      successors (.ofFun numberDigest) .history (numberedStore MAX_REACHABLE hn) a = .ok [] := by
    intro a ha
    obtain ⟨i, hi, rfl⟩ := List.mem_map.1 ha
    rw [successors, ObjectStore.objectType_of_readObject _ (hread i (List.mem_range.1 hi))]
    rfl
  obtain ⟨out, hwalk⟩ : ∃ out, walk (successors (.ofFun numberDigest) .history
      (numberedStore MAX_REACHABLE hn)) MAX_REACHABLE
      ((List.range MAX_REACHABLE).map longId ++ [longId MAX_REACHABLE]) ∅ = .ok (out, true) :=
    walk_leaves hnodup (by rw [List.length_map, List.length_range])
      (fun a _ => Finset.notMem_empty a) hleaf
  refine ⟨.ofFun numberDigest, numberedStore MAX_REACHABLE hn,
    (List.range MAX_REACHABLE).map longId ++ [longId MAX_REACHABLE], longId MAX_REACHABLE, out,
    List.mem_append_right _ (List.mem_singleton_self _), not_contains_numberedStore hn,
    fun r hr hne => ?_, hwalk⟩
  rcases List.mem_append.1 hr with hr | hr
  · obtain ⟨i, hi, rfl⟩ := List.mem_map.1 hr
    exact ⟨_, hread i (List.mem_range.1 hi)⟩
  · exact absurd (List.mem_singleton.1 hr) hne

/-! ### Lines of history -/

/-- Commits and remixes, the objects that have a history. -/
def Object.IsRevision (obj : Object) : Prop :=
  obj.objectType = .commit ∨ obj.objectType = .remix

instance (obj : Object) : Decidable obj.IsRevision :=
  inferInstanceAs (Decidable (_ ∨ _))

section History

variable {B : Blake3} {s : ObjectStore}

/-- The closure walk and the chain of first parents follow the same parents. -/
theorem historyParents_agree {h : Hash} {obj : Object} (hobj : s.readObject B h = .ok obj)
    (hrev : obj.IsRevision) : (children obj .history).tail = historyParents obj ∧
      firstParent B s h = .ok (historyParents obj).head? := by
  rw [firstParent, hobj]
  cases obj with
  | commit c => exact ⟨rfl, rfl⟩
  | remix r => exact ⟨rfl, rfl⟩
  | _ => rcases hrev with ⟨⟨⟩⟩ | ⟨⟨⟩⟩

/-- A parent of a commit is a parent in the history. -/
theorem historyParent_of_parentOf {a b : Hash} (h : ParentOf (s.readObject B) a b) :
    HistoryParent B s a b := by
  rw [ParentOf, parents] at h
  split at h
  · rename_i c hc
    exact ⟨_, hc, h⟩
  · exact absurd h List.not_mem_nil

theorem historyParent_of_firstParent {a b : Hash} (h : firstParent B s a = .ok (some b)) :
    HistoryParent B s a b := by
  rw [firstParent] at h
  split at h
  · cases h
  · rename_i c hc
    exact ⟨_, hc, List.mem_of_head? (Except.ok.inj h)⟩
  · rename_i r hr
    exact ⟨_, hr, List.mem_of_head? (Except.ok.inj h)⟩
  · cases h

/-- A chain of first parents lies in the history of its tip. -/
theorem reflTransGen_of_mem_firstParents {next : Option Hash} {chain : List Hash}
    (h : FirstParents B s next chain) :
    ∀ tip ∈ next, ∀ x ∈ chain, ReflTransGen (HistoryParent B s) tip x := by
  induction h with
  | genesis => exact fun tip htip => nomatch htip
  | @above h next chain hp hc ih =>
    rintro tip htip x hx
    obtain rfl := Option.some.inj htip
    rcases List.mem_append.1 hx with hx | hx
    · cases next with
      | none =>
        cases hc
        exact absurd hx List.not_mem_nil
      | some p => exact (ih p rfl x hx).head (historyParent_of_firstParent hp)
    · rw [List.mem_singleton.1 hx]

/-- Reached through commits only: every object on the way but the last is a commit. -/
theorem reflTransGen_of_isAncestor {a d : Hash} (h : IsAncestor (s.readObject B) a d) :
    ReflTransGen (HistoryParent B s) d a :=
  ReflTransGen.lift id (fun _ _ => historyParent_of_parentOf) _ _ h

/-- **Ancestry and history.** The history of `d` is present. `isAncestor` then answers, and its
answer is that of the history if and only if `a` is not in the history or is reached through
commits only. The parents are the same for the closure walk and the chain of first parents. -/
theorem isAncestor_agrees_iff (B : Blake3) (s : ObjectStore) (a d : Hash)
    (hpresent : ∀ h, ReflTransGen (HistoryParent B s) d h →
      ∃ obj, s.readObject B h = .ok obj ∧ obj.IsRevision) :
    (∀ h obj, s.readObject B h = .ok obj → obj.IsRevision →
      (children obj .history).tail = historyParents obj ∧
        firstParent B s h = .ok (historyParents obj).head?) ∧
    (∀ chain, firstParentChain B s d = .ok chain →
      ∀ x ∈ chain, ReflTransGen (HistoryParent B s) d x) ∧
    ∃ found, (∃ enough, ∀ fuel, enough ≤ fuel →
        isAncestor (s.readObject B) fuel a d = some (.ok found)) ∧
      ((found = true ↔ ReflTransGen (HistoryParent B s) d a) ↔
        (ReflTransGen (HistoryParent B s) d a → IsAncestor (s.readObject B) a d)) := by
  have hreads : HistoryReads (s.readObject B) d := by
    intro h hreach e he
    obtain ⟨obj, hobj, -⟩ := hpresent h (reflTransGen_of_isAncestor hreach)
    rw [hobj] at he
    exact nomatch he
  refine ⟨fun h obj => historyParents_agree, fun chain hchain x hx => ?_, ?_⟩
  · exact reflTransGen_of_mem_firstParents (firstParentChain_eq_ok.1 hchain).1 d rfl x hx
  · obtain ⟨enough, hrun⟩ := isAncestor_spec hreads a
    obtain ⟨found, hfound, hiff⟩ := hrun enough le_rfl
    refine ⟨found, ⟨enough, fun fuel hfuel => ?_⟩, ?_⟩
    · obtain ⟨found', hfound', hiff'⟩ := hrun fuel hfuel
      rw [hfound', Bool.eq_iff_iff.2 (hiff'.trans hiff.symm)]
    · rw [hiff]
      exact ⟨fun h => h.2, fun h => ⟨reflTransGen_of_isAncestor, h⟩⟩

end History

/-- The history of the tip of `remixChain` is present. -/
theorem present_remixChain (h : Hash)
    (hreach : ReflTransGen (HistoryParent toyBlake3 (bisectStore remixChain)) (remixId 3) h) :
    ∃ obj, (bisectStore remixChain).readObject toyBlake3 h = .ok obj ∧ obj.IsRevision := by
  have hmem : ∃ i < 4, h = remixId i := by
    induction hreach with
    | refl => exact ⟨3, by omega, rfl⟩
    | tail _ hstep ih =>
      obtain ⟨i, hi, rfl⟩ := ih
      rw [remix_parents i hi] at hstep
      split at hstep
      · exact absurd hstep List.not_mem_nil
      · exact ⟨i - 1, by omega, List.mem_singleton.1 hstep⟩
  obtain ⟨i, hi, rfl⟩ := hmem
  have hrevision : ∀ i < 4, ((bisectStore remixChain).readObject toyBlake3 (remixId i)).toOption.any
      (fun obj => obj.IsRevision) = true := by
    decide +kernel
  have hany := hrevision i hi
  rcases hread : (bisectStore remixChain).readObject toyBlake3 (remixId i) with e | obj
  · rw [hread] at hany
    exact nomatch hany
  · rw [hread] at hany
    exact ⟨obj, rfl, of_decide_eq_true hany⟩

/-- The tip and the remix below it agree. -/
theorem isAncestor_agrees_remix : ∃ found, (∃ enough, ∀ fuel, enough ≤ fuel →
        isAncestor ((bisectStore remixChain).readObject toyBlake3) fuel (remixId 2) (remixId 3) =
          some (.ok found)) ∧
      (found = true ↔ ReflTransGen (HistoryParent toyBlake3 (bisectStore remixChain))
        (remixId 3) (remixId 2)) := by
  obtain ⟨-, -, found, hrun, hiff⟩ := isAncestor_agrees_iff toyBlake3 (bisectStore remixChain)
    (remixId 2) (remixId 3) present_remixChain
  refine ⟨found, hrun, hiff.2 fun _ => .single ?_⟩
  have hparents : remixId 2 ∈ parents ((bisectStore remixChain).readObject toyBlake3) (remixId 3) :=
    by decide +kernel
  exact hparents

/-- The commit below the remix is in the history of the tip, and is no ancestor of it. -/
theorem isAncestor_past_remix :
    ReflTransGen (HistoryParent toyBlake3 (bisectStore remixChain)) (remixId 3) (remixId 1) ∧
      (∀ h, ReflTransGen (HistoryParent toyBlake3 (bisectStore remixChain)) (remixId 3) h →
        ∃ obj, (bisectStore remixChain).readObject toyBlake3 h = .ok obj ∧ obj.IsRevision) ∧
      ∃ enough, ∀ fuel, enough ≤ fuel →
        isAncestor ((bisectStore remixChain).readObject toyBlake3) fuel (remixId 1) (remixId 3) =
          some (.ok false) := by
  refine ⟨?_, present_remixChain, ?_⟩
  · exact (ReflTransGen.single ((remix_parents 3 (by omega) _).2 (by simp))).tail
      ((remix_parents 2 (by omega) _).2 (by simp))
  · have hreads : HistoryReads ((bisectStore remixChain).readObject toyBlake3) (remixId 3) := by
      intro h hreach e he
      obtain ⟨obj, hobj, -⟩ := present_remixChain h (reflTransGen_of_isAncestor hreach)
      rw [hobj] at he
      exact nomatch he
    obtain ⟨enough, hrun⟩ := isAncestor_spec hreads (remixId 1)
    refine ⟨enough, fun fuel hfuel => ?_⟩
    obtain ⟨found, hfound, hiff⟩ := hrun fuel hfuel
    rw [hfound, Bool.eq_false_iff.2 (mt hiff.1 ?_)]
    have htip : parents ((bisectStore remixChain).readObject toyBlake3) (remixId 3) =
        [remixId 2] := by decide +kernel
    have hremix : parents ((bisectStore remixChain).readObject toyBlake3) (remixId 2) = [] := by
      decide +kernel
    have hne : remixId 1 ≠ remixId 3 ∧ remixId 1 ≠ remixId 2 := by decide +kernel
    intro hreach
    rcases hreach.cases_head with heq | ⟨x, hx, hreach⟩
    · exact hne.1 heq.symm
    · rw [ParentOf, htip, List.mem_singleton] at hx
      subst hx
      rcases hreach.cases_head with heq | ⟨x, hx, -⟩
      · exact hne.2 heq.symm
      · rw [ParentOf, hremix] at hx
        exact List.not_mem_nil hx

end Mkit
