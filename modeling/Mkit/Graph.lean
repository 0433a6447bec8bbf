import Mkit.Lib.Closure
import Mkit.Store

/-!
# The Object Graph

What an object refers to, and the closure walk over it (`ops/graph.rs`). Blobs and deltas are
recognised by their prologue and not read further; every other object is read and verified
before its references are followed.

The meaning of the walk is `Reachable`, which speaks only of objects that read: an edge leads
from an object to what it refers to. `mem_reachableWithMode` says that a walk which was not cut
short returns exactly the reachable ids, each with a file in the store.
-/

namespace Mkit

open Closure

/-- Most objects a closure walk takes. -/
def MAX_REACHABLE : ℕ := 10000000

/-- How a closure walk treats the parents of commits and remixes. -/
inductive ClosureMode where
  /-- The tree closure; parents are referred to but not included. -/
  | snapshot
  /-- The full history. -/
  | history
deriving DecidableEq

/-- What an object refers to. The sources of a remix are never followed: they live in other
repositories. -/
def children (obj : Object) (mode : ClosureMode) : List Hash :=
  match obj with
  | .commit c => c.tree_hash :: if mode = .history then c.parents else []
  | .remix r => r.tree_hash :: if mode = .history then r.parents else []
  | .tree t => t.entries.map (·.object_hash)
  | .chunkedBlob cb => cb.chunks
  | .tag t => [t.target]
  | .blob _ | .delta _ => []

/-- The types the walk takes for leaves. -/
def ObjectType.isLeaf : ObjectType → Bool
  | .blob | .delta => true
  | _ => false

theorem children_of_isLeaf {obj : Object} (h : obj.objectType.isLeaf = true)
    (mode : ClosureMode) : children obj mode = [] := by
  cases obj <;> first | rfl | cases h

/-- The members of a list in ascending order, each once: what iterating over a `BTreeSet` of
them gives. -/
def ascending (l : List Hash) : List Hash :=
  l.dedup.insertionSort (· ≤ ·)

theorem mem_ascending {l : List Hash} {h : Hash} : h ∈ ascending l ↔ h ∈ l := by
  rw [ascending, List.mem_insertionSort, List.mem_dedup]

section Walk

variable (B : Blake3) (mode : ClosureMode) (s : ObjectStore)

/-- What the walk queues for one object. -/
def successors (h : Hash) : Except StoreError (List Hash) := do
  let ty ← s.objectType h
  if ty.isLeaf then pure []
  else do
    let obj ← s.readObject B h
    pure (children obj mode)

/-- The closure walk. -/
def reachableWithMode (roots : List Hash) (cap : ℕ) : Except StoreError (Finset Hash × Bool) :=
  walk (successors B mode s) cap roots ∅

/-- The full history closure, with the flag that says whether the cap cut it short. -/
def reachableClosureChecked (roots : List Hash) : Except StoreError (Finset Hash × Bool) :=
  reachableWithMode B .history s roots MAX_REACHABLE

/-- What a commit names without its parents. Whether the cap cut the walk short is not told. -/
def reachableSnapshot (root : Hash) : Except StoreError (Finset Hash) := do
  let (out, _) ← reachableWithMode B .snapshot s [root] MAX_REACHABLE
  pure out

/-- One object refers to another. -/
def RefersTo (a b : Hash) : Prop :=
  ∃ obj, s.readObject B a = .ok obj ∧ b ∈ children obj mode

/-- Reachable from one of the roots by following references. -/
abbrev Reachable (root : Hash → Prop) : Hash → Prop :=
  Reach (RefersTo B mode s) root

variable {B mode s}

/-- The walk follows exactly the references. A leaf whose content is damaged has none: it
counts as reached, and reading it fails. -/
theorem edge_successors {a b : Hash} (ha : ∃ cs, successors B mode s a = .ok cs) :
    Edge (successors B mode s) a b ↔ RefersTo B mode s a b := by
  obtain ⟨cs, hcs⟩ := ha
  have hedge : Edge (successors B mode s) a b ↔ b ∈ cs := by
    rw [Edge, hcs]
    simp
  rw [hedge]
  rw [successors, Wire.bind_eq_ok] at hcs
  obtain ⟨ty, hty, hcs⟩ := hcs
  by_cases hleaf : ty.isLeaf = true
  · rw [if_pos hleaf] at hcs
    obtain rfl : [] = cs := Except.ok.inj hcs
    refine ⟨fun h => absurd h List.not_mem_nil, ?_⟩
    rintro ⟨obj, hobj, hb⟩
    have h := ObjectStore.objectType_of_readObject B hobj
    rw [hty] at h
    obtain rfl : ty = obj.objectType := Except.ok.inj h
    rwa [children_of_isLeaf hleaf] at hb
  · rw [if_neg hleaf, Wire.bind_eq_ok] at hcs
    obtain ⟨obj, hobj, hcs⟩ := hcs
    obtain rfl : children obj mode = cs := Except.ok.inj hcs
    rw [RefersTo, hobj]
    simp

/-- What the walk follows is a reference. -/
theorem refersTo_of_edge {a b : Hash} (h : Edge (successors B mode s) a b) :
    RefersTo B mode s a b := by
  obtain ⟨cs, hcs, hb⟩ := h
  exact (edge_successors ⟨cs, hcs⟩).1 ⟨cs, hcs, hb⟩

/-- An object whose references the walk has looked up has a file. -/
theorem contains_of_successors {a : Hash} {cs : List Hash} (h : successors B mode s a = .ok cs) :
    s.contains a = true := by
  rw [successors, Wire.bind_eq_ok] at h
  obtain ⟨ty, hty, -⟩ := h
  exact ObjectStore.contains_of_objectType hty

/-- The closure walk takes only what is reachable from the roots and has a file, cut short or
not. -/
theorem reachable_of_mem {roots : List Hash} {out : Finset Hash} {cap : ℕ} {cut : Bool}
    (h : reachableWithMode B mode s roots cap = .ok (out, cut)) :
    ∀ a ∈ out, Reachable B mode s (· ∈ roots) a ∧ s.contains a = true := by
  intro a ha
  have hreach : Reach (Edge (successors B mode s)) (· ∈ roots) a :=
    reach_of_walk (fun x hx => absurd hx (Finset.notMem_empty x)) (fun x hx => .start hx) h a ha
  obtain ⟨cs, hcs⟩ := read_of_walk (fun x hx => absurd hx (Finset.notMem_empty x)) h a ha
  exact ⟨hreach.mono fun _ _ => refersTo_of_edge, contains_of_successors hcs⟩

/-- Without parents there are fewer references. -/
theorem RefersTo.history {a b : Hash} (h : RefersTo B .snapshot s a b) :
    RefersTo B .history s a b := by
  obtain ⟨obj, hobj, hb⟩ := h
  refine ⟨obj, hobj, ?_⟩
  cases obj with
  | commit c => exact List.mem_cons.2 (.inl (by simpa [children] using hb))
  | remix r => exact List.mem_cons.2 (.inl (by simpa [children] using hb))
  | _ => exact hb

/-- **The closure walk is exact.** When the cap did not cut it short, it returns exactly the
ids reachable from the roots, and every one of them has a file. -/
theorem mem_reachableWithMode {roots : List Hash} {out : Finset Hash} {cap : ℕ}
    (h : reachableWithMode B mode s roots cap = .ok (out, false)) :
    (∀ a, a ∈ out ↔ Reachable B mode s (· ∈ roots) a) ∧ ∀ a ∈ out, s.contains a = true := by
  obtain ⟨hmem, hread⟩ := walk_eq_ok h
  -- The two notions of edge agree on what was read, so either kind of path stays inside `out`.
  have hpath : ∀ a, Reachable B mode s (· ∈ roots) a → a ∈ out := by
    refine fun a => Reach.mem_of_closed (fun r hr => (hmem r).2 (.start hr)) ?_
    intro x y hx he
    exact (hmem y).2 (((hmem x).1 hx).step ((edge_successors (hread x hx)).2 he))
  exact ⟨fun a => ⟨fun ha => (reachable_of_mem h a ha).1, hpath a⟩,
    fun a ha => (reachable_of_mem h a ha).2⟩

end Walk

end Mkit
