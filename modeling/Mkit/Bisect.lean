import Mkit.Lib.Run
import Mkit.Lib.SortedSet
import Mkit.Lib.Worklist
import Mkit.Store

/-!
# Bisect

The search for the first bad commit (`ops/bisect.rs`). A step lists the candidates, which are the
commits reachable from the bad one and not from a good one, breadth first, and picks the middle of
the list; a skipped commit is passed over for its nearest neighbour.

Ancestors are followed through the parents of commits. Anything else, a remix included, ends a
walk: it is a candidate, and its parents are not looked at. The walk from a good commit also ends
after `MAX_ANCESTORS` commits.

## Main results

* `mem_enumerateRange` — the candidates are exact while no walk from a good commit is cut short;
* `bisect_finds_first_bad` — along every run a tested commit is a new candidate, runs end, the
  commit found is the first bad one under every verdict that fits the answers given, and the
  answer is ambiguous only when no commit is;
* `bisect_walks_end_early` — what a remix, and the cap, do to the candidates.
-/

namespace Mkit

open Relation

/-- Most commits one walk from a good commit takes. -/
def MAX_ANCESTORS : ℕ := 10000

/-- What a session knows. -/
structure BisectState where
  bad_hash : Option Hash
  good_hashes : List Hash
  skipped : SortedSet Hash

/-- The outcome of one iteration. -/
inductive BisectStep where
  | testing (hash : Hash) (remaining : ℕ)
  | found (hash : Hash)
  | ambiguous (bad : Hash) (skipped : List Hash)
  | needMore
deriving DecidableEq

section Model

variable (B : Blake3) (s : ObjectStore)

/-- The parents a walk follows: those of a commit that reads. -/
def commitParents (h : Hash) : List Hash :=
  match s.readObject B h with
  | .ok (.commit commit) => commit.parents
  | _ => []

/-- More rounds than a walk over the store can take. -/
def walkFuel : ℕ :=
  1 + ∑ h ∈ s.keys.toFinset, (commitParents B s h).length

/-- The walk from a good commit, depth first; `count` is the number of commits it has taken. -/
def collectAncestorSet : ℕ → List Hash → ℕ → Finset Hash → Finset Hash
  | 0, _, _, set => set
  | _ + 1, [], _, set => set
  | fuel + 1, current :: stack, count, set =>
    if MAX_ANCESTORS ≤ count then set
    else if current ∈ set then collectAncestorSet fuel stack count set
    else collectAncestorSet fuel ((commitParents B s current).reverse ++ stack) (count + 1)
      (insert current set)

/-- What the walks from the good commits have taken. -/
def goodSet (good_hashes : List Hash) : Finset Hash :=
  good_hashes.foldl (fun set g => collectAncestorSet B s (walkFuel B s) [g] 0 set) ∅

/-- The walk from the bad commit, breadth first. -/
def enumerateFrom (good_set : Finset Hash) :
    ℕ → List Hash → Finset Hash → List Hash → List Hash
  | 0, _, _, candidates => candidates
  | _ + 1, [], _, candidates => candidates
  | fuel + 1, current :: queue, visited, candidates =>
    if current ∈ visited then enumerateFrom good_set fuel queue visited candidates
    else if current ∈ good_set then
      enumerateFrom good_set fuel queue (insert current visited) candidates
    else
      enumerateFrom good_set fuel (queue ++ commitParents B s current) (insert current visited)
        (candidates ++ [current])

/-- The candidates, in breadth-first order from the bad commit. Objects that do not read are
passed over, so this never fails. -/
def enumerateRange (bad : Hash) (good_hashes : List Hash) : List Hash :=
  enumerateFrom B s (goodSet B s good_hashes) (walkFuel B s) [bad] ∅ []

/-- The candidate at an index, unless it is skipped. -/
def unskippedAt (candidates : List Hash) (skipped : SortedSet Hash) (idx : ℕ) : Option Hash :=
  candidates[idx]?.filter (· ∉ skipped)

/-- The first candidate not skipped, from the distance `delta` from the middle on outward. -/
def pickOutward (candidates : List Hash) (skipped : SortedSet Hash) (mid : ℕ) : ℕ → ℕ → Hash
  | 0, _ => ZERO
  | rounds + 1, delta =>
    match unskippedAt candidates skipped (mid + delta) with
    | some h => h
    | none =>
      if 0 < delta ∧ delta ≤ mid then
        match unskippedAt candidates skipped (mid - delta) with
        | some h => h
        | none => pickOutward candidates skipped mid rounds (delta + 1)
      else pickOutward candidates skipped mid rounds (delta + 1)

/-- The candidate nearest to the middle that is not skipped. -/
def pickMidpointSkip (candidates : List Hash) (skipped : SortedSet Hash) : Hash :=
  if candidates.isEmpty then ZERO
  else pickOutward candidates skipped (candidates.length / 2) (candidates.length + 1) 0

/-- One iteration. -/
def nextStep (state : BisectState) : BisectStep :=
  match state.bad_hash with
  | none => .needMore
  | some bad =>
    if state.good_hashes.isEmpty then .needMore
    else
      let candidates := enumerateRange B s bad state.good_hashes
      if candidates.isEmpty then .found bad
      else
        let non_skipped := candidates.filter (· ∉ state.skipped)
        let skipped_in_range := candidates.filter (· ∈ state.skipped)
        match non_skipped with
        | [only] =>
          if only = bad ∧ !skipped_in_range.isEmpty then .ambiguous bad skipped_in_range
          else .found only
        | [] => .ambiguous bad skipped_in_range
        | _ :: _ :: _ =>
          .testing (pickMidpointSkip candidates state.skipped) candidates.length

end Model

/-! ### The walks -/

section Walks

variable {B : Blake3} {s : ObjectStore}

/-- `b` is a parent of the commit `a`. -/
def CommitParent (B : Blake3) (s : ObjectStore) (a b : Hash) : Prop :=
  b ∈ commitParents B s a

/-- `a` is `b` or descends from it, through commits. -/
abbrev DescendsFrom (B : Blake3) (s : ObjectStore) : Hash → Hash → Prop :=
  ReflTransGen (CommitParent B s)

theorem commitParents_eq_nil {h : Hash} (hh : h ∉ s.keys.toFinset) : commitParents B s h = [] := by
  have hlookup : s.lookup h = none := by
    rw [AList.lookup_eq_none, AList.mem_keys]
    rwa [List.mem_toFinset] at hh
  have hread : s.readObject B h = .error (.objectNotFound (toHex h)) := by
    rw [ObjectStore.readObject, ObjectStore.readRaw, hlookup]
    rfl
  rw [commitParents, hread]

/-- What a walk still has to do is within the fuel at its start. -/
theorem potential_start (h : Hash) (visited : Finset Hash) :
    Worklist.potential (commitParents B s) s.keys.toFinset visited [h] ≤ walkFuel B s := by
  refine (Worklist.potential_anti (Finset.empty_subset visited) [h]).trans ?_
  rw [Worklist.potential, Finset.sdiff_empty]
  rfl

variable {visited : Finset Hash}

/-- Taking a commit off the worklist and queueing its parents uses up one round. -/
theorem potential_take {current : Hash} {waiting waiting' : List Hash} (hnot : current ∉ visited)
    (hlength : waiting'.length = waiting.length + (commitParents B s current).length) :
    Worklist.potential (commitParents B s) s.keys.toFinset (insert current visited) waiting' =
      Worklist.potential (commitParents B s) s.keys.toFinset visited waiting := by
  have hvisit := Worklist.potential_visit (fun a ha => commitParents_eq_nil (B := B) (s := s) ha)
    hnot hlength
  rwa [Worklist.potential_cons, Nat.add_right_cancel_iff] at hvisit

/-- A set of commits with all their ancestors. -/
def ParentClosed (B : Blake3) (s : ObjectStore) (set : Finset Hash) : Prop :=
  ∀ a ∈ set, ∀ b, CommitParent B s a b → b ∈ set

theorem ParentClosed.reaches {set : Finset Hash} (h : ParentClosed B s set) {a b : Hash}
    (hab : DescendsFrom B s a b) (ha : a ∈ set) : b ∈ set := by
  induction hab with
  | refl => exact ha
  | tail _ hb ih => exact h _ ih _ hb

/-- At most `MAX_ANCESTORS` commits are reachable from `g`, itself included. -/
def WithinCap (B : Blake3) (s : ObjectStore) (g : Hash) : Prop :=
  ∃ ancestors : Finset Hash, (∀ h, DescendsFrom B s g h → h ∈ ancestors) ∧
    ancestors.card ≤ MAX_ANCESTORS

/-- The walk from `g` on the way: `old` is what was there before it, `new` what it has taken. -/
structure Collecting (B : Blake3) (s : ObjectStore) (g : Hash) (old new : Finset Hash)
    (stack : List Hash) : Prop where
  start : g ∈ old ∪ new ∨ g ∈ stack
  disjoint : Disjoint old new
  reached : ∀ h, h ∈ new ∨ h ∈ stack → DescendsFrom B s g h
  closing : ∀ a ∈ new, ∀ b, CommitParent B s a b → b ∈ old ∪ new ∨ b ∈ stack

variable {g : Hash}

theorem Collecting.pass {current : Hash} {old new : Finset Hash} {stack : List Hash}
    (h : Collecting B s g old new (current :: stack)) (hin : current ∈ old ∪ new) :
    Collecting B s g old new stack where
  start := by
    rcases h.start with hg | hg
    · exact .inl hg
    · rcases List.mem_cons.1 hg with rfl | hg
      · exact .inl hin
      · exact .inr hg
  disjoint := h.disjoint
  reached x hx := h.reached x (hx.imp_right (List.mem_cons_of_mem _))
  closing a ha b hb := by
    rcases h.closing a ha b hb with hold | hstack
    · exact .inl hold
    · rcases List.mem_cons.1 hstack with rfl | hstack
      · exact .inl hin
      · exact .inr hstack

theorem Collecting.take {current : Hash} {old new : Finset Hash} {stack : List Hash}
    (h : Collecting B s g old new (current :: stack)) (hnot : current ∉ old ∪ new) :
    Collecting B s g old (insert current new)
      ((commitParents B s current).reverse ++ stack) where
  start := by
    rcases h.start with hg | hg
    · rw [Finset.union_insert]
      exact .inl (Finset.mem_insert_of_mem hg)
    · rcases List.mem_cons.1 hg with rfl | hg
      · rw [Finset.union_insert]
        exact .inl (Finset.mem_insert_self _ _)
      · exact .inr (List.mem_append_right _ hg)
  disjoint := by
    rw [Finset.disjoint_insert_right]
    exact ⟨fun hold => hnot (Finset.mem_union_left _ hold), h.disjoint⟩
  reached x hx := by
    have hcurrent := h.reached current (.inr List.mem_cons_self)
    rcases hx with hx | hx
    · rcases Finset.mem_insert.1 hx with rfl | hx
      · exact hcurrent
      · exact h.reached x (.inl hx)
    · rcases List.mem_append.1 hx with hx | hx
      · exact hcurrent.tail (List.mem_reverse.1 hx)
      · exact h.reached x (.inr (List.mem_cons_of_mem _ hx))
  closing a ha b hb := by
    rw [Finset.union_insert, Finset.mem_insert, List.mem_append, List.mem_reverse]
    rcases Finset.mem_insert.1 ha with rfl | ha
    · exact .inr (.inl hb)
    · rcases h.closing a ha b hb with hold | hstack
      · exact .inl (.inr hold)
      · rcases List.mem_cons.1 hstack with rfl | hstack
        · exact .inl (.inl rfl)
        · exact .inr (.inr hstack)

/-- **The walk from a good commit is complete** when it is not cut short. -/
theorem collectAncestorSet_spec {old ancestors : Finset Hash}
    (hcap : ∀ h, DescendsFrom B s g h → h ∈ ancestors)
    (hcard : ancestors.card ≤ MAX_ANCESTORS) {fuel : ℕ} {stack : List Hash} {new : Finset Hash}
    (h : Collecting B s g old new stack)
    (hfuel : Worklist.potential (commitParents B s) s.keys.toFinset (old ∪ new) stack ≤ fuel) :
    ∃ final : Finset Hash, Collecting B s g old final [] ∧
      collectAncestorSet B s fuel stack new.card (old ∪ new) = old ∪ final := by
  have hsub : ∀ new stack, Collecting B s g old new stack → new ⊆ ancestors :=
    fun new stack h x hx => hcap x (h.reached x (.inl hx))
  induction fuel generalizing stack new with
  | zero =>
    obtain rfl : stack = [] := by
      rw [Worklist.potential] at hfuel
      exact List.length_eq_zero_iff.1 (by omega)
    exact ⟨new, h, rfl⟩
  | succ fuel ih =>
    cases stack with
    | nil => exact ⟨new, h, rfl⟩
    | cons current stack =>
      rw [collectAncestorSet]
      rw [Worklist.potential_cons] at hfuel
      split_ifs with hcut hin
      -- The cap is reached only when every ancestor has been taken.
      · have hall : new = ancestors :=
          Finset.eq_of_subset_of_card_le (hsub _ _ h) (hcard.trans hcut)
        refine ⟨new, ?_, rfl⟩
        have hmem : ∀ x, DescendsFrom B s g x → x ∈ old ∪ new := fun x hx =>
          Finset.mem_union_right _ (hall ▸ hcap x hx)
        exact ⟨.inl (hmem g .refl), h.disjoint,
          fun x hx => h.reached x (.inl (hx.resolve_right List.not_mem_nil)),
          fun a ha b hb => .inl (hmem b ((h.reached a (.inl ha)).tail hb))⟩
      · exact ih (h.pass hin) (by omega)
      · have hnew : current ∉ new := fun hc => hin (Finset.mem_union_right _ hc)
        have hlength : ((commitParents B s current).reverse ++ stack).length =
            stack.length + (commitParents B s current).length := by
          rw [List.length_append, List.length_reverse, Nat.add_comm]
        have hnext := ih (h.take hin) (by
          rw [Finset.union_insert, potential_take hin hlength]
          omega)
        rwa [Finset.card_insert_of_notMem hnew, Finset.union_insert] at hnext

/-- What one walk adds. -/
theorem mem_collectAncestorSet {set : Finset Hash} (hset : ParentClosed B s set)
    (hcap : WithinCap B s g) : ParentClosed B s (collectAncestorSet B s (walkFuel B s) [g] 0 set) ∧
      ∀ h, h ∈ collectAncestorSet B s (walkFuel B s) [g] 0 set ↔ h ∈ set ∨ DescendsFrom B s g h := by
  obtain ⟨ancestors, hall, hcard⟩ := hcap
  have hstart : Collecting B s g set ∅ [g] :=
    ⟨.inr List.mem_cons_self, Finset.disjoint_empty_right _,
      fun h hh => by
        rcases hh with hh | hh
        · exact absurd hh (Finset.notMem_empty h)
        · rw [List.mem_singleton.1 hh],
      fun a ha => absurd ha (Finset.notMem_empty a)⟩
  have hfuel : Worklist.potential (commitParents B s) s.keys.toFinset (set ∪ ∅) [g] ≤
      walkFuel B s := by
    rw [Finset.union_empty]
    exact potential_start g set
  obtain ⟨final, hfinal, heq⟩ := collectAncestorSet_spec hall hcard hstart hfuel
  rw [Finset.union_empty, Finset.card_empty] at heq
  rw [heq]
  have hclosed : ParentClosed B s (set ∪ final) := by
    intro a ha b hb
    rcases Finset.mem_union.1 ha with ha | ha
    · exact Finset.mem_union_left _ (hset a ha b hb)
    · exact (hfinal.closing a ha b hb).resolve_right List.not_mem_nil
  refine ⟨hclosed, fun h => ⟨fun hh => ?_, fun hh => ?_⟩⟩
  · exact (Finset.mem_union.1 hh).imp_right fun hh => hfinal.reached h (.inl hh)
  · rcases hh with hh | hh
    · exact Finset.mem_union_left _ hh
    · exact hclosed.reaches hh (hfinal.start.resolve_right List.not_mem_nil)

/-- The good set holds exactly the ancestors of the good commits. -/
theorem mem_goodSet {good_hashes : List Hash} (hcap : ∀ g ∈ good_hashes, WithinCap B s g) :
    ParentClosed B s (goodSet B s good_hashes) ∧
      ∀ h, h ∈ goodSet B s good_hashes ↔ ∃ g ∈ good_hashes, DescendsFrom B s g h := by
  induction good_hashes using List.reverseRecOn with
  | nil => exact ⟨fun a ha => absurd ha (Finset.notMem_empty a), fun h => by simp [goodSet]⟩
  | append_singleton goods g ih =>
    obtain ⟨hclosed, hmem⟩ := ih fun g' hg' => hcap g' (List.mem_append_left _ hg')
    obtain ⟨hclosed', hmem'⟩ := mem_collectAncestorSet hclosed
      (hcap g (List.mem_append_right _ List.mem_cons_self))
    rw [goodSet, List.foldl_append]
    refine ⟨hclosed', fun h => (hmem' h).trans ?_⟩
    rw [hmem]
    simp only [List.mem_append, List.mem_singleton, or_and_right, exists_or, exists_eq_left]

/-- The walk from the bad commit on the way. -/
structure Enumerating (B : Blake3) (s : ObjectStore) (bad : Hash) (good_set : Finset Hash)
    (queue : List Hash) (visited : Finset Hash) (candidates : List Hash) : Prop where
  start : bad ∈ visited ∨ bad ∈ queue
  nodup : candidates.Nodup
  mem_visited : ∀ h ∈ candidates, h ∈ visited
  of_visited : ∀ h ∈ visited, h ∈ good_set ∨ h ∈ candidates
  reached : ∀ h, h ∈ candidates ∨ h ∈ queue → DescendsFrom B s bad h
  notGood : ∀ h ∈ candidates, h ∉ good_set
  closing : ∀ a ∈ candidates, ∀ b, CommitParent B s a b → b ∈ visited ∨ b ∈ queue

theorem enumerating_start (B : Blake3) (s : ObjectStore) (bad : Hash) (good_set : Finset Hash) :
    Enumerating B s bad good_set [bad] ∅ [] where
  start := .inr List.mem_cons_self
  nodup := List.nodup_nil
  mem_visited h hh := absurd hh List.not_mem_nil
  of_visited h hh := absurd hh (Finset.notMem_empty h)
  reached h hh := by
    rcases hh with hh | hh
    · exact absurd hh List.not_mem_nil
    · rw [List.mem_singleton.1 hh]
  notGood h hh := absurd hh List.not_mem_nil
  closing a ha := absurd ha List.not_mem_nil

variable {good_set : Finset Hash}

theorem Enumerating.pass {bad current : Hash} {queue candidates : List Hash}
    (h : Enumerating B s bad good_set (current :: queue) visited candidates)
    {visited' : Finset Hash} (hsub : visited ⊆ visited') (hcurrent : current ∈ visited')
    (hof : ∀ x ∈ visited', x ∈ good_set ∨ x ∈ candidates) :
    Enumerating B s bad good_set queue visited' candidates := by
  have hmoved : ∀ x, x ∈ visited ∨ x ∈ current :: queue → x ∈ visited' ∨ x ∈ queue := by
    intro x hx
    rcases hx with hx | hx
    · exact .inl (hsub hx)
    · rcases List.mem_cons.1 hx with rfl | hx
      · exact .inl hcurrent
      · exact .inr hx
  exact ⟨hmoved bad h.start, h.nodup, fun x hx => hsub (h.mem_visited x hx), hof,
    fun x hx => h.reached x (hx.imp_right (List.mem_cons_of_mem _)), h.notGood,
    fun a ha b hb => hmoved b (h.closing a ha b hb)⟩

theorem Enumerating.take {bad current : Hash} {queue candidates : List Hash}
    (h : Enumerating B s bad good_set (current :: queue) visited candidates)
    (hnot : current ∉ visited) (hgood : current ∉ good_set) :
    Enumerating B s bad good_set (queue ++ commitParents B s current) (insert current visited)
      (candidates ++ [current]) := by
  have hreached := h.reached current (.inr List.mem_cons_self)
  have hmoved : ∀ x, x ∈ visited ∨ x ∈ current :: queue →
      x ∈ insert current visited ∨ x ∈ queue ++ commitParents B s current := by
    intro x hx
    rcases hx with hx | hx
    · exact .inl (Finset.mem_insert_of_mem hx)
    · rcases List.mem_cons.1 hx with rfl | hx
      · exact .inl (Finset.mem_insert_self _ _)
      · exact .inr (List.mem_append_left _ hx)
  refine ⟨hmoved bad h.start, ?_, ?_, ?_, ?_, ?_, ?_⟩
  · exact List.Nodup.append h.nodup (List.nodup_singleton _)
      (List.disjoint_singleton.2 fun hc => hnot (h.mem_visited _ hc))
  · intro x hx
    rcases List.mem_append.1 hx with hx | hx
    · exact Finset.mem_insert_of_mem (h.mem_visited x hx)
    · rw [List.mem_singleton.1 hx]
      exact Finset.mem_insert_self _ _
  · intro x hx
    rcases Finset.mem_insert.1 hx with rfl | hx
    · exact .inr (List.mem_append_right _ List.mem_cons_self)
    · exact (h.of_visited x hx).imp_right (List.mem_append_left _)
  · intro x hx
    rw [List.mem_append, List.mem_append, List.mem_singleton] at hx
    rcases hx with (hx | rfl) | (hx | hx)
    · exact h.reached x (.inl hx)
    · exact hreached
    · exact h.reached x (.inr (List.mem_cons_of_mem _ hx))
    · exact hreached.tail hx
  · intro x hx
    rcases List.mem_append.1 hx with hx | hx
    · exact h.notGood x hx
    · rwa [List.mem_singleton.1 hx]
  · intro a ha b hb
    rcases List.mem_append.1 ha with ha | ha
    · exact hmoved b (h.closing a ha b hb)
    · rw [List.mem_singleton.1 ha] at hb
      exact .inr (List.mem_append_right _ hb)

/-- A walk keeps what it has listed. -/
theorem prefix_enumerateFrom (good_set : Finset Hash) (fuel : ℕ) (queue : List Hash)
    (visited : Finset Hash) (candidates : List Hash) :
    candidates <+: enumerateFrom B s good_set fuel queue visited candidates := by
  fun_induction enumerateFrom B s good_set fuel queue visited candidates with
  | case1 | case2 => exact List.prefix_rfl
  | case3 | case4 => assumption
  | case5 _ _ _ _ _ _ _ ih => exact (List.prefix_append _ _).trans ih

/-- The walk from the bad commit ends with an empty queue. -/
theorem enumerateFrom_spec {bad : Hash} {fuel : ℕ} {queue : List Hash} {candidates : List Hash}
    (h : Enumerating B s bad good_set queue visited candidates)
    (hfuel : Worklist.potential (commitParents B s) s.keys.toFinset visited queue ≤ fuel) :
    ∃ final, Enumerating B s bad good_set [] final
      (enumerateFrom B s good_set fuel queue visited candidates) := by
  induction fuel generalizing queue visited candidates with
  | zero =>
    obtain rfl : queue = [] := by
      rw [Worklist.potential] at hfuel
      exact List.length_eq_zero_iff.1 (by omega)
    exact ⟨visited, h⟩
  | succ fuel ih =>
    cases queue with
    | nil => exact ⟨visited, h⟩
    | cons current queue =>
      rw [enumerateFrom]
      rw [Worklist.potential_cons] at hfuel
      split_ifs with hin hgood
      · exact ih (h.pass subset_rfl hin h.of_visited) (by omega)
      · refine ih (h.pass (Finset.subset_insert _ _) (Finset.mem_insert_self _ _) ?_)
          ((Worklist.potential_anti (Finset.subset_insert _ _) _).trans (by omega))
        intro x hx
        rcases Finset.mem_insert.1 hx with rfl | hx
        · exact .inl hgood
        · exact h.of_visited x hx
      · refine ih (h.take hin hgood) ?_
        rw [potential_take hin List.length_append]
        omega

/-- **The candidates are exact.** While no walk from a good commit is cut short, the candidates
are the commits reachable from the bad one and from no good one, each once. -/
theorem mem_enumerateRange {bad : Hash} {good_hashes : List Hash}
    (hcap : ∀ g ∈ good_hashes, WithinCap B s g) : (enumerateRange B s bad good_hashes).Nodup ∧
      ∀ h, h ∈ enumerateRange B s bad good_hashes ↔
        DescendsFrom B s bad h ∧ ∀ g ∈ good_hashes, ¬ DescendsFrom B s g h := by
  obtain ⟨hclosed, hgood⟩ := mem_goodSet hcap
  have hstart := enumerating_start B s bad (goodSet B s good_hashes)
  obtain ⟨final, hfinal⟩ := enumerateFrom_spec hstart (potential_start bad ∅)
  refine ⟨hfinal.nodup, fun h => ⟨fun hh => ⟨hfinal.reached h (.inl hh), fun g hg hreach => ?_⟩, ?_⟩⟩
  · exact hfinal.notGood h hh ((hgood h).2 ⟨g, hg, hreach⟩)
  · rintro ⟨hreach, hnot⟩
    -- Good commits are closed under parents, so the walk loses nothing where it stops at one.
    have hall : h ∈ goodSet B s good_hashes ∨
        h ∈ enumerateRange B s bad good_hashes := by
      clear hnot
      induction hreach with
      | refl => exact hfinal.of_visited bad (hfinal.start.resolve_right List.not_mem_nil)
      | tail _ hb ih =>
        rcases ih with ih | ih
        · exact .inl (hclosed _ ih _ hb)
        · exact hfinal.of_visited _
            ((hfinal.closing _ ih _ hb).resolve_right List.not_mem_nil)
    refine hall.resolve_left fun hin => ?_
    obtain ⟨g, hg, hgh⟩ := (hgood h).1 hin
    exact hnot g hg hgh

/-- The bad commit comes first, unless it is known to be good. -/
theorem enumerateRange_eq_cons {bad : Hash} {good_hashes : List Hash}
    (hbad : bad ∉ goodSet B s good_hashes) :
    ∃ rest, enumerateRange B s bad good_hashes = bad :: rest := by
  rw [enumerateRange, walkFuel, Nat.add_comm, enumerateFrom, if_neg (Finset.notMem_empty bad),
    if_neg hbad]
  obtain ⟨rest, hrest⟩ := prefix_enumerateFrom (B := B) (s := s) (goodSet B s good_hashes)
    (∑ h ∈ s.keys.toFinset, (commitParents B s h).length) ([] ++ commitParents B s bad)
    (insert bad ∅) ([] ++ [bad])
  exact ⟨rest, hrest.symm⟩

end Walks

/-! ### The pick -/

variable {h : Hash}

theorem unskippedAt_eq_some {candidates : List Hash} {skipped : SortedSet Hash} {idx : ℕ} :
    unskippedAt candidates skipped idx = some h ↔ candidates[idx]? = some h ∧ h ∉ skipped := by
  rw [unskippedAt, Option.filter_eq_some_iff, decide_eq_true_eq]

/-- The pick is never the first candidate while there is another one: going outward from the
middle reaches it last. -/
theorem pickOutward_spec {candidates : List Hash} {skipped : SortedSet Hash} {mid i : ℕ}
    (hmid : mid = candidates.length / 2) (hi : 0 < i)
    (hih : unskippedAt candidates skipped i = some h) {rounds delta : ℕ}
    (hrounds : rounds + delta = candidates.length + 1)
    (hseen : ∀ j, mid < j + delta → j < mid + delta → unskippedAt candidates skipped j = none) :
    ∃ j, 0 < j ∧ unskippedAt candidates skipped j =
      some (pickOutward candidates skipped mid rounds delta) := by
  have hi_lt : i < candidates.length :=
    (List.getElem?_eq_some_iff.1 (unskippedAt_eq_some.1 hih).1).1
  induction rounds generalizing delta with
  | zero =>
    rw [hseen i (by omega) (by omega)] at hih
    cases hih
  | succ rounds ih =>
    rw [pickOutward]
    rcases hup : unskippedAt candidates skipped (mid + delta) with _ | a
    · -- Nothing to be had above; what is below is not the first unless all else is skipped.
      have hnext : unskippedAt candidates skipped (mid - delta) = none →
          ∀ j, mid < j + (delta + 1) → j < mid + (delta + 1) →
            unskippedAt candidates skipped j = none := by
        intro hdown j hlow hhigh
        by_cases hj : mid < j + delta ∧ j < mid + delta
        · exact hseen j hj.1 hj.2
        · obtain rfl | rfl : j = mid + delta ∨ j = mid - delta := by omega
          · exact hup
          · exact hdown
      dsimp only
      split_ifs with hdelta
      · rcases hdown : unskippedAt candidates skipped (mid - delta) with _ | b
        · exact ih (by omega) (hnext hdown)
        · refine ⟨mid - delta, ?_, hdown⟩
          by_contra hzero
          have hi_seen : unskippedAt candidates skipped i = none := by
            by_cases hj : i < mid + delta
            · exact hseen i (by omega) hj
            · obtain rfl : i = mid + delta := by omega
              exact hup
          rw [hi_seen] at hih
          cases hih
      · refine ih (by omega) fun j hlow hhigh => ?_
        by_cases hj : mid < j + delta ∧ j < mid + delta
        · exact hseen j hj.1 hj.2
        · obtain rfl : j = mid + delta := by omega
          exact hup
    · exact ⟨mid + delta, by omega, hup⟩

/-- The pick among candidates of which one after the first is not skipped. -/
theorem pickMidpointSkip_spec {bad : Hash} {rest : List Hash} {skipped : SortedSet Hash}
    (h : ∃ x ∈ rest, x ∉ skipped) : pickMidpointSkip (bad :: rest) skipped ∈ rest ∧
      pickMidpointSkip (bad :: rest) skipped ∉ skipped := by
  obtain ⟨x, hx, hskip⟩ := h
  obtain ⟨i, hi⟩ := List.mem_iff_getElem?.1 hx
  have hat : unskippedAt (bad :: rest) skipped (i + 1) = some x :=
    unskippedAt_eq_some.2 ⟨hi, hskip⟩
  obtain ⟨j, hj, hpick⟩ := pickOutward_spec rfl (Nat.succ_pos i) hat
    (Nat.add_zero ((bad :: rest).length + 1)) fun j hlow hhigh => by omega
  rw [pickMidpointSkip, List.isEmpty_cons, if_neg Bool.false_ne_true]
  obtain ⟨hget, hnot⟩ := unskippedAt_eq_some.1 hpick
  refine ⟨?_, hnot⟩
  obtain ⟨j, rfl⟩ := Nat.exists_eq_succ_of_ne_zero hj.ne'
  exact List.mem_of_getElem? hget

/-! ### One iteration -/

section Step

variable {B : Blake3} {s : ObjectStore}

/-- What an iteration answers when the bad commit is a candidate that is not skipped. -/
theorem nextStep_cases {state : BisectState} {bad : Hash} {rest : List Hash}
    (hbad : state.bad_hash = some bad) (hgood : state.good_hashes ≠ [])
    (hcandidates : enumerateRange B s bad state.good_hashes = bad :: rest)
    (hskip : bad ∉ state.skipped) :
    (∃ h ∈ rest, h ∉ state.skipped ∧ nextStep B s state = .testing h (rest.length + 1)) ∨
      (∀ h ∈ rest, h ∈ state.skipped) ∧
        (rest = [] ∧ nextStep B s state = .found bad ∨
          rest ≠ [] ∧ nextStep B s state = .ambiguous bad rest) := by
  have hgoods : state.good_hashes.isEmpty = false := List.isEmpty_eq_false_iff.2 hgood
  have hunskipped : (bad :: rest).filter (· ∉ state.skipped) =
      bad :: rest.filter (· ∉ state.skipped) := List.filter_cons_of_pos (decide_eq_true hskip)
  have hskipped : (bad :: rest).filter (· ∈ state.skipped) = rest.filter (· ∈ state.skipped) :=
    List.filter_cons_of_neg fun h => hskip (of_decide_eq_true h)
  rw [nextStep, hbad]
  simp only [hgoods, hcandidates, List.isEmpty_cons, Bool.false_eq_true, if_false, hunskipped,
    hskipped]
  rcases hfilter : rest.filter (· ∉ state.skipped) with _ | ⟨x, l⟩
  · have hall : ∀ h ∈ rest, h ∈ state.skipped := by
      intro h hh
      have hnot := List.filter_eq_nil_iff.1 hfilter h hh
      rwa [decide_eq_true_eq, not_not] at hnot
    have hrest : rest.filter (· ∈ state.skipped) = rest :=
      List.filter_eq_self.2 fun h hh => decide_eq_true (hall h hh)
    refine .inr ⟨hall, ?_⟩
    simp only [hrest, true_and]
    cases rest with
    | nil => exact .inl ⟨rfl, rfl⟩
    | cons y l => exact .inr ⟨List.cons_ne_nil y l, rfl⟩
  · have hx : x ∈ rest.filter (· ∉ state.skipped) := hfilter ▸ List.mem_cons_self
    rw [List.mem_filter, decide_eq_true_eq] at hx
    obtain ⟨hmem, hnot⟩ := @pickMidpointSkip_spec bad rest state.skipped ⟨x, hx.1, hx.2⟩
    exact .inl ⟨_, hmem, hnot, rfl⟩

/-- A verdict on every commit that fits what a session knows: a commit with a bad ancestor is
bad. -/
structure Fits (B : Blake3) (s : ObjectStore) (state : BisectState) (isBad : Hash → Prop) :
    Prop where
  monotone : ∀ a b, CommitParent B s a b → isBad b → isBad a
  bad : ∀ b ∈ state.bad_hash, isBad b
  good : ∀ g ∈ state.good_hashes, ¬ isBad g

theorem Fits.of_reaches {state : BisectState} {isBad : Hash → Prop} (h : Fits B s state isBad)
    {a b : Hash} (hab : DescendsFrom B s a b) (hb : isBad b) : isBad a := by
  induction hab using ReflTransGen.head_induction_on with
  | refl => exact hb
  | head hac _ ih => exact h.monotone _ _ hac ih

/-- Bad, with good parents. -/
def FirstBad (B : Blake3) (s : ObjectStore) (isBad : Hash → Prop) (h : Hash) : Prop :=
  isBad h ∧ ∀ p, CommitParent B s h p → ¬ isBad p

/-- What a session knows tells that `h` is the first bad commit. -/
def Determined (B : Blake3) (s : ObjectStore) (state : BisectState) (h : Hash) : Prop :=
  ∀ isBad, Fits B s state isBad → FirstBad B s isBad h

/-- No candidate but the bad commit: it is the first bad one. -/
theorem determined_of_alone {state : BisectState} {bad : Hash}
    (hacyclic : ∀ h, ¬ TransGen (CommitParent B s) h h) (hbad : state.bad_hash = some bad)
    (halone : ∀ h, DescendsFrom B s bad h →
      (∀ g ∈ state.good_hashes, ¬ DescendsFrom B s g h) → h = bad) : Determined B s state bad := by
  intro isBad hfits
  refine ⟨hfits.bad bad hbad, fun p hp hpbad => ?_⟩
  have hself : p = bad := halone p (.single hp) fun g hg hreach =>
    hfits.good g hg (hfits.of_reaches hreach hpbad)
  rw [hself] at hp
  exact hacyclic bad (.single hp)

/-- Another candidate: two verdicts that fit have different first bad commits. -/
theorem not_determined {state : BisectState} {bad x : Hash} (hbad : state.bad_hash = some bad)
    (hbad_cand : ∀ g ∈ state.good_hashes, ¬ DescendsFrom B s g bad) (hx : DescendsFrom B s bad x)
    (hx_cand : ∀ g ∈ state.good_hashes, ¬ DescendsFrom B s g x) (hne : x ≠ bad) (h : Hash) :
    ¬ Determined B s state h := by
  intro hdet
  -- Everything is bad that is not an ancestor of a good commit.
  have hmost := hdet (fun y => ∀ g ∈ state.good_hashes, ¬ DescendsFrom B s g y)
    ⟨fun a b hab hb g hg hga => hb g hg (hga.tail hab),
      fun b hb => by
        rw [hbad, Option.mem_some_iff] at hb
        exact hb ▸ hbad_cand,
      fun g hg hnone => hnone g hg .refl⟩
  -- Only the bad commit and its descendants are bad.
  have hleast := hdet (fun y => DescendsFrom B s y bad)
    ⟨fun a b hab hb => hb.head hab,
      fun b hb => by
        rw [hbad, Option.mem_some_iff] at hb
        exact hb ▸ .refl,
      hbad_cand⟩
  obtain rfl : h = bad := by
    rcases hleast.1.cases_head with heq | ⟨p, hp, hreach⟩
    · exact heq
    · exact absurd hreach (hleast.2 p hp)
  rcases hx.cases_head with heq | ⟨p, hp, hreach⟩
  · exact hne heq.symm
  · refine hmost.2 p hp fun g hg hgp => hx_cand g hg (hgp.trans hreach)

end Step

/-! ### Runs -/

section Runs

variable {B : Blake3} {s : ObjectStore} {isBad : Hash → Prop}

/-- One iteration of a session: the commit to test is skipped, or its verdict is recorded. -/
inductive Tests (B : Blake3) (s : ObjectStore) (isBad : Hash → Prop) :
    BisectState → Hash → BisectState → Prop
  | good {state : BisectState} {h : Hash} {n : ℕ} (hstep : nextStep B s state = .testing h n)
      (hgood : ¬ isBad h) :
      Tests B s isBad state h { state with good_hashes := state.good_hashes ++ [h] }
  | bad {state : BisectState} {h : Hash} {n : ℕ} (hstep : nextStep B s state = .testing h n)
      (hbad : isBad h) : Tests B s isBad state h { state with bad_hash := some h }
  | skip {state : BisectState} {h : Hash} {n : ℕ} (hstep : nextStep B s state = .testing h n) :
      Tests B s isBad state h { state with skipped := state.skipped.insert h }

/-- A commit that may still be tested. -/
structure Testable (B : Blake3) (s : ObjectStore) (state : BisectState) (bad h : Hash) : Prop where
  reached : DescendsFrom B s bad h
  notGood : ∀ g ∈ state.good_hashes, ¬ DescendsFrom B s g h
  notSkipped : h ∉ state.skipped
  ne : h ≠ bad

/-- A state of a session that began with `bad₀` and `goods₀`. -/
structure InSession (B : Blake3) (s : ObjectStore) (isBad : Hash → Prop) (bad₀ : Hash)
    (goods₀ : List Hash) (state : BisectState) (bad : Hash) : Prop where
  fits : Fits B s state isBad
  bad_hash : state.bad_hash = some bad
  reached : DescendsFrom B s bad₀ bad
  notSkipped : bad ∉ state.skipped
  good_ne_nil : state.good_hashes ≠ []
  known : ∀ g ∈ state.good_hashes, g ∈ goods₀ ∨ DescendsFrom B s bad₀ g

variable {bad₀ : Hash} {goods₀ : List Hash}

/-- The candidates in a state of a session. -/
theorem InSession.candidates {bad : Hash} {state : BisectState}
    (h : InSession B s isBad bad₀ goods₀ state bad)
    (hcap : ∀ g, g ∈ goods₀ ∨ DescendsFrom B s bad₀ g → ¬ isBad g → WithinCap B s g) :
    (∀ g ∈ state.good_hashes, ¬ DescendsFrom B s g bad) ∧
      (∀ x, x ∈ enumerateRange B s bad state.good_hashes ↔
        DescendsFrom B s bad x ∧ ∀ g ∈ state.good_hashes, ¬ DescendsFrom B s g x) ∧
      ∃ rest, enumerateRange B s bad state.good_hashes = bad :: rest ∧ bad ∉ rest := by
  have hcaps : ∀ g ∈ state.good_hashes, WithinCap B s g := fun g hg =>
    hcap g (h.known g hg) (h.fits.good g hg)
  have hbad : ∀ g ∈ state.good_hashes, ¬ DescendsFrom B s g bad := fun g hg hreach =>
    h.fits.good g hg (h.fits.of_reaches hreach (h.fits.bad bad h.bad_hash))
  obtain ⟨hnodup, hmem⟩ := @mem_enumerateRange B s bad state.good_hashes hcaps
  obtain ⟨rest, hrest⟩ := @enumerateRange_eq_cons B s bad state.good_hashes fun hin => by
      obtain ⟨g, hg, hreach⟩ := ((mem_goodSet hcaps).2 bad).1 hin
      exact hbad g hg hreach
  exact ⟨hbad, hmem, rest, hrest, (List.nodup_cons.1 (hrest ▸ hnodup)).1⟩

/-- The commit to test is testable. -/
theorem InSession.testable {bad : Hash} {state : BisectState}
    (h : InSession B s isBad bad₀ goods₀ state bad)
    (hcap : ∀ g, g ∈ goods₀ ∨ DescendsFrom B s bad₀ g → ¬ isBad g → WithinCap B s g)
    {x : Hash} {n : ℕ} (hstep : nextStep B s state = .testing x n) : Testable B s state bad x := by
  obtain ⟨-, hmem, rest, hrest, hnot⟩ := h.candidates hcap
  rcases nextStep_cases h.bad_hash h.good_ne_nil hrest h.notSkipped with
    ⟨y, hy, hskip, heq⟩ | ⟨-, ⟨-, heq⟩ | ⟨-, heq⟩⟩
  · rw [hstep] at heq
    obtain ⟨rfl, -⟩ := BisectStep.testing.inj heq
    obtain ⟨hreach, hgood⟩ := (hmem x).1 (hrest ▸ List.mem_cons_of_mem _ hy)
    exact ⟨hreach, hgood, hskip, fun heq => hnot (heq ▸ hy)⟩
  · rw [hstep] at heq
    cases heq
  · rw [hstep] at heq
    cases heq

/-- **One iteration uses up the commit it tests**, and makes nothing else testable. -/
theorem InSession.step {bad : Hash} {state state' : BisectState}
    {h : Hash} (hacyclic : ∀ h, ¬ TransGen (CommitParent B s) h h)
    (hsession : InSession B s isBad bad₀ goods₀ state bad) (htest : Testable B s state bad h)
    (hstep : Tests B s isBad state h state') : ∃ bad', InSession B s isBad bad₀ goods₀ state' bad' ∧
      ∀ x, Testable B s state' bad' x → Testable B s state bad x ∧ x ≠ h := by
  obtain ⟨hfits, hbad, hreached, hnotskip, hne, hknown⟩ := hsession
  have hh := hreached.trans htest.reached
  cases hstep with
  | good _ hgood =>
    refine ⟨bad, ⟨⟨hfits.monotone, hfits.bad, fun g hg => ?_⟩, hbad, hreached, hnotskip,
      List.append_ne_nil_of_left_ne_nil hne _, fun g hg => ?_⟩, fun x hx => ?_⟩
    · rcases List.mem_append.1 hg with hg | hg
      · exact hfits.good g hg
      · rwa [List.mem_singleton.1 hg]
    · rcases List.mem_append.1 hg with hg | hg
      · exact hknown g hg
      · exact .inr (List.mem_singleton.1 hg ▸ hh)
    · refine ⟨⟨hx.reached, fun g hg => hx.notGood g (List.mem_append_left _ hg), hx.notSkipped,
        hx.ne⟩, ?_⟩
      rintro rfl
      exact hx.notGood x (List.mem_append_right _ List.mem_cons_self) .refl
  | bad _ hbad' =>
    refine ⟨h, ⟨⟨hfits.monotone, fun b hb => ?_, hfits.good⟩, rfl, hh, htest.notSkipped, hne,
      hknown⟩, fun x hx => ⟨⟨htest.reached.trans hx.reached, hx.notGood, hx.notSkipped, ?_⟩,
      hx.ne⟩⟩
    · rwa [← Option.mem_some_iff.1 hb]
    -- The old bad commit is not an ancestor of the new one.
    · rintro rfl
      rcases reflTransGen_iff_eq_or_transGen.1 htest.reached with heq | hdown
      · exact htest.ne heq
      · exact hacyclic x (hdown.trans_left hx.reached)
  | skip _ =>
    refine ⟨bad, ⟨⟨hfits.monotone, hfits.bad, hfits.good⟩, hbad, hreached, fun hin => ?_, hne,
      hknown⟩, fun x hx => ⟨⟨hx.reached, hx.notGood, fun hin => ?_, hx.ne⟩, ?_⟩⟩
    · rcases SortedSet.mem_insert.1 hin with heq | hin
      · exact htest.ne heq.symm
      · exact hnotskip hin
    · exact hx.notSkipped (SortedSet.mem_insert.2 (.inr hin))
    · rintro rfl
      exact hx.notSkipped (SortedSet.mem_insert.2 (.inl rfl))

/-- What holds of the answer to a session that has tested some commits. -/
def Answered (B : Blake3) (s : ObjectStore) (tested : List Hash) (state : BisectState)
    (candidates : List Hash) : BisectStep → Prop
  | .testing h remaining =>
    h ∈ candidates ∧ h ∉ tested ∧ h ∉ state.skipped ∧ remaining = candidates.length
  | .found h => Determined B s state h
  | .ambiguous bad skipped =>
    state.bad_hash = some bad ∧ candidates = bad :: skipped ∧ (∀ h ∈ skipped, h ∈ state.skipped) ∧
      ∀ h, ¬ Determined B s state h
  | .needMore => False

/-- **Bisect finds the first bad commit.** Along every run over an acyclic history, in which the
walks from good commits are not cut short: every commit tested is a new candidate; there are no
more of them than candidates at the start; the candidates are exact; a commit that is found is the
first bad one, whatever verdict fits what is known; and an ambiguous answer means that none is. -/
theorem bisect_finds_first_bad (B : Blake3) (s : ObjectStore) (isBad : Hash → Prop)
    (hacyclic : ∀ h, ¬ TransGen (CommitParent B s) h h) (state₀ : BisectState) (bad₀ : Hash)
    (hbad₀ : state₀.bad_hash = some bad₀) (hgoods₀ : state₀.good_hashes ≠ [])
    (hfits₀ : Fits B s state₀ isBad) (hskip₀ : bad₀ ∉ state₀.skipped)
    (hcap : ∀ g, g ∈ state₀.good_hashes ∨ DescendsFrom B s bad₀ g → ¬ isBad g → WithinCap B s g)
    (tested : List Hash) (state : BisectState)
    (hrun : Lts.Run (Tests B s isBad) state₀ tested state) :
    tested.Nodup ∧ tested.length ≤ (enumerateRange B s bad₀ state₀.good_hashes).length ∧
      Fits B s state isBad ∧ ∃ bad, state.bad_hash = some bad ∧
        (∀ h, h ∈ enumerateRange B s bad state.good_hashes ↔
          DescendsFrom B s bad h ∧ ∀ g ∈ state.good_hashes, ¬ DescendsFrom B s g h) ∧
        Answered B s tested state (enumerateRange B s bad state.good_hashes)
          (nextStep B s state) := by
  have hsession₀ : InSession B s isBad bad₀ state₀.good_hashes state₀ bad₀ :=
    ⟨hfits₀, hbad₀, .refl, hskip₀, hgoods₀, fun g hg => .inl hg⟩
  obtain ⟨bad, hsession, hnodup, htested, hopen⟩ :
      ∃ bad, InSession B s isBad bad₀ state₀.good_hashes state bad ∧ tested.Nodup ∧
        (∀ h ∈ tested, Testable B s state₀ bad₀ h) ∧
        ∀ h, Testable B s state bad h → Testable B s state₀ bad₀ h ∧ h ∉ tested := by
    refine hrun.invariant (I := fun tested state => ∃ bad,
      InSession B s isBad bad₀ state₀.good_hashes state bad ∧ tested.Nodup ∧
        (∀ h ∈ tested, Testable B s state₀ bad₀ h) ∧
        ∀ h, Testable B s state bad h → Testable B s state₀ bad₀ h ∧ h ∉ tested) ?_ ?_
    · exact ⟨bad₀, hsession₀, List.nodup_nil, fun h hh => absurd hh List.not_mem_nil,
        fun h hh => ⟨hh, List.not_mem_nil⟩⟩
    · rintro tested state h state' ⟨bad, hsession, hnodup, htested, hopen⟩ hstep
      have htest : Testable B s state bad h := by
        cases hstep with
        | good hstep | bad hstep | skip hstep => exact hsession.testable hcap hstep
      obtain ⟨bad', hsession', hopen'⟩ := hsession.step hacyclic htest hstep
      obtain ⟨hinit, hnew⟩ := hopen h htest
      refine ⟨bad', hsession', ?_, fun x hx => ?_, fun x hx => ?_⟩
      · exact hnodup.append (List.nodup_singleton h) (List.disjoint_singleton.2 hnew)
      · rcases List.mem_append.1 hx with hx | hx
        · exact htested x hx
        · rwa [List.mem_singleton.1 hx]
      · obtain ⟨hold, hne⟩ := hopen' x hx
        obtain ⟨hinit', hnew'⟩ := hopen x hold
        refine ⟨hinit', fun hin => ?_⟩
        rcases List.mem_append.1 hin with hin | hin
        · exact hnew' hin
        · exact hne (List.mem_singleton.1 hin)
  obtain ⟨-, hmem₀, -⟩ := hsession₀.candidates hcap
  obtain ⟨hbad_cand, hmem, rest, hrest, hnot⟩ := hsession.candidates hcap
  have hsubset : tested ⊆ enumerateRange B s bad₀ state₀.good_hashes := fun h hh =>
    (hmem₀ h).2 ⟨(htested h hh).reached, (htested h hh).notGood⟩
  refine ⟨hnodup, (List.subperm_of_subset hnodup hsubset).length_le, hsession.fits, bad,
    hsession.bad_hash, hmem, ?_⟩
  rcases nextStep_cases hsession.bad_hash hsession.good_ne_nil hrest hsession.notSkipped with
    ⟨x, hx, hskip, heq⟩ | ⟨hall, ⟨hnil, heq⟩ | ⟨hne, heq⟩⟩
  · have htest := hsession.testable hcap heq
    rw [heq, hrest]
    exact ⟨List.mem_cons_of_mem _ hx, (hopen x htest).2, hskip, rfl⟩
  · rw [heq]
    refine determined_of_alone hacyclic hsession.bad_hash fun h hreach hgood => ?_
    have hh := (hmem h).2 ⟨hreach, hgood⟩
    rwa [hrest, hnil, List.mem_singleton] at hh
  · obtain ⟨x, hx⟩ := List.exists_mem_of_ne_nil rest hne
    obtain ⟨hreach, hgood⟩ := (hmem x).1 (hrest ▸ List.mem_cons_of_mem _ hx)
    rw [heq]
    exact ⟨hsession.bad_hash, hrest, hall,
      not_determined hsession.bad_hash hbad_cand hreach hgood fun hxb => hnot (hxb ▸ hx)⟩

end Runs

/-! ### Sample histories -/

/-- A history that numbers its commits so that parents come first is acyclic. -/
theorem acyclic_of_rank {B : Blake3} {s : ObjectStore} (rank : Hash → ℕ)
    (h : ∀ a b, CommitParent B s a b → rank b < rank a) (x : Hash) :
    ¬ TransGen (CommitParent B s) x x := by
  have hlt : ∀ a b, TransGen (CommitParent B s) a b → rank b < rank a := by
    intro a b hab
    induction hab with
    | single hab => exact h _ _ hab
    | tail _ hbc ih => exact (h _ _ hbc).trans ih
  exact fun hx => lt_irrefl _ (hlt x x hx)

/-- The id and the bytes of an object. -/
def bisectFile (o : Object) : Hash × Bytes :=
  match serialize o with
  | .ok b => ((objectIdFromBytes toyBlake3 b).getD ZERO, b)
  | .error _ => (ZERO, [])

/-- A commit with some parents. -/
def bisectCommit (parents : List Hash) (timestamp : UInt64) : Hash × Bytes :=
  bisectFile (.commit ⟨ZERO, parents, ⟨.opaqueBytes, [1]⟩, ByteArr.fill 32 0, [], timestamp, ZERO,
    ZERO, ByteArr.fill 64 0⟩)

/-- The store of some files. -/
def bisectStore (files : List (Hash × Bytes)) : ObjectStore :=
  files.foldl (fun s f => s.insert f.1 ⟨some f.2, none⟩) ∅

/-- A chain of three commits. -/
def bisectChain : List (Hash × Bytes) :=
  let first := bisectCommit [] 1
  let second := bisectCommit [first.1] 2
  [first, second, bisectCommit [second.1] 3]

/-- A commit of the chain, by its place. -/
def chainId (i : ℕ) : Hash := (bisectChain.map Prod.fst).getD i ZERO

theorem mem_keys_bisectChain :
    ∀ h ∈ (bisectStore bisectChain).keys, h = chainId 0 ∨ h = chainId 1 ∨ h = chainId 2 := by
  decide +kernel

theorem chain_parents {a b : Hash} (h : CommitParent toyBlake3 (bisectStore bisectChain) a b) :
    a = chainId 1 ∧ b = chainId 0 ∨ a = chainId 2 ∧ b = chainId 1 := by
  have hkey : a ∈ (bisectStore bisectChain).keys := by
    by_contra hnot
    rw [CommitParent, commitParents_eq_nil (mt List.mem_toFinset.1 hnot)] at h
    exact List.not_mem_nil h
  have hfirst : commitParents toyBlake3 (bisectStore bisectChain) (chainId 0) = [] := by
    decide +kernel
  have hsecond : commitParents toyBlake3 (bisectStore bisectChain) (chainId 1) = [chainId 0] := by
    decide +kernel
  have hthird : commitParents toyBlake3 (bisectStore bisectChain) (chainId 2) = [chainId 1] := by
    decide +kernel
  rw [CommitParent] at h
  rcases mem_keys_bisectChain a hkey with rfl | rfl | rfl
  · rw [hfirst] at h
    exact absurd h List.not_mem_nil
  · rw [hsecond, List.mem_singleton] at h
    exact .inl ⟨rfl, h⟩
  · rw [hthird, List.mem_singleton] at h
    exact .inr ⟨rfl, h⟩

theorem chain_ids : chainId 0 ≠ chainId 1 ∧ chainId 0 ≠ chainId 2 ∧ chainId 1 ≠ chainId 2 := by
  decide +kernel

-- The linter would evaluate the answer of the last step.
set_option linter.constructorNameAsVariable false in
/-- The second commit of the chain is the first bad one; it is tested and found. -/
theorem bisect_finds_first_bad_sample :
    nextStep toyBlake3 (bisectStore bisectChain) ⟨some (chainId 1), [chainId 0], ∅⟩ =
        .found (chainId 1) ∧
      FirstBad toyBlake3 (bisectStore bisectChain) (· ≠ chainId 0) (chainId 1) := by
  obtain ⟨h01, h02, h12⟩ := chain_ids
  have hacyclic := acyclic_of_rank (B := toyBlake3) (s := bisectStore bisectChain)
    (fun h => if h = chainId 0 then 0 else if h = chainId 1 then 1 else 2) fun a b hab => by
      rcases chain_parents hab with ⟨rfl, rfl⟩ | ⟨rfl, rfl⟩
      · rw [if_pos rfl, if_neg h01.symm, if_pos rfl]
        exact Nat.zero_lt_one
      · rw [if_neg h01.symm, if_pos rfl, if_neg h02.symm, if_neg h12.symm]
        exact Nat.one_lt_two
  have hfits : Fits toyBlake3 (bisectStore bisectChain) ⟨some (chainId 2), [chainId 0], ∅⟩
      (· ≠ chainId 0) := by
    refine ⟨fun a b hab _ => ?_, fun b hb => ?_, fun g hg => ?_⟩
    · rcases chain_parents hab with ⟨rfl, -⟩ | ⟨rfl, -⟩
      · exact h01.symm
      · exact h02.symm
    · rw [← Option.mem_some_iff.1 hb]
      exact h02.symm
    · rw [List.mem_singleton.1 hg, not_not]
  have hcap : ∀ g, g ∈ [chainId 0] ∨
      DescendsFrom toyBlake3 (bisectStore bisectChain) (chainId 2) g → ¬ g ≠ chainId 0 →
      WithinCap toyBlake3 (bisectStore bisectChain) g := by
    intro g _ hg
    refine ⟨{chainId 0}, fun h hh => ?_, by decide⟩
    rw [not_not.1 hg] at hh
    rcases hh.cases_head with rfl | ⟨p, hp, -⟩
    · exact Finset.mem_singleton_self _
    · rcases chain_parents hp with ⟨h, -⟩ | ⟨h, -⟩
      · exact absurd h h01
      · exact absurd h h02
  have htest : nextStep toyBlake3 (bisectStore bisectChain)
      ⟨some (chainId 2), [chainId 0], ∅⟩ = .testing (chainId 1) 2 := by
    decide +kernel
  have hfound : nextStep toyBlake3 (bisectStore bisectChain)
      ⟨some (chainId 1), [chainId 0], ∅⟩ = .found (chainId 1) := by
    decide +kernel
  obtain ⟨-, -, hfits', bad, -, -, hanswer⟩ := bisect_finds_first_bad toyBlake3
    (bisectStore bisectChain) (· ≠ chainId 0) hacyclic ⟨some (chainId 2), [chainId 0], ∅⟩
    (chainId 2) rfl (List.cons_ne_nil _ _) hfits (SortedSet.notMem_empty _) hcap [chainId 1]
    ⟨some (chainId 1), [chainId 0], ∅⟩ (.single (.bad htest h01.symm))
  rw [hfound] at hanswer
  exact ⟨hfound, hanswer _ hfits'⟩

/-! ### Where a walk ends early -/

/-- The parents of a commit or of a remix. -/
def historyParents : Object → List Hash
  | .commit commit => commit.parents
  | .remix remix => remix.parents
  | _ => []

/-- `b` is a parent of the commit or remix `a`. -/
def HistoryParent (B : Blake3) (s : ObjectStore) (a b : Hash) : Prop :=
  ∃ obj, s.readObject B a = .ok obj ∧ b ∈ historyParents obj

/-- Two commits, a remix of the second one, and a commit on top. -/
def remixChain : List (Hash × Bytes) :=
  let first := bisectCommit [] 1
  let second := bisectCommit [first.1] 2
  let remix := bisectFile (.remix ⟨ZERO, [second.1], [], ⟨.opaqueBytes, [1]⟩,
    ByteArr.fill 32 0, [], 3, ByteArr.fill 64 0⟩)
  [first, second, remix, bisectCommit [remix.1] 4]

/-- An object of the chain, by its place. -/
def remixId (i : ℕ) : Hash := (remixChain.map Prod.fst).getD i ZERO

/-- Every object of the chain has the one before it as its parent. -/
theorem remix_parents : ∀ i < 4, ∀ b,
    HistoryParent toyBlake3 (bisectStore remixChain) (remixId i) b ↔
      b ∈ if i = 0 then [] else [remixId (i - 1)] := by
  have hparents : ∀ i < 4, ((bisectStore remixChain).readObject toyBlake3 (remixId i)).toOption.map
      historyParents = some (if i = 0 then [] else [remixId (i - 1)]) := by
    decide +kernel
  intro i hi b
  have hi := hparents i hi
  rw [Option.map_eq_some_iff] at hi
  obtain ⟨obj, hobj, hlist⟩ := hi
  rcases hread : (bisectStore remixChain).readObject toyBlake3 (remixId i) with e | o
  · rw [hread] at hobj
    cases hobj
  · rw [hread] at hobj
    obtain rfl := Option.some.inj hobj
    rw [HistoryParent, hread, ← hlist]
    simp

/-- The id of a commit of a long chain, by its place. -/
def longId (i : ℕ) : Hash := ⟨Wire.leBytes HASH_LEN i, Wire.length_leBytes _ _⟩

theorem longId_inj {i j : ℕ} (hi : i < 2 ^ 64) (hj : j < 2 ^ 64) (h : longId i = longId j) :
    i = j := by
  have hpow : 2 ^ 64 ≤ 256 ^ HASH_LEN := by decide
  exact Wire.leBytes_inj (hi.trans_le hpow) (hj.trans_le hpow) (congrArg ByteArr.bytes h)

/-- A commit is the child of the next one, up to the root at `n`. The commit `n + 1` is another
child of the root. -/
def longCommit (n i : ℕ) : Commit :=
  ⟨ZERO, if i = n then [] else if i = n + 1 then [longId n] else [longId (i + 1)],
    ⟨.opaqueBytes, [1]⟩, ByteArr.fill 32 0, [], UInt64.ofNat i, ZERO, ZERO, ByteArr.fill 64 0⟩

/-- A digest that tells commits by their timestamp. -/
def timestampDigest (bytes : Bytes) : Hash :=
  match deserialize bytes with
  | .ok (.commit c) => longId c.timestamp.toNat
  | _ => ZERO

def longBytes (n i : ℕ) : Bytes :=
  (serialize (.commit (longCommit n i))).toOption.getD []

/-- The chain with its root at `n`, and the other child of the root. -/
def longStore (n : ℕ) (hn : n + 2 < 2 ^ 64) : ObjectStore where
  entries := (List.range (n + 2)).map fun i => ⟨longId i, ⟨some (longBytes n i), none⟩⟩
  nodupKeys := by
    rw [List.NodupKeys, List.keys, List.map_map]
    refine List.nodup_range.map_on fun i hi j hj h => ?_
    rw [List.mem_range] at hi hj
    exact longId_inj (hi.trans hn) (hj.trans hn) h

section Long

variable {n : ℕ} (hn : n + 2 < 2 ^ 64)

theorem serialize_longCommit (n i : ℕ) :
    serialize (.commit (longCommit n i)) = .ok (longBytes n i) ∧ (longBytes n i).length ≤ 512 := by
  have hser : ∀ parents : List Hash, parents.length ≤ 1 → ∀ t : UInt64, ∃ b,
      serialize (.commit ⟨ZERO, parents, ⟨.opaqueBytes, [1]⟩, ByteArr.fill 32 0, [], t, ZERO, ZERO,
        ByteArr.fill 64 0⟩) = .ok b ∧ b.length ≤ 512 := by
    intro parents hlength t
    obtain rfl | ⟨p, rfl⟩ : parents = [] ∨ ∃ p, parents = [p] := by
      rcases parents with _ | ⟨p, _ | ⟨q, l⟩⟩
      · exact .inl rfl
      · exact .inr ⟨p, rfl⟩
      · simp at hlength
    all_goals
      refine ⟨_, rfl, ?_⟩
      simp [writePrologue, writeU16Le, writeU32Le, writeU64Le, ByteArr.length_bytes, MAGIC, HASH_LEN,
        ascii]
  obtain ⟨b, hb, hlength⟩ := hser (longCommit n i).parents
    (by rw [longCommit]; dsimp only; split_ifs <;> simp) (UInt64.ofNat i)
  have hb : serialize (.commit (longCommit n i)) = .ok b := hb
  rw [longBytes, hb]
  exact ⟨rfl, hlength⟩

theorem readObject_longStore {i : ℕ} (hi : i < n + 2) :
    (longStore n hn).readObject (.ofFun timestampDigest) (longId i) =
      .ok (.commit (longCommit n i)) := by
  obtain ⟨hser, hlength⟩ := serialize_longCommit n i
  have hdec : deserialize (longBytes n i) = .ok (.commit (longCommit n i)) := by
    refine deserialize_eq_ok_iff.2 ⟨⟨?_, rfl, Nat.two_pow_pos 32⟩, hser⟩
    rw [longCommit]
    dsimp only
    split_ifs <;> simp [MAX_PARENTS]
  have hlookup : (longStore n hn).lookup (longId i) = some ⟨some (longBytes n i), none⟩ := by
    refine AList.mem_lookup_iff.2 (List.mem_map.2 ⟨i, List.mem_range.2 hi, rfl⟩)
  have htime : (UInt64.ofNat i).toNat = i :=
    UInt64.toNat_ofNat_of_lt' (hi.trans hn)
  refine (ObjectStore.readObject_eq_ok _).2 ⟨longBytes n i, ?_, ?_, hdec⟩
  · have hbound : ¬ (longBytes n i).length > MAX_RAW_OBJECT_SIZE := by
      rw [MAX_RAW_OBJECT_SIZE]
      omega
    rw [ObjectStore.readRaw, hlookup]
    dsimp only
    rw [if_neg hbound]
  · rw [objectIdFromBytes_of_deserialize hdec, Option.some.injEq]
    change timestampDigest (longBytes n i) = _
    rw [timestampDigest, hdec]
    exact congrArg longId htime

theorem commitParents_longStore {i : ℕ} (hi : i < n + 2) :
    commitParents (.ofFun timestampDigest) (longStore n hn) (longId i) =
      (longCommit n i).parents := by
  rw [commitParents, readObject_longStore hn hi]

/-- The walk down the chain is cut short before the root. -/
theorem mem_collect_longStore {x : Hash} {fuel k : ℕ} {set : Finset Hash}
    (hcap : MAX_ANCESTORS = n) (hk : k ≤ n)
    (hx : x ∈ collectAncestorSet (.ofFun timestampDigest) (longStore n hn) fuel [longId k] k set) :
    x ∈ set ∨ ∃ i < n, x = longId i := by
  induction fuel generalizing k set with
  | zero => exact .inl hx
  | succ fuel ih =>
    rw [collectAncestorSet] at hx
    split_ifs at hx with hcut hin
    · exact .inl hx
    · cases fuel <;> exact .inl hx
    · have hk_lt : k < n := hcap ▸ not_le.1 hcut
      have hparents : (longCommit n k).parents = [longId (k + 1)] := by
        rw [longCommit]
        dsimp only
        rw [if_neg hk_lt.ne, if_neg (by omega)]
      rw [commitParents_longStore hn (by omega), hparents] at hx
      rcases ih hk_lt hx with hx | hx
      · rcases Finset.mem_insert.1 hx with rfl | hx
        · exact .inr ⟨k, hk_lt, rfl⟩
        · exact .inl hx
      · exact .inr hx

/-- The root is an ancestor of the tip, yet a candidate when the tip is good. -/
theorem long_root_candidate (hcap : MAX_ANCESTORS = n) :
    DescendsFrom (.ofFun timestampDigest) (longStore n hn) (longId 0) (longId n) ∧
      longId n ∈ enumerateRange (.ofFun timestampDigest) (longStore n hn)
        (longId (n + 1)) [longId 0] := by
  have hgood : ∀ x ∈ goodSet (.ofFun timestampDigest) (longStore n hn) [longId 0],
      ∃ i < n, x = longId i := by
    intro x hx
    exact (mem_collect_longStore hn hcap (Nat.zero_le _) hx).resolve_left (Finset.notMem_empty x)
  have hnot : ∀ j, n ≤ j → j < n + 2 →
      longId j ∉ goodSet (.ofFun timestampDigest) (longStore n hn) [longId 0] := by
    intro j hle hlt hin
    obtain ⟨i, hi, heq⟩ := hgood _ hin
    have hij := longId_inj (hlt.trans hn) (by omega) heq
    omega
  constructor
  · have hreach : ∀ k ≤ n,
        DescendsFrom (.ofFun timestampDigest) (longStore n hn) (longId 0) (longId k) := by
      intro k hk
      induction k with
      | zero => exact .refl
      | succ k ih =>
        refine (ih (by omega)).tail ?_
        rw [CommitParent, commitParents_longStore hn (by omega), longCommit]
        dsimp only
        rw [if_neg (by omega), if_neg (by omega)]
        exact List.mem_singleton_self _
    exact hreach n le_rfl
  · have hstart := enumerating_start (.ofFun timestampDigest) (longStore n hn)
      (longId (n + 1)) (goodSet (.ofFun timestampDigest) (longStore n hn) [longId 0])
    obtain ⟨final, hfinal⟩ := enumerateFrom_spec hstart (potential_start _ ∅)
    have hbad := (hfinal.of_visited _ (hfinal.start.resolve_right List.not_mem_nil)).resolve_left
      (hnot _ (by omega) (by omega))
    have hedge : CommitParent (.ofFun timestampDigest) (longStore n hn) (longId (n + 1))
        (longId n) := by
      rw [CommitParent, commitParents_longStore hn (by omega), longCommit]
      dsimp only
      rw [if_neg (by omega), if_pos rfl]
      exact List.mem_singleton_self _
    have hvisited := (hfinal.closing _ hbad _ hedge).resolve_right List.not_mem_nil
    exact (hfinal.of_visited _ hvisited).resolve_left (hnot _ le_rfl (by omega))

end Long

/-- **Two ways a walk ends early.** With the first commit of `remixChain` good and all others bad,
the second one is not a candidate, and the remix is found although its parent is bad. And the root
of a chain of `MAX_ANCESTORS + 1` commits is an ancestor of its tip, yet a candidate when the tip
is good. -/
theorem bisect_walks_end_early :
    (HistoryParent toyBlake3 (bisectStore remixChain) (remixId 3) (remixId 2) ∧
      HistoryParent toyBlake3 (bisectStore remixChain) (remixId 2) (remixId 1) ∧
      HistoryParent toyBlake3 (bisectStore remixChain) (remixId 1) (remixId 0) ∧
      (∀ b, ¬ HistoryParent toyBlake3 (bisectStore remixChain) (remixId 0) b) ∧
      remixId 1 ≠ remixId 0 ∧
      enumerateRange toyBlake3 (bisectStore remixChain) (remixId 3) [remixId 0] =
        [remixId 3, remixId 2] ∧
      nextStep toyBlake3 (bisectStore remixChain) ⟨some (remixId 3), [remixId 0], ∅⟩ =
        .testing (remixId 2) 2 ∧
      nextStep toyBlake3 (bisectStore remixChain) ⟨some (remixId 2), [remixId 0], ∅⟩ =
        .found (remixId 2)) ∧
    ∃ s : ObjectStore,
      DescendsFrom (.ofFun timestampDigest) s (longId 0) (longId MAX_ANCESTORS) ∧
        longId MAX_ANCESTORS ∈ enumerateRange (.ofFun timestampDigest) s
          (longId (MAX_ANCESTORS + 1)) [longId 0] := by
  refine ⟨⟨(remix_parents 3 (by omega) _).2 (by simp), (remix_parents 2 (by omega) _).2 (by simp),
    (remix_parents 1 (by omega) _).2 (by simp), fun b hb => ?_, by decide +kernel, by decide +kernel,
    by decide +kernel, by decide +kernel⟩, longStore MAX_ANCESTORS (by decide),
    long_root_candidate _ rfl⟩
  exact List.not_mem_nil ((remix_parents 0 (by omega) b).1 hb)

end Mkit
