import Mathlib.Data.Fintype.Vector
import Mkit.Lib.BreadthFirst
import Mkit.Store

/-!
# Merge Bases

The merge base of two commits (`ops/merge.rs`). `collectAncestorsWithDepth` gives every ancestor
of the first commit its distance. `findMergeBase` then walks from the second commit, without
remembering what it has visited, and keeps the ancestor of the first that is cheapest in total
depth, until the depth exceeds the best total.

Both walks run on fuel, a bound on their rounds. `findMergeBase_lowest_cost` says that over an
acyclic history enough fuel gives an answer, and that the answer is a common ancestor with the
smallest sum of distances, the nearest to the second commit among those. An ancestor of the
second commit need not be the answer, since a shortcut can make an older commit cheaper; the
theorem says when it is.
-/

namespace Mkit

open BreadthFirst

/-! ### The walks -/

section Model

variable (read : Hash → Except StoreError Object)

/-- The parents a walk follows. What is no commit, or missing, has none. -/
def readParents (node : Hash) : Except StoreError (List Hash) :=
  match read node with
  | .ok (.commit c) => .ok c.parents
  | .ok _ => .ok []
  | .error (.objectNotFound _) => .ok []
  | .error e => .error e

/-- The walk from the first commit. The first depth of a node is kept. -/
def collectFrom : ℕ → List (Hash × ℕ) → (Hash → Option ℕ) →
    Option (Except StoreError (Hash → Option ℕ))
  | _, [], ancestors => some (.ok ancestors)
  | 0, _ :: _, _ => none
  | fuel + 1, (node, depth) :: queue, ancestors =>
    match ancestors node with
    | some _ => collectFrom fuel queue ancestors
    | none =>
      match readParents read node with
      | .error e => some (.error e)
      | .ok parents =>
        collectFrom fuel (queue ++ parents.map fun p => (p, depth + 1))
          (Function.update ancestors node (some depth))

/-- The ancestors of a commit, each with the depth it was first met at. -/
def collectAncestorsWithDepth (fuel : ℕ) (start : Hash) :
    Option (Except StoreError (Hash → Option ℕ)) :=
  collectFrom read fuel [(start, 0)] fun _ => none

/-- The walk from the second commit. -/
def searchFrom (ancestors : Hash → Option ℕ) : ℕ → List (Hash × ℕ) → Option (Hash × ℕ) →
    Option (Except StoreError (Option Hash))
  | _, [], best => some (.ok (best.map Prod.fst))
  | 0, _ :: _, _ => none
  | fuel + 1, (node, depth) :: queue, best =>
    if ∃ found ∈ best, found.2 < depth then some (.ok (best.map Prod.fst))
    else
      match readParents read node with
      | .error e => some (.error e)
      | .ok parents =>
        searchFrom ancestors fuel (queue ++ parents.map fun p => (p, depth + 1))
          (offer (ancestors node) node depth best)

/-- The lowest-cost common ancestor of two commits. -/
def findMergeBase (fuel : ℕ) (a b : Hash) : Option (Except StoreError (Option Hash)) :=
  if a = b then some (.ok (some a))
  else
    match collectAncestorsWithDepth read fuel a with
    | none => none
    | some (.error e) => some (.error e)
    | some (.ok ancestors) => searchFrom read ancestors fuel [(b, 0)] none

/-- The walk that looks for an ancestor. The stack has its top first. -/
def isAncestorFrom (ancestor : Hash) : ℕ → List Hash → Finset Hash →
    Option (Except StoreError Bool)
  | _, [], _ => some (.ok false)
  | 0, _ :: _, _ => none
  | fuel + 1, current :: stack, seen =>
    if current ∈ seen then isAncestorFrom ancestor fuel stack seen
    else if current = ancestor then some (.ok true)
    else
      match readParents read current with
      | .error e => some (.error e)
      | .ok parents =>
        isAncestorFrom ancestor fuel (parents.reverse ++ stack) (insert current seen)

/-- Whether `ancestor` is reached from `descendant` along parents. -/
def isAncestor (fuel : ℕ) (ancestor descendant : Hash) : Option (Except StoreError Bool) :=
  if ancestor = descendant then some (.ok true)
  else isAncestorFrom read ancestor fuel [descendant] ∅

end Model

/-! ### More fuel changes nothing -/

section Fuel

variable {read : Hash → Except StoreError Object}

variable {n m : ℕ} {ancestors : Hash → Option ℕ}

theorem collectFrom_mono (hnm : n ≤ m) {queue : List (Hash × ℕ)}
    {r : Except StoreError (Hash → Option ℕ)} (h : collectFrom read n queue ancestors = some r) :
    collectFrom read m queue ancestors = some r := by
  induction n generalizing m queue ancestors with
  | zero =>
    rcases queue with - | ⟨⟨node, depth⟩, queue⟩
    · rwa [collectFrom] at h ⊢
    · rw [collectFrom] at h
      exact nomatch h
  | succ n ih =>
    obtain ⟨m, rfl⟩ := Nat.exists_eq_add_one.2 (Nat.lt_of_lt_of_le n.succ_pos hnm)
    rcases queue with - | ⟨⟨node, depth⟩, queue⟩
    · rwa [collectFrom] at h ⊢
    · rw [collectFrom] at h ⊢
      rcases hseen : ancestors node with - | j <;> rw [hseen] at h
      · rcases hread : readParents read node with e | ps <;> rw [hread] at h
        · exact h
        · exact ih (Nat.le_of_succ_le_succ hnm) h
      · exact ih (Nat.le_of_succ_le_succ hnm) h

variable {r : Except StoreError (Option Hash)}

theorem searchFrom_mono (hnm : n ≤ m) {queue : List (Hash × ℕ)} {best : Option (Hash × ℕ)}
    (h : searchFrom read ancestors n queue best = some r) :
    searchFrom read ancestors m queue best = some r := by
  induction n generalizing m queue best with
  | zero =>
    rcases queue with - | ⟨⟨node, depth⟩, queue⟩
    · rwa [searchFrom] at h ⊢
    · rw [searchFrom] at h
      exact nomatch h
  | succ n ih =>
    obtain ⟨m, rfl⟩ := Nat.exists_eq_add_one.2 (Nat.lt_of_lt_of_le n.succ_pos hnm)
    rcases queue with - | ⟨⟨node, depth⟩, queue⟩
    · rwa [searchFrom] at h ⊢
    · rw [searchFrom] at h ⊢
      split at h
      · rename_i hcut
        rwa [if_pos hcut]
      · rename_i hcut
        rw [if_neg hcut]
        rcases hread : readParents read node with e | ps <;> rw [hread] at h
        · exact h
        · exact ih (Nat.le_of_succ_le_succ hnm) h

/-- An answer does not depend on how much fuel there was. -/
theorem findMergeBase_mono (hnm : n ≤ m) {a b : Hash} (h : findMergeBase read n a b = some r) :
    findMergeBase read m a b = some r := by
  rw [findMergeBase] at h ⊢
  by_cases hab : a = b
  · rwa [if_pos hab] at h ⊢
  · rw [if_neg hab] at h ⊢
    rcases hcollect : collectAncestorsWithDepth read n a with - | (e | ancestors)
    · rw [hcollect] at h
      exact nomatch h
    · rw [hcollect] at h
      rw [collectAncestorsWithDepth, collectFrom_mono hnm hcollect]
      exact h
    · rw [hcollect] at h
      rw [collectAncestorsWithDepth, collectFrom_mono hnm hcollect]
      exact searchFrom_mono hnm h

end Fuel

/-! ### The history they walk -/

section History

variable (read : Hash → Except StoreError Object)

/-- The parents of a commit. -/
def parents (h : Hash) : List Hash :=
  match read h with
  | .ok (.commit c) => c.parents
  | _ => []

/-- `b` is a parent of the commit `a`. -/
def ParentOf (a b : Hash) : Prop :=
  b ∈ parents read a

/-- `a` is `d` or is reached from it along parents. -/
def IsAncestor (a d : Hash) : Prop :=
  Relation.ReflTransGen (ParentOf read) d a

/-- What is reached from `a` either reads or is missing. -/
def HistoryReads (a : Hash) : Prop :=
  ∀ h, IsAncestor read h a → ∀ e, read h = .error e → ∃ hex, e = .objectNotFound hex

/-- `c` is a common ancestor of `a` and `b` with the smallest sum of the distances from both,
and of those the nearest to `b`. -/
def LowestCost (a b c : Hash) : Prop :=
  ∃ i j, IsDist (parents read) a c i ∧ IsDist (parents read) b c j ∧
    ∀ c' i' j', IsDist (parents read) a c' i' → IsDist (parents read) b c' j' →
      i + j < i' + j' ∨ i + j = i' + j' ∧ j ≤ j'

end History

section Meaning

variable {read : Hash → Except StoreError Object}

variable {a : Hash}

theorem isAncestor_iff_steps {d : Hash} : IsAncestor read a d ↔ ∃ n, Steps (parents read) d n a :=
  reaches_iff_steps

/-- A walk follows the parents of what reads or is missing. -/
theorem readParents_eq {h : Hash} (hreads : HistoryReads read a) (hh : IsAncestor read h a) :
    readParents read h = .ok (parents read h) := by
  have hmissing := hreads h hh
  rw [readParents, parents]
  rcases hread : read h with e | obj
  · obtain ⟨hex, rfl⟩ := hmissing e hread
    rfl
  · cases obj <;> rfl

theorem eq_parents_of_readParents {h : Hash} {ps : List Hash} (hread : readParents read h = .ok ps) :
    ps = parents read h := by
  rw [readParents] at hread
  rw [parents]
  rcases hobj : read h with e | obj
  · rw [hobj] at hread
    cases e <;> first | exact (Except.ok.inj hread).symm | exact nomatch hread
  · rw [hobj] at hread
    cases obj <;> exact (Except.ok.inj hread).symm

/-- There are finitely many ids, so every history is finite. -/
instance (n : ℕ) : Finite (ByteArr n) := by
  have : Finite UInt8 := Finite.of_injective UInt8.toFin fun _ _ => UInt8.toFin_inj.1
  have := Fintype.ofFinite UInt8
  let toVector (a : ByteArr n) : List.Vector UInt8 n := ⟨a.bytes, a.length_bytes⟩
  exact Finite.of_injective toVector fun _ _ h => ByteArr.ext (congrArg Subtype.val h)

/-! ### The ancestors of the first commit -/

/-- A walk on the way labels every ancestor with its distance, given a round for all it can
still take. -/
theorem collectFrom_eq [Fintype Hash] {start : Hash} (hreads : HistoryReads read start)
    {fuel : ℕ} {queue : List (Hash × ℕ)} {ancestors : Hash → Option ℕ}
    (h : Labelled (parents read) start queue ancestors)
    (hfuel : rounds (parents read) queue ancestors ≤ fuel) :
    collectFrom read fuel queue ancestors = some (.ok (dist (parents read) start)) := by
  induction fuel generalizing queue ancestors with
  | zero =>
    rcases queue with - | ⟨⟨node, depth⟩, queue⟩
    · rw [collectFrom, h.eq_dist]
    · rw [rounds_skip] at hfuel
      omega
  | succ fuel ih =>
    rcases queue with - | ⟨⟨node, depth⟩, queue⟩
    · rw [collectFrom, h.eq_dist]
    · rw [collectFrom]
      rcases hseen : ancestors node with - | j
      · have hnode : IsAncestor read node start :=
          isAncestor_iff_steps.2 ⟨depth, h.onPaths (node, depth) (.head _)⟩
        rw [readParents_eq hreads hnode]
        refine ih (h.visit hseen) (Nat.le_of_succ_le_succ ?_)
        exact (rounds_visit hseen depth queue).trans_le hfuel
      · refine ih (h.skip hseen) ?_
        rw [rounds_skip] at hfuel
        omega

/-- **The ancestors have their distances.** -/
theorem collectAncestorsWithDepth_eq {start : Hash} (hreads : HistoryReads read start) :
    ∃ n, ∀ fuel, n ≤ fuel →
      collectAncestorsWithDepth read fuel start = some (.ok (dist (parents read) start)) := by
  have := Fintype.ofFinite Hash
  exact ⟨_, fun fuel hfuel => collectFrom_eq hreads (labelled_start start) hfuel⟩

/-! ### The search from the second commit -/

/-- A search on the way finds the best candidate, given a round for every path below what
waits. -/
theorem searchFrom_eq {start : Hash} {score : Hash → Option ℕ}
    (hreads : HistoryReads read start) {size : Hash → ℕ}
    (hsize : ∀ a, size a = 1 + ((parents read a).map size).sum) {n : ℕ}
    {queue : List (Hash × ℕ)} {best : Option (Hash × ℕ)}
    (h : Searched (parents read) start score queue best)
    (hn : (queue.map fun x => size x.1).sum ≤ n) :
    ∃ found, BestOf (parents read) start score [] found ∧ ∀ fuel, n ≤ fuel →
      searchFrom read score fuel queue best = some (.ok (found.map Prod.fst)) := by
  induction n generalizing queue best with
  | zero =>
    rcases queue with - | ⟨⟨node, depth⟩, queue⟩
    · exact ⟨best, h.bestOf, fun fuel _ => by rw [searchFrom]⟩
    · rw [unfolding_take hsize] at hn
      omega
  | succ n ih =>
    rcases queue with - | ⟨⟨node, depth⟩, queue⟩
    · exact ⟨best, h.bestOf, fun fuel _ => by rw [searchFrom]⟩
    · by_cases hcut : ∃ found ∈ best, found.2 < depth
      · obtain ⟨⟨c, t⟩, hbest, hlt⟩ := hcut
        refine ⟨best, h.bestOf_nil (.inr ⟨c, t, hbest, node, depth, queue, rfl, hlt⟩),
          fun fuel hfuel => ?_⟩
        obtain ⟨fuel, rfl⟩ := Nat.exists_eq_add_one.2 (Nat.lt_of_lt_of_le n.succ_pos hfuel)
        rw [searchFrom, if_pos ⟨(c, t), hbest, hlt⟩]
      · rw [unfolding_take hsize] at hn
        obtain ⟨found, hfound, hall⟩ := ih h.take (by omega)
        refine ⟨found, hfound, fun fuel hfuel => ?_⟩
        obtain ⟨fuel, rfl⟩ := Nat.exists_eq_add_one.2 (Nat.lt_of_lt_of_le n.succ_pos hfuel)
        have hnode : IsAncestor read node start :=
          isAncestor_iff_steps.2 ⟨depth, h.onPaths (node, depth) (.head _)⟩
        rw [searchFrom, if_neg hcut, readParents_eq hreads hnode]
        exact hall fuel (by omega)

/-! ### What the answer is -/

/-- An acyclic history has no infinite line of parents. -/
theorem wellFounded_of_acyclic (h : ∀ a, ¬ Relation.TransGen (ParentOf read) a a) :
    WellFounded fun b a => b ∈ parents read a := by
  let below (b a : Hash) : Prop := Relation.TransGen (ParentOf read) a b
  have : IsTrans Hash below := ⟨fun _ _ _ hba hcb => hcb.trans hba⟩
  have : Std.Irrefl below := ⟨h⟩
  exact Subrelation.wf (fun hb => .single hb) (Finite.wellFounded_of_trans_of_irrefl below)

variable {b c : Hash}

/-- The common ancestors are the candidates of the search. -/
theorem commonAncestor_iff : IsAncestor read c a ∧ IsAncestor read c b ↔
      ∃ m t, Candidate (parents read) b (dist (parents read) a) c m t := by
  rw [isAncestor_iff_steps, isAncestor_iff_steps]
  constructor
  · rintro ⟨⟨n, hn⟩, m, hm⟩
    obtain ⟨s, -, hs⟩ := hn.exists_isDist
    exact ⟨m, s + m, hm, s, dist_eq_some.2 hs, rfl⟩
  · rintro ⟨m, t, hm, s, hs, -⟩
    exact ⟨⟨s, (dist_eq_some.1 hs).1⟩, m, hm⟩

/-- The best candidate has the lowest cost. -/
theorem lowestCost_of_bestOf {t : ℕ}
    (h : BestOf (parents read) b (dist (parents read) a) [] (some (c, t))) :
    LowestCost read a b c := by
  obtain ⟨d, ⟨hd, s, hs, rfl⟩, -, hall⟩ := h
  have hbest : ∀ v m t, Candidate (parents read) b (dist (parents read) a) v m t →
      NoBetter (s + d) d t m :=
    fun v m t hcand => (hall v m t hcand).resolve_right not_continues_nil
  refine ⟨s, d, dist_eq_some.1 hs, ⟨hd, fun m hm => ?_⟩, fun c' i' j' hi' hj' => ?_⟩
  · have hno := hbest c m (s + m) ⟨hm, s, hs, rfl⟩
    rw [NoBetter] at hno
    omega
  · exact hbest c' j' (i' + j') ⟨hj'.1, i', dist_eq_some.2 hi', rfl⟩

/-- A commit is its own nearest common ancestor with itself. -/
theorem lowestCost_self (a : Hash) : LowestCost read a a a :=
  ⟨0, 0, isDist_self a, isDist_self a, fun _ _ _ _ _ => by omega⟩

/-- An ancestor of the second commit has the lowest cost unless another common ancestor costs no
more than the way to it. -/
theorem LowestCost.eq_ancestor_iff {n : ℕ} (h : LowestCost read a b c)
    (ha : IsDist (parents read) b a n) :
    c = a ↔ ∀ c' i j, c' ≠ a → IsDist (parents read) a c' i → IsDist (parents read) b c' j →
      n < i + j := by
  obtain ⟨i, j, hi, hj, hmin⟩ := h
  constructor
  · rintro rfl c' i' j' hne hi' hj'
    obtain rfl : i = 0 := hi.unique (isDist_self c)
    obtain rfl : j = n := hj.unique ha
    have hpos : 0 < i' := hi'.pos hne
    have hle := hmin c' i' j' hi' hj'
    omega
  · intro hall
    by_contra hne
    have hlt := hall c i j hne hi hj
    have hle := hmin a 0 n (isDist_self a) ha
    omega

/-- What the answer says: there is no common ancestor, or it is one with the lowest cost. -/
def IsMergeBase (read : Hash → Except StoreError Object) (a b : Hash) : Option Hash → Prop
  | none => ¬ ∃ c, IsAncestor read c a ∧ IsAncestor read c b
  | some c => LowestCost read a b c

theorem LowestCost.common (h : LowestCost read a b c) :
    IsAncestor read c a ∧ IsAncestor read c b := by
  obtain ⟨i, j, hi, hj, -⟩ := h
  exact ⟨isAncestor_iff_steps.2 ⟨i, hi.1⟩, isAncestor_iff_steps.2 ⟨j, hj.1⟩⟩

theorem isMergeBase_of_bestOf {found : Option (Hash × ℕ)}
    (h : BestOf (parents read) b (dist (parents read) a) [] found) :
    IsMergeBase read a b (found.map Prod.fst) := by
  rcases found with - | ⟨c, t⟩
  · rintro ⟨c, hc⟩
    obtain ⟨m, t, hcand⟩ := commonAncestor_iff.1 hc
    exact not_continues_nil (h c m t hcand)
  · exact lowestCost_of_bestOf h

/-- Enough fuel gives an answer, and the answer is right. -/
theorem findMergeBase_isMergeBase (hacyclic : ∀ h, ¬ Relation.TransGen (ParentOf read) h h)
    (ha : HistoryReads read a) (hb : HistoryReads read b) :
    ∃ enough r, (∀ fuel, enough ≤ fuel → findMergeBase read fuel a b = some (.ok r)) ∧
      IsMergeBase read a b r := by
  by_cases hab : a = b
  · subst hab
    exact ⟨0, some a, fun fuel _ => by rw [findMergeBase, if_pos rfl], lowestCost_self a⟩
  · obtain ⟨size, hsize⟩ := exists_unfolding (wellFounded_of_acyclic hacyclic)
    obtain ⟨n₁, hcollect⟩ := collectAncestorsWithDepth_eq ha
    obtain ⟨n₂, hn₂⟩ : ∃ n, n = ([(b, 0)].map fun x => size x.1).sum := ⟨_, rfl⟩
    obtain ⟨found, hbest, hsearch⟩ :=
      searchFrom_eq hb hsize (searched_start b (dist (parents read) a)) hn₂.ge
    refine ⟨max n₁ n₂, found.map Prod.fst, fun fuel hfuel => ?_, isMergeBase_of_bestOf hbest⟩
    rw [findMergeBase, if_neg hab, hcollect fuel (le_of_max_le_left hfuel)]
    exact hsearch fuel (le_of_max_le_right hfuel)

/-- **The merge base is a lowest-cost common ancestor.** Over an acyclic history that reads,
enough fuel gives an answer: none when the commits have no common ancestor, and else a common
ancestor with the smallest sum of distances, the nearest to the second commit. When the first
commit is an ancestor of the second, it is the answer unless another common ancestor costs no
more. -/
theorem findMergeBase_lowest_cost (read : Hash → Except StoreError Object)
    (hacyclic : ∀ h, ¬ Relation.TransGen (ParentOf read) h h) (a b : Hash)
    (ha : HistoryReads read a) (hb : HistoryReads read b) :
    ∃ enough r, (∀ fuel, enough ≤ fuel → findMergeBase read fuel a b = some (.ok r)) ∧
      (r = none ↔ ¬ ∃ c, IsAncestor read c a ∧ IsAncestor read c b) ∧
      (∀ c, r = some c → LowestCost read a b c) ∧
      ∀ n, IsDist (parents read) b a n → (r = some a ↔ ∀ c i j, c ≠ a →
        IsDist (parents read) a c i → IsDist (parents read) b c j → n < i + j) := by
  obtain ⟨enough, r, hrun, hbase⟩ := findMergeBase_isMergeBase hacyclic ha hb
  refine ⟨enough, r, hrun, ?_⟩
  rcases r with - | c
  · refine ⟨iff_of_true rfl hbase, fun c hc => (nomatch hc), fun n hn => ?_⟩
    exact absurd ⟨a, .refl, isAncestor_iff_steps.2 ⟨n, hn.1⟩⟩ hbase
  · have hlow : LowestCost read a b c := hbase
    refine ⟨iff_of_false (fun h => nomatch h) fun h => h ⟨c, hlow.common⟩, fun c' hc' => ?_,
      fun n hn => ?_⟩
    · obtain rfl := Option.some.inj hc'
      exact hlow
    · rw [Option.some.injEq, hlow.eq_ancestor_iff hn]

/-! ### Looking for an ancestor -/

/-- Where a walk stands that looks for an ancestor. -/
structure Looking (read : Hash → Except StoreError Object) (ancestor descendant : Hash)
    (stack : List Hash) (seen : Finset Hash) : Prop where
  start : descendant ∈ seen ∨ descendant ∈ stack
  reached : ∀ h ∈ stack, IsAncestor read h descendant
  closing : ∀ a ∈ seen, ∀ b ∈ parents read a, b ∈ seen ∨ b ∈ stack
  unmet : ancestor ∉ seen

section Looking

variable {ancestor descendant current : Hash} {stack : List Hash} {seen : Finset Hash}

/-- What is seen already is passed over. -/
theorem Looking.skip (h : Looking read ancestor descendant (current :: stack) seen)
    (hseen : current ∈ seen) : Looking read ancestor descendant stack seen := by
  have hmem : ∀ {b}, b ∈ seen ∨ b ∈ current :: stack → b ∈ seen ∨ b ∈ stack := by
    rintro b (hb | hb)
    · exact .inl hb
    · rcases List.mem_cons.1 hb with rfl | hb
      · exact .inl hseen
      · exact .inr hb
  exact ⟨hmem h.start, fun b hb => h.reached b (.tail _ hb),
    fun a ha b hb => hmem (h.closing a ha b hb), h.unmet⟩

/-- What is new and not the ancestor is seen from now on, and its parents wait. -/
theorem Looking.visit (h : Looking read ancestor descendant (current :: stack) seen)
    (hne : current ≠ ancestor) :
    Looking read ancestor descendant ((parents read current).reverse ++ stack)
      (insert current seen) := by
  have hmem : ∀ {b}, b ∈ seen ∨ b ∈ current :: stack →
      b ∈ insert current seen ∨ b ∈ (parents read current).reverse ++ stack := by
    rintro b (hb | hb)
    · exact .inl (Finset.mem_insert_of_mem hb)
    · rcases List.mem_cons.1 hb with rfl | hb
      · exact .inl (Finset.mem_insert_self _ _)
      · exact .inr (List.mem_append_right _ hb)
  refine ⟨hmem h.start, fun b hb => ?_, fun a ha b hb => ?_, fun hmeets => ?_⟩
  · rcases List.mem_append.1 hb with hb | hb
    · exact (h.reached current (.head _)).tail (List.mem_reverse.1 hb)
    · exact h.reached b (.tail _ hb)
  · rcases Finset.mem_insert.1 ha with rfl | ha
    · exact .inr (List.mem_append_left _ (List.mem_reverse.2 hb))
    · exact hmem (h.closing a ha b hb)
  · rcases Finset.mem_insert.1 hmeets with rfl | hmeets
    · exact hne rfl
    · exact h.unmet hmeets

/-- A walk that runs out of commits has seen every ancestor. -/
theorem Looking.not_isAncestor (h : Looking read ancestor descendant [] seen) :
    ¬ IsAncestor read ancestor descendant := by
  intro hreach
  have hclosed : ∀ a b, a ∈ seen → b ∈ parents read a → b ∈ seen := fun a b ha hb =>
    (h.closing a ha b hb).resolve_right List.not_mem_nil
  exact h.unmet (Worklist.mem_of_reaches hclosed hreach (h.start.resolve_right List.not_mem_nil))

theorem isAncestorFrom_eq_ok {fuel : ℕ} (h : Looking read ancestor descendant stack seen)
    {found : Bool} (hrun : isAncestorFrom read ancestor fuel stack seen = some (.ok found)) :
    found = true ↔ IsAncestor read ancestor descendant := by
  induction fuel generalizing stack seen with
  | zero =>
    rcases stack with - | ⟨current, stack⟩
    · obtain rfl := Except.ok.inj (Option.some.inj hrun)
      exact iff_of_false Bool.false_ne_true h.not_isAncestor
    · exact nomatch hrun
  | succ fuel ih =>
    rcases stack with - | ⟨current, stack⟩
    · obtain rfl := Except.ok.inj (Option.some.inj hrun)
      exact iff_of_false Bool.false_ne_true h.not_isAncestor
    · rw [isAncestorFrom] at hrun
      by_cases hseen : current ∈ seen
      · rw [if_pos hseen] at hrun
        exact ih (h.skip hseen) hrun
      · rw [if_neg hseen] at hrun
        by_cases heq : current = ancestor
        · rw [if_pos heq] at hrun
          obtain rfl := Except.ok.inj (Option.some.inj hrun)
          exact iff_of_true rfl (heq ▸ h.reached current (.head _))
        · rw [if_neg heq] at hrun
          rcases hread : readParents read current with e | ps
          · rw [hread] at hrun
            exact nomatch hrun
          · rw [hread] at hrun
            obtain rfl := eq_parents_of_readParents hread
            exact ih (h.visit heq) hrun

/-- A walk fails only where the history does not read. -/
theorem isAncestorFrom_ne_error (hreads : HistoryReads read descendant) {fuel : ℕ}
    (h : Looking read ancestor descendant stack seen) (e : StoreError) :
    isAncestorFrom read ancestor fuel stack seen ≠ some (.error e) := by
  induction fuel generalizing stack seen with
  | zero => rcases stack with - | ⟨current, stack⟩ <;> exact fun hrun => nomatch hrun
  | succ fuel ih =>
    rcases stack with - | ⟨current, stack⟩
    · exact fun hrun => nomatch hrun
    · rw [isAncestorFrom]
      by_cases hseen : current ∈ seen
      · rw [if_pos hseen]
        exact ih (h.skip hseen)
      · rw [if_neg hseen]
        by_cases heq : current = ancestor
        · rw [if_pos heq]
          exact fun hrun => nomatch hrun
        · rw [if_neg heq, readParents_eq hreads (h.reached current (.head _))]
          exact ih (h.visit heq)

end Looking

variable {ancestor : Hash}

/-- A walk ends, given a round for everything it can still take. -/
theorem isSome_isAncestorFrom {nodes : Finset Hash}
    (hnodes : ∀ a, a ∉ nodes → parents read a = []) {fuel : ℕ} {stack : List Hash}
    {seen : Finset Hash} (hfuel : Worklist.potential (parents read) nodes seen stack ≤ fuel) :
    (isAncestorFrom read ancestor fuel stack seen).isSome := by
  induction fuel generalizing stack seen with
  | zero =>
    rcases stack with - | ⟨current, stack⟩
    · rfl
    · rw [Worklist.potential_cons] at hfuel
      omega
  | succ fuel ih =>
    rcases stack with - | ⟨current, stack⟩
    · rfl
    · rw [isAncestorFrom]
      by_cases hseen : current ∈ seen
      · rw [if_pos hseen]
        rw [Worklist.potential_cons] at hfuel
        exact ih (by omega)
      · rw [if_neg hseen]
        by_cases heq : current = ancestor
        · rw [if_pos heq]
          rfl
        · rw [if_neg heq]
          rcases hread : readParents read current with e | ps
          · rfl
          · obtain rfl := eq_parents_of_readParents hread
            refine ih (Nat.le_of_succ_le_succ ?_)
            have hlength : ((parents read current).reverse ++ stack).length =
                stack.length + (parents read current).length := by
              rw [List.length_append, List.length_reverse, Nat.add_comm]
            exact (Worklist.potential_visit hnodes hseen hlength).trans_le hfuel

theorem looking_start {descendant : Hash} : Looking read ancestor descendant [descendant] ∅ := by
  refine ⟨.inr (.head _), fun h hh => ?_, fun a ha => absurd ha (Finset.notMem_empty a),
    Finset.notMem_empty _⟩
  rw [List.mem_singleton.1 hh]
  exact .refl

/-- An answer of the ancestry test is right, whatever the history. -/
theorem isAncestor_eq_ok {descendant : Hash} {fuel : ℕ} {found : Bool}
    (hrun : isAncestor read fuel ancestor descendant = some (.ok found)) :
    found = true ↔ IsAncestor read ancestor descendant := by
  rw [isAncestor] at hrun
  by_cases heq : ancestor = descendant
  · rw [if_pos heq] at hrun
    obtain rfl := Except.ok.inj (Option.some.inj hrun)
    exact iff_of_true rfl (heq ▸ .refl)
  · rw [if_neg heq] at hrun
    exact isAncestorFrom_eq_ok looking_start hrun

theorem isAncestor_ne_error {descendant : Hash} (hreads : HistoryReads read descendant)
    (fuel : ℕ) (e : StoreError) : isAncestor read fuel ancestor descendant ≠ some (.error e) := by
  rw [isAncestor]
  split
  · exact fun hrun => nomatch hrun
  · exact isAncestorFrom_ne_error hreads looking_start e

theorem isSome_isAncestor {descendant : Hash} {nodes : Finset Hash}
    (hnodes : ∀ a, a ∉ nodes → parents read a = []) {fuel : ℕ}
    (hfuel : Worklist.potential (parents read) nodes ∅ [descendant] ≤ fuel) :
    (isAncestor read fuel ancestor descendant).isSome := by
  rw [isAncestor]
  split
  · rfl
  · exact isSome_isAncestorFrom hnodes hfuel

/-- The ancestry test is exact over every history that reads, acyclic or not. -/
theorem isAncestor_spec {descendant : Hash} (hreads : HistoryReads read descendant)
    (ancestor : Hash) : ∃ enough, ∀ fuel, enough ≤ fuel → ∃ found,
      isAncestor read fuel ancestor descendant = some (.ok found) ∧
        (found = true ↔ IsAncestor read ancestor descendant) := by
  have := Fintype.ofFinite Hash
  refine ⟨Worklist.potential (parents read) Finset.univ ∅ [descendant], fun fuel hfuel => ?_⟩
  have hsome : (isAncestor read fuel ancestor descendant).isSome :=
    isSome_isAncestor (fun a ha => absurd (Finset.mem_univ a) ha) hfuel
  obtain ⟨r, hr⟩ := Option.isSome_iff_exists.1 hsome
  cases r with
  | error e => exact absurd hr (isAncestor_ne_error hreads fuel e)
  | ok found => exact ⟨found, hr, isAncestor_eq_ok hr⟩

end Meaning

/-! ### A shortcut -/

/-- A history that numbers its commits so that parents come first is acyclic. -/
theorem acyclic_of_parents_lt {read : Hash → Except StoreError Object} (rank : Hash → ℕ)
    (h : ∀ a b, ParentOf read a b → rank b < rank a) (x : Hash) :
    ¬ Relation.TransGen (ParentOf read) x x := by
  have hlt : ∀ a b, Relation.TransGen (ParentOf read) a b → rank b < rank a := by
    intro a b hab
    induction hab with
    | single hab => exact h _ _ hab
    | tail _ hbc ih => exact (h _ _ hbc).trans ih
  exact fun hx => lt_irrefl _ (hlt x x hx)

/-- The file of a commit with some parents. -/
def commitFile (parents : List Hash) (timestamp : UInt64) : Hash × Bytes :=
  let bytes := (serialize (.commit ⟨ZERO, parents, ⟨.opaqueBytes, [1]⟩, ByteArr.fill 32 0, [],
    timestamp, ZERO, ZERO, ByteArr.fill 64 0⟩)).toOption.getD []
  ((objectIdFromBytes toyBlake3 bytes).getD ZERO, bytes)

/-- Four commits in a line and a fifth, whose parents are the last of them and the first. -/
def shortcutFiles : List (Hash × Bytes) :=
  let first := commitFile [] 0
  let second := commitFile [first.1] 1
  let third := commitFile [second.1] 2
  let fourth := commitFile [third.1] 3
  [first, second, third, fourth, commitFile [fourth.1, first.1] 4]

/-- A commit of the history, by its place. -/
def shortcutId (i : ℕ) : Hash := (shortcutFiles.map Prod.fst).getD i ZERO

/-- The store of the history. -/
def shortcutStore : ObjectStore :=
  shortcutFiles.foldl (fun s f => s.insert f.1 ⟨some f.2, none⟩) ∅

def shortcutRead : Hash → Except StoreError Object :=
  shortcutStore.readObject toyBlake3

/-- When a commit was made. -/
def madeAt (h : Hash) : ℕ :=
  match shortcutRead h with
  | .ok (.commit c) => c.timestamp.toNat
  | _ => 0

theorem shortcut_reads : ∀ h ∈ shortcutStore.keys, (shortcutRead h).toOption.isSome ∧
    ∀ p ∈ parents shortcutRead h, madeAt p < madeAt h := by
  decide +kernel

theorem shortcut_base : findMergeBase shortcutRead 5 (shortcutId 1) (shortcutId 4) =
    some (.ok (some (shortcutId 0))) := by
  decide +kernel

theorem shortcut_missing {h : Hash} (hh : h ∉ shortcutStore.keys) :
    shortcutRead h = .error (.objectNotFound (toHex h)) := by
  have hlookup : shortcutStore.lookup h = none := AList.lookup_eq_none.2 (mt AList.mem_keys.1 hh)
  rw [shortcutRead, ObjectStore.readObject, ObjectStore.readRaw, hlookup]
  rfl

theorem shortcut_acyclic (h : Hash) : ¬ Relation.TransGen (ParentOf shortcutRead) h h := by
  refine acyclic_of_parents_lt madeAt (fun a b hab => ?_) h
  by_cases ha : a ∈ shortcutStore.keys
  · exact (shortcut_reads a ha).2 b hab
  · rw [ParentOf, parents, shortcut_missing ha] at hab
    exact absurd hab List.not_mem_nil

theorem shortcut_historyReads (a : Hash) : HistoryReads shortcutRead a := by
  intro h _ e he
  by_cases hh : h ∈ shortcutStore.keys
  · have hsome := (shortcut_reads h hh).1
    rw [he] at hsome
    exact nomatch hsome
  · rw [shortcut_missing hh, Except.error.injEq] at he
    exact ⟨_, he.symm⟩

theorem shortcut_parents : ∀ i < 4, ParentOf shortcutRead (shortcutId (i + 1)) (shortcutId i) := by
  unfold ParentOf
  decide +kernel

theorem shortcut_isAncestor : IsAncestor shortcutRead (shortcutId 1) (shortcutId 4) :=
  .tail (.tail (.tail .refl (shortcut_parents 3 (by omega))) (shortcut_parents 2 (by omega)))
    (shortcut_parents 1 (by omega))

/-- The second commit is an ancestor of the fifth, and the first one is the merge base: by the
shortcut it is two steps from the one and the other together, where the second is three from the
fifth. -/
theorem findMergeBase_shortcut : ¬ ∀ read : Hash → Except StoreError Object,
      (∀ h, ¬ Relation.TransGen (ParentOf read) h h) → ∀ a b, HistoryReads read a →
        HistoryReads read b → IsAncestor read a b → ∃ enough, ∀ fuel, enough ≤ fuel →
          findMergeBase read fuel a b = some (.ok (some a)) := by
  intro hall
  obtain ⟨enough, hrun⟩ := hall shortcutRead shortcut_acyclic (shortcutId 1) (shortcutId 4)
    (shortcut_historyReads _) (shortcut_historyReads _) shortcut_isAncestor
  have hbase := findMergeBase_mono (le_max_right enough 5) shortcut_base
  rw [hrun _ (le_max_left _ _), Option.some.injEq, Except.ok.injEq, Option.some.injEq] at hbase
  have hne : shortcutId 1 ≠ shortcutId 0 := by decide +kernel
  exact hne hbase

/-- The first commit of the history has the lowest cost. -/
theorem findMergeBase_lowest_cost_shortcut :
    LowestCost shortcutRead (shortcutId 1) (shortcutId 4) (shortcutId 0) := by
  obtain ⟨enough, r, hrun, -, hlow, -⟩ := findMergeBase_lowest_cost shortcutRead shortcut_acyclic
    (shortcutId 1) (shortcutId 4) (shortcut_historyReads _) (shortcut_historyReads _)
  have hbase := findMergeBase_mono (le_max_right enough 5) shortcut_base
  rw [hrun _ (le_max_left _ _), Option.some.injEq, Except.ok.injEq] at hbase
  exact hlow _ hbase

end Mkit
