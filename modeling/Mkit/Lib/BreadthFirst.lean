import Mathlib.Algebra.Order.Ring.Nat
import Mkit.Lib.Worklist

/-!
# Distances and Breadth-First Walks

A graph is given by the successors of each node. `Steps` counts the steps of a path and `dist`
is the length of a shortest one. A breadth-first walk keeps a queue of nodes with the depths
they were met at; the queue is `Levelled`, in order of depth and never more than one level wide.

Two walks are treated, each by the invariant of one round. `Labelled` belongs to the walk that
gives a node its depth when it first takes it: the labels are distances. `Searched` belongs to a
walk without labels, which meets a node once for every path and keeps the node where depth and
score are cheapest together: what it keeps is cheapest among all paths, also when it stops at the
first depth that exceeds the best total.
-/

namespace BreadthFirst

variable {α : Type} {next : α → List α}

/-! ### Paths and distances -/

/-- A path of so many steps. -/
inductive Steps (next : α → List α) (a : α) : ℕ → α → Prop
  | refl : Steps next a 0 a
  | tail {n : ℕ} {b c : α} : Steps next a n b → c ∈ next b → Steps next a (n + 1) c

variable {a : α} {n : ℕ}

/-- A path is empty or begins with a step. -/
theorem Steps.cases_head {c : α} (h : Steps next a n c) :
    n = 0 ∧ c = a ∨ ∃ m b, n = m + 1 ∧ b ∈ next a ∧ Steps next b m c := by
  induction h with
  | refl => exact .inl ⟨rfl, rfl⟩
  | tail _ hc ih =>
    rcases ih with ⟨rfl, rfl⟩ | ⟨m, b, rfl, hb, hsteps⟩
    · exact .inr ⟨0, _, rfl, hc, .refl⟩
    · exact .inr ⟨m + 1, b, rfl, hb, hsteps.tail hc⟩

variable {b : α}

theorem reaches_iff_steps :
    Relation.ReflTransGen (fun a b => b ∈ next a) a b ↔ ∃ n, Steps next a n b := by
  constructor
  · intro h
    induction h with
    | refl => exact ⟨0, .refl⟩
    | tail _ hc ih =>
      obtain ⟨n, hsteps⟩ := ih
      exact ⟨n + 1, hsteps.tail hc⟩
  · rintro ⟨n, h⟩
    induction h with
    | refl => exact .refl
    | tail _ hc ih => exact ih.tail hc

/-- The length of a shortest path. -/
def IsDist (next : α → List α) (a b : α) (n : ℕ) : Prop :=
  Steps next a n b ∧ ∀ m, Steps next a m b → n ≤ m

variable {m : ℕ}

theorem IsDist.unique (hm : IsDist next a b m) (hn : IsDist next a b n) : m = n :=
  le_antisymm (hm.2 n hn.1) (hn.2 m hm.1)

theorem isDist_self (a : α) : IsDist next a a 0 :=
  ⟨.refl, fun _ _ => Nat.zero_le _⟩

/-- What is reached has a distance. -/
theorem Steps.exists_isDist (h : Steps next a n b) : ∃ k ≤ n, IsDist next a b k := by
  classical
  have hex : ∃ n, Steps next a n b := ⟨n, h⟩
  exact ⟨Nat.find hex, Nat.find_min' hex h, Nat.find_spec hex, fun m hm => Nat.find_min' hex hm⟩

/-- Another node is at a positive distance. -/
theorem IsDist.pos (h : IsDist next a b n) (hne : b ≠ a) : 0 < n := by
  rcases h.1.cases_head with ⟨-, hba⟩ | ⟨m, b, rfl, -, -⟩
  · exact absurd hba hne
  · exact Nat.succ_pos m

open Classical in
/-- The distance from one node to another, if there is a path. -/
noncomputable def dist (next : α → List α) (a b : α) : Option ℕ :=
  if h : ∃ n, IsDist next a b n then some h.choose else none

theorem dist_eq_some : dist next a b = some n ↔ IsDist next a b n := by
  rw [dist]
  by_cases h : ∃ n, IsDist next a b n
  · rw [dif_pos h, Option.some.injEq]
    constructor
    · rintro rfl
      exact h.choose_spec
    · exact fun hn => h.choose_spec.unique hn
  · rw [dif_neg h]
    exact ⟨fun hn => (nomatch hn), fun hn => absurd ⟨n, hn⟩ h⟩

/-! ### Queues -/

/-- The nodes wait in order of depth, and no two of them are more than one level apart. -/
def Levelled (queue : List (α × ℕ)) : Prop :=
  queue.Pairwise (fun x y => x.2 ≤ y.2) ∧ ∀ x ∈ queue, ∀ y ∈ queue, y.2 ≤ x.2 + 1

theorem levelled_single (x : α × ℕ) : Levelled [x] := by
  refine ⟨List.pairwise_singleton _ _, fun y hy z hz => ?_⟩
  rw [List.mem_singleton.1 hy, List.mem_singleton.1 hz]
  exact Nat.le_succ _

theorem Levelled.tail {x : α × ℕ} {queue : List (α × ℕ)} (h : Levelled (x :: queue)) :
    Levelled queue :=
  ⟨h.1.tail, fun y hy z hz => h.2 y (.tail _ hy) z (.tail _ hz)⟩

variable {k : ℕ}

/-- The node at the head is the least deep. -/
theorem Levelled.head_le {queue : List (α × ℕ)} (h : Levelled ((a, k) :: queue)) :
    ∀ x ∈ (a, k) :: queue, k ≤ x.2 := by
  intro x hx
  rcases List.mem_cons.1 hx with rfl | hx
  · exact le_rfl
  · exact (List.pairwise_cons.1 h.1).1 x hx

/-- Nodes one level below the head go to the end. -/
theorem Levelled.queue {queue : List (α × ℕ)} (h : Levelled ((a, k) :: queue))
    (nodes : List α) : Levelled (queue ++ nodes.map fun b => (b, k + 1)) := by
  have hnew : ∀ x ∈ nodes.map fun b => (b, k + 1), x.2 = k + 1 := by
    intro x hx
    obtain ⟨b, -, rfl⟩ := List.mem_map.1 hx
    rfl
  have hlow : ∀ x ∈ queue, k ≤ x.2 := fun x hx => h.head_le x (.tail _ hx)
  have hhigh : ∀ x ∈ queue, x.2 ≤ k + 1 := fun x hx => h.2 (a, k) (.head _) x (.tail _ hx)
  refine ⟨List.pairwise_append.2 ⟨h.1.tail, ?_, fun x hx y hy => ?_⟩, fun x hx y hy => ?_⟩
  · exact List.pairwise_of_forall_mem_list fun x hx y hy => ((hnew x hx).trans (hnew y hy).symm).le
  · rw [hnew y hy]
    exact hhigh x hx
  · have hx' : k ≤ x.2 := by
      rcases List.mem_append.1 hx with hx | hx
      · exact hlow x hx
      · rw [hnew x hx]
        exact Nat.le_succ k
    have hy' : y.2 ≤ k + 1 := by
      rcases List.mem_append.1 hy with hy | hy
      · exact hhigh y hy
      · exact (hnew y hy).le
    omega

/-- Some waiting node leads to `v` in at most `m` steps, its depth included. -/
def Continues (next : α → List α) (queue : List (α × ℕ)) (v : α) (m : ℕ) : Prop :=
  ∃ u k r, (u, k) ∈ queue ∧ Steps next u r v ∧ k + r ≤ m

theorem Continues.tail {queue : List (α × ℕ)} {v w : α} {m : ℕ} (h : Continues next queue v m)
    (hw : w ∈ next v) : Continues next queue w (m + 1) := by
  obtain ⟨u, k, r, hmem, hsteps, hle⟩ := h
  exact ⟨u, k, r + 1, hmem, hsteps.tail hw, by omega⟩

variable {v : α}

theorem not_continues_nil : ¬ Continues next [] v m := by
  rintro ⟨u, k, r, hmem, -, -⟩
  exact List.not_mem_nil hmem

/-- What continues from the queue is at least as long as the head is deep. -/
theorem Continues.head_le {queue : List (α × ℕ)}
    (h : Continues next ((a, k) :: queue) v m) (hlevelled : Levelled ((a, k) :: queue)) :
    k ≤ m := by
  obtain ⟨u, k', r, hmem, -, hle⟩ := h
  have := hlevelled.head_le _ hmem
  omega

/-- Once the head is taken and its successors wait, a path ends at the head or continues. -/
theorem Continues.take {queue : List (α × ℕ)} (h : Continues next ((a, k) :: queue) v m) :
    v = a ∧ k ≤ m ∨ Continues next (queue ++ (next a).map fun b => (b, k + 1)) v m := by
  obtain ⟨u, k', r, hmem, hsteps, hle⟩ := h
  rcases List.mem_cons.1 hmem with heq | hmem
  · obtain ⟨rfl, rfl⟩ := Prod.mk.inj heq
    rcases hsteps.cases_head with ⟨rfl, rfl⟩ | ⟨r, b, rfl, hb, hsteps⟩
    · exact .inl ⟨rfl, hle⟩
    · exact .inr ⟨b, k' + 1, r, List.mem_append_right _ (List.mem_map.2 ⟨b, hb, rfl⟩), hsteps,
        by omega⟩
  · exact .inr ⟨u, k', r, List.mem_append_left _ hmem, hsteps, hle⟩

/-- Every node waits at the length of a path to it. -/
def OnPaths (next : α → List α) (start : α) (queue : List (α × ℕ)) : Prop :=
  ∀ x ∈ queue, Steps next start x.2 x.1

theorem onPaths_single (start : α) : OnPaths next start [(start, 0)] := by
  intro x hx
  rw [List.mem_singleton.1 hx]
  exact .refl

theorem OnPaths.tail {start : α} {x : α × ℕ} {queue : List (α × ℕ)}
    (h : OnPaths next start (x :: queue)) : OnPaths next start queue :=
  fun y hy => h y (.tail _ hy)

theorem OnPaths.queue {start : α} {queue : List (α × ℕ)}
    (h : OnPaths next start ((a, k) :: queue)) :
    OnPaths next start (queue ++ (next a).map fun b => (b, k + 1)) := by
  intro x hx
  rcases List.mem_append.1 hx with hx | hx
  · exact h x (.tail _ hx)
  · obtain ⟨b, hb, rfl⟩ := List.mem_map.1 hx
    exact (h (a, k) (.head _)).tail hb

/-! ### Labelling nodes with their depths -/

/-- `v` has a label of at most `m`, or waits for one. -/
def Due (queue : List (α × ℕ)) (seen : α → Option ℕ) (v : α) (m : ℕ) : Prop :=
  (∃ j ≤ m, seen v = some j) ∨ ∃ k ≤ m, (v, k) ∈ queue

/-- Where a walk stands that labels nodes with their depths. -/
structure Labelled (next : α → List α) (start : α) (queue : List (α × ℕ))
    (seen : α → Option ℕ) : Prop where
  levelled : Levelled queue
  onPaths : OnPaths next start queue
  /-- The labels are distances. -/
  isDist : ∀ v k, seen v = some k → IsDist next start v k
  start_due : Due queue seen start 0
  /-- The successors of what is labelled are labelled or wait. -/
  next_due : ∀ u j, seen u = some j → ∀ w ∈ next u, Due queue seen w (j + 1)

theorem labelled_start (start : α) : Labelled next start [(start, 0)] fun _ => none where
  levelled := levelled_single _
  onPaths := onPaths_single start
  isDist := fun _ _ h => nomatch h
  start_due := .inr ⟨0, le_rfl, .head _⟩
  next_due := fun _ _ h => nomatch h

section Labelled

variable {start a : α} {k : ℕ} {queue : List (α × ℕ)} {seen : α → Option ℕ}

/-- A path leads to a label that is no longer, or continues from the queue. -/
theorem Labelled.of_steps (h : Labelled next start queue seen) {v : α} {m : ℕ}
    (hsteps : Steps next start m v) : (∃ j ≤ m, seen v = some j) ∨ Continues next queue v m := by
  have hdue : ∀ {w m}, Due queue seen w m →
      (∃ j ≤ m, seen w = some j) ∨ Continues next queue w m := by
    rintro w m (hlabel | ⟨k, hk, hmem⟩)
    · exact .inl hlabel
    · exact .inr ⟨w, k, 0, hmem, .refl, hk⟩
  induction hsteps with
  | refl => exact hdue h.start_due
  | tail _ hc ih =>
    rcases ih with ⟨j, hj, hseen⟩ | hcont
    · rcases hdue (h.next_due _ j hseen _ hc) with ⟨i, hi, hlabel⟩ | ⟨u, k, r, hmem, hr, hle⟩
      · exact .inl ⟨i, by omega, hlabel⟩
      · exact .inr ⟨u, k, r, hmem, hr, by omega⟩
    · exact .inr (hcont.tail hc)

/-- A node that waits without a label waits at its distance when it comes to the head. -/
theorem Labelled.isDist_head (h : Labelled next start ((a, k) :: queue) seen)
    (ha : seen a = none) : IsDist next start a k := by
  refine ⟨h.onPaths (a, k) (.head _), fun m hm => ?_⟩
  rcases h.of_steps hm with ⟨j, -, hseen⟩ | hcont
  · rw [ha] at hseen
    exact nomatch hseen
  · exact hcont.head_le h.levelled

/-- A node that has its label is passed over. -/
theorem Labelled.skip (h : Labelled next start ((a, k) :: queue) seen) {j : ℕ}
    (ha : seen a = some j) : Labelled next start queue seen := by
  have hj : j ≤ k := (h.isDist a j ha).2 k (h.onPaths (a, k) (.head _))
  have hdue : ∀ {w m}, Due ((a, k) :: queue) seen w m → Due queue seen w m := by
    rintro w m (hlabel | ⟨k', hk', hmem⟩)
    · exact .inl hlabel
    · rcases List.mem_cons.1 hmem with heq | hmem
      · obtain ⟨rfl, rfl⟩ := Prod.mk.inj heq
        exact .inl ⟨j, hj.trans hk', ha⟩
      · exact .inr ⟨k', hk', hmem⟩
  exact ⟨h.levelled.tail, h.onPaths.tail, h.isDist, hdue h.start_due,
    fun u i hu w hw => hdue (h.next_due u i hu w hw)⟩

variable [DecidableEq α]

/-- A node without a label gets its depth, and its successors wait. -/
theorem Labelled.visit (h : Labelled next start ((a, k) :: queue) seen) (ha : seen a = none) :
    Labelled next start (queue ++ (next a).map fun b => (b, k + 1))
      (Function.update seen a (some k)) := by
  have hkeep : ∀ {w j}, seen w = some j → Function.update seen a (some k) w = some j := by
    intro w j hw
    have hne : w ≠ a := by
      rintro rfl
      rw [ha] at hw
      exact nomatch hw
    rwa [Function.update_of_ne hne]
  have hdue : ∀ {w m}, Due ((a, k) :: queue) seen w m →
      Due (queue ++ (next a).map fun b => (b, k + 1)) (Function.update seen a (some k)) w m := by
    rintro w m (⟨j, hj, hlabel⟩ | ⟨k', hk', hmem⟩)
    · exact .inl ⟨j, hj, hkeep hlabel⟩
    · rcases List.mem_cons.1 hmem with heq | hmem
      · obtain ⟨rfl, rfl⟩ := Prod.mk.inj heq
        exact .inl ⟨k', hk', Function.update_self _ _ _⟩
      · exact .inr ⟨k', hk', List.mem_append_left _ hmem⟩
  refine ⟨h.levelled.queue _, h.onPaths.queue, fun v j hv => ?_, hdue h.start_due,
    fun u j hu w hw => ?_⟩
  · by_cases hva : v = a
    · subst hva
      rw [Function.update_self, Option.some.injEq] at hv
      exact hv ▸ h.isDist_head ha
    · rw [Function.update_of_ne hva] at hv
      exact h.isDist v j hv
  · by_cases hua : u = a
    · subst hua
      rw [Function.update_self, Option.some.injEq] at hu
      exact .inr ⟨k + 1, by omega, List.mem_append_right _ (List.mem_map.2 ⟨w, hw, rfl⟩)⟩
    · rw [Function.update_of_ne hua] at hu
      exact hdue (h.next_due u j hu w hw)

omit [DecidableEq α] in
/-- **The labels are the distances** once nothing waits. -/
theorem Labelled.eq_dist (h : Labelled next start [] seen) : seen = dist next start := by
  funext v
  refine Option.ext fun k => ?_
  rw [dist_eq_some]
  refine ⟨h.isDist v k, fun hk => ?_⟩
  rcases h.of_steps hk.1 with ⟨j, -, hseen⟩ | hcont
  · rwa [← (h.isDist v j hseen).unique hk]
  · exact absurd hcont not_continues_nil

end Labelled

/-! ### Searching for the cheapest node -/

/-- `m` steps lead to the scored node `v`, for a total of `t`. -/
def Candidate (next : α → List α) (start : α) (score : α → Option ℕ) (v : α) (m t : ℕ) : Prop :=
  Steps next start m v ∧ ∃ s, score v = some s ∧ t = s + m

/-- A total of `t` at depth `m` is no better than `best` at depth `d`: of equal totals the less
deep one is better. -/
def NoBetter (best d t m : ℕ) : Prop :=
  best < t ∨ best = t ∧ d ≤ m

/-- Offer a node with its score and its depth. The best so far is replaced by a smaller total
only. -/
def offer (score : Option ℕ) (a : α) (k : ℕ) (best : Option (α × ℕ)) : Option (α × ℕ) :=
  match score, best with
  | none, best => best
  | some s, none => some (a, s + k)
  | some s, some (c, t) => if s + k < t then some (a, s + k) else some (c, t)

/-- `best` is the best of the candidates that do not continue from the queue. -/
def BestOf (next : α → List α) (start : α) (score : α → Option ℕ) (queue : List (α × ℕ)) :
    Option (α × ℕ) → Prop
  | none => ∀ v m t, Candidate next start score v m t → Continues next queue v m
  | some (c, best) => ∃ d, Candidate next start score c d best ∧ (∀ x ∈ queue, d ≤ x.2) ∧
      ∀ v m t, Candidate next start score v m t → NoBetter best d t m ∨ Continues next queue v m

/-- Where a search stands. -/
structure Searched (next : α → List α) (start : α) (score : α → Option ℕ)
    (queue : List (α × ℕ)) (best : Option (α × ℕ)) : Prop where
  levelled : Levelled queue
  onPaths : OnPaths next start queue
  bestOf : BestOf next start score queue best

theorem searched_start (start : α) (score : α → Option ℕ) :
    Searched next start score [(start, 0)] none where
  levelled := levelled_single _
  onPaths := onPaths_single start
  bestOf := fun _ m _ h => ⟨start, 0, m, .head _, h.1, (Nat.zero_add m).le⟩

section Searched

variable {start a : α} {k : ℕ} {score : α → Option ℕ} {queue : List (α × ℕ)}
  {best : Option (α × ℕ)}

/-- The node at the head is offered, and its successors wait. -/
theorem Searched.take (h : Searched next start score ((a, k) :: queue) best) :
    Searched next start score (queue ++ (next a).map fun b => (b, k + 1))
      (offer (score a) a k best) := by
  refine ⟨h.levelled.queue _, h.onPaths.queue, ?_⟩
  have hdeep : ∀ d ≤ k, ∀ x ∈ queue ++ (next a).map fun b => (b, k + 1), d ≤ x.2 := by
    intro d hd x hx
    rcases List.mem_append.1 hx with hx | hx
    · exact hd.trans (h.levelled.head_le x (.tail _ hx))
    · obtain ⟨b, -, rfl⟩ := List.mem_map.1 hx
      exact hd.trans (Nat.le_succ k)
  have hpath : Steps next start k a := h.onPaths (a, k) (.head _)
  have hbest := h.bestOf
  rcases hscore : score a with - | s
  · -- A node without a score is no candidate.
    have hcont : ∀ v m t, Candidate next start score v m t →
        Continues next ((a, k) :: queue) v m →
        Continues next (queue ++ (next a).map fun b => (b, k + 1)) v m := by
      rintro v m t ⟨-, s, hs, -⟩ hc
      rcases hc.take with ⟨rfl, -⟩ | hc
      · rw [hscore] at hs
        exact nomatch hs
      · exact hc
    rcases best with - | ⟨c, total⟩
    · exact fun v m t hcand => hcont v m t hcand (hbest v m t hcand)
    · obtain ⟨d, hc, hd, hall⟩ := hbest
      exact ⟨d, hc, hdeep d (hd (a, k) (.head _)),
        fun v m t hcand => (hall v m t hcand).imp_right (hcont v m t hcand)⟩
  · have hcand_a : Candidate next start score a k (s + k) := ⟨hpath, s, hscore, rfl⟩
    -- Other paths to the node are no shorter than the one that is at the head.
    have hcont : ∀ v m t, Candidate next start score v m t →
        Continues next ((a, k) :: queue) v m → NoBetter (s + k) k t m ∨
        Continues next (queue ++ (next a).map fun b => (b, k + 1)) v m := by
      rintro v m t ⟨-, s', hs', rfl⟩ hc
      rcases hc.take with ⟨rfl, hkm⟩ | hc
      · rw [hscore, Option.some.injEq] at hs'
        subst hs'
        exact .inl (by rw [NoBetter]; omega)
      · exact .inr hc
    rcases best with - | ⟨c, total⟩
    · exact ⟨k, hcand_a, hdeep k le_rfl,
        fun v m t hcand => hcont v m t hcand (hbest v m t hcand)⟩
    · obtain ⟨d, hc, hd, hall⟩ := hbest
      have hdk : d ≤ k := hd (a, k) (.head _)
      rw [offer]
      by_cases hlt : s + k < total
      · rw [if_pos hlt]
        refine ⟨k, hcand_a, hdeep k le_rfl, fun v m t hcand => ?_⟩
        rcases hall v m t hcand with hno | hc
        · rw [NoBetter] at hno
          exact .inl (.inl (by omega))
        · exact hcont v m t hcand hc
      · rw [if_neg hlt]
        refine ⟨d, hc, hdeep d hdk, fun v m t hcand => ?_⟩
        rcases hall v m t hcand with hno | hc
        · exact .inl hno
        · refine (hcont v m t hcand hc).imp_left fun hno => ?_
          rw [NoBetter] at hno ⊢
          omega

/-- **A search finds the best candidate** when nothing waits, or when everything that waits is
deeper than the best total. -/
theorem Searched.bestOf_nil (h : Searched next start score queue best)
    (hstop : queue = [] ∨ ∃ c t, best = some (c, t) ∧ ∃ a k rest, queue = (a, k) :: rest ∧ t < k) :
    BestOf next start score [] best := by
  rcases hstop with rfl | ⟨c, total, rfl, a, k, rest, rfl, hlt⟩
  · exact h.bestOf
  · obtain ⟨d, hc, -, hall⟩ := h.bestOf
    refine ⟨d, hc, fun x hx => absurd hx List.not_mem_nil, fun v m t hcand => ?_⟩
    rcases hall v m t hcand with hno | hcont
    · exact .inl hno
    · obtain ⟨-, s, -, rfl⟩ := hcand
      have hkm := hcont.head_le h.levelled
      exact .inl (.inl (by omega))

end Searched

/-! ### How long the walks take -/

section Rounds

variable [Fintype α] [DecidableEq α]

/-- The nodes that have a label. -/
def labelled (seen : α → Option ℕ) : Finset α :=
  Finset.univ.filter fun v => (seen v).isSome

/-- Most rounds that a walk with labels still takes. -/
def rounds (next : α → List α) (queue : List (α × ℕ)) (seen : α → Option ℕ) : ℕ :=
  Worklist.potential next Finset.univ (labelled seen) (queue.map Prod.fst)

/-- Passing over the head uses up one round. -/
theorem rounds_skip (a : α) (k : ℕ) (queue : List (α × ℕ)) (seen : α → Option ℕ) :
    rounds next ((a, k) :: queue) seen = rounds next queue seen + 1 :=
  Worklist.potential_cons _ a _

/-- Labelling the head and queueing its successors uses up one round. -/
theorem rounds_visit {a : α} {seen : α → Option ℕ} (ha : seen a = none) (k : ℕ)
    (queue : List (α × ℕ)) :
    rounds next (queue ++ (next a).map fun b => (b, k + 1)) (Function.update seen a (some k)) + 1 =
      rounds next ((a, k) :: queue) seen := by
  have hvisited : labelled (Function.update seen a (some k)) = insert a (labelled seen) := by
    ext v
    rw [Finset.mem_insert, labelled, labelled, Finset.mem_filter_univ, Finset.mem_filter_univ]
    by_cases hv : v = a
    · subst hv
      simp
    · rw [Function.update_of_ne hv]
      exact ⟨.inr, fun h => h.resolve_left hv⟩
  rw [rounds, rounds, hvisited]
  refine Worklist.potential_visit (fun b hb => absurd (Finset.mem_univ b) hb) ?_ ?_
  · rw [labelled, Finset.mem_filter_univ, ha]
    exact Bool.false_ne_true
  · simp

end Rounds

/-- In a graph without infinite paths every node has finitely many paths below it. -/
theorem exists_unfolding (h : WellFounded fun b a => b ∈ next a) :
    ∃ size : α → ℕ, ∀ a, size a = 1 + ((next a).map size).sum := by
  refine ⟨h.fix fun a size => 1 + ((next a).attach.map fun b => size b.1 b.2).sum, fun a => ?_⟩
  rw [h.fix_eq]
  exact congrArg (fun l => 1 + l.sum) List.attach_map_val

/-- Taking the head and queueing its successors uses up one. -/
theorem unfolding_take {size : α → ℕ} (hsize : ∀ a, size a = 1 + ((next a).map size).sum)
    (a : α) (k : ℕ) (queue : List (α × ℕ)) : (((a, k) :: queue).map fun x => size x.1).sum =
      ((queue ++ (next a).map fun b => (b, k + 1)).map fun x => size x.1).sum + 1 := by
  have hnew : ((next a).map fun b => (b, k + 1)).map (fun x => size x.1) = (next a).map size :=
    List.map_map ..
  rw [List.map_cons, List.sum_cons, List.map_append, List.sum_append, hnew, hsize a]
  omega

end BreadthFirst
