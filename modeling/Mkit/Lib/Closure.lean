import Mathlib.Data.Finset.Card
import Mathlib.Data.List.TakeWhile
import Mathlib.Order.Bounds.Basic
import Mkit.Lib.Wire

/-!
# Breadth-First Closure with a Cap

A walk over a graph whose nodes are read one at a time. Reading a node can fail, and then so
does the walk; the number of nodes taken is capped, and the walk says whether the cap cut it
short. `walk_eq_ok` is its specification: a walk that was not cut short returns exactly the
nodes reachable from where it started, and has read every one of them.

`gather` is the same idea without a graph: the concatenation of what a fallible function gives
on the members of a list.
-/

namespace Closure

variable {α β ε : Type}

/-! ### Gathering -/

/-- What `f` gives on the members of a list, in order; the first failure ends it. -/
def gather (f : α → Except ε (List β)) : List α → Except ε (List β)
  | [] => .ok []
  | a :: l => do
    let bs ← f a
    let rest ← gather f l
    pure (bs ++ rest)

/-- Gathering succeeds only if every member does, and collects exactly their results. -/
theorem gather_eq_ok {f : α → Except ε (List β)} {l : List α} {out : List β}
    (h : gather f l = .ok out) :
    (∀ a ∈ l, ∃ bs, f a = .ok bs) ∧ ∀ b, b ∈ out ↔ ∃ a ∈ l, ∃ bs, f a = .ok bs ∧ b ∈ bs := by
  induction l generalizing out with
  | nil =>
    obtain rfl : [] = out := Except.ok.inj h
    simp
  | cons a l ih =>
    rw [gather, Wire.bind_eq_ok] at h
    obtain ⟨bs, hbs, h⟩ := h
    rw [Wire.bind_eq_ok] at h
    obtain ⟨rest, hrest, h⟩ := h
    obtain rfl : bs ++ rest = out := Except.ok.inj h
    obtain ⟨hall, hmem⟩ := ih hrest
    refine ⟨?_, fun b => ?_⟩
    · intro a' ha'
      rcases List.mem_cons.1 ha' with rfl | ha'
      · exact ⟨bs, hbs⟩
      · exact hall a' ha'
    · rw [List.mem_append, hmem, List.exists_mem_cons_iff]
      simp [hbs]

/-! ### Walking -/

/-- Reachable from one of the nodes in `S`. -/
inductive Reach (edge : α → α → Prop) (S : α → Prop) : α → Prop
  | start {a : α} : S a → Reach edge S a
  | step {a b : α} : Reach edge S a → edge a b → Reach edge S b

/-- What is reachable from one node. -/
theorem reach_singleton {edge : α → α → Prop} {r a : α} :
    Reach edge (· ∈ [r]) a ↔ Relation.ReflTransGen edge r a := by
  constructor
  · intro h
    induction h with
    | start ha => rw [List.mem_singleton.1 ha]
    | step _ he ih => exact ih.tail he
  · intro h
    induction h with
    | refl => exact .start (List.mem_singleton_self r)
    | tail _ he ih => exact .step ih he

/-- A set that holds the start and is closed under edges holds everything reachable. -/
theorem Reach.mem_of_closed {edge : α → α → Prop} {S P : α → Prop} (hS : ∀ a, S a → P a)
    (hclosed : ∀ a b, P a → edge a b → P b) {a : α} (h : Reach edge S a) : P a := by
  induction h with
  | start ha => exact hS _ ha
  | step _ he ih => exact hclosed _ _ ih he

/-- The sets that hold the start and are closed under edges. -/
def ClosedSets (edge : α → α → Prop) (S : α → Prop) : Set (Set α) :=
  {T | (∀ a, S a → a ∈ T) ∧ ∀ a b, a ∈ T → edge a b → b ∈ T}

/-- What is reachable is the least of them. -/
theorem isLeast_reach (edge : α → α → Prop) (S : α → Prop) :
    IsLeast (ClosedSets edge S) {a | Reach edge S a} :=
  ⟨⟨fun _ => Reach.start, fun _ _ => Reach.step⟩, fun _ hT _ h => h.mem_of_closed hT.1 hT.2⟩

/-- A set is the least closed one exactly when it holds what is reachable. -/
theorem isLeast_iff {edge : α → α → Prop} {S : α → Prop} {T : Set α} :
    IsLeast (ClosedSets edge S) T ↔ ∀ a, a ∈ T ↔ Reach edge S a :=
  ⟨fun h => Set.ext_iff.1 (h.unique (isLeast_reach edge S)),
    fun h => (Set.ext h : T = {a | Reach edge S a}) ▸ isLeast_reach edge S⟩

/-- Fewer edges and fewer places to start from reach less. -/
theorem Reach.mono {edge edge' : α → α → Prop} {S : α → Prop}
    (h : ∀ a b, edge a b → edge' a b) {a : α} (ha : Reach edge S a) : Reach edge' S a :=
  ha.mem_of_closed (fun _ => .start) fun _ _ hx he => .step hx (h _ _ he)

/-- One edge: `b` is among what reading `a` gives. -/
def Edge (next : α → Except ε (List α)) (a b : α) : Prop :=
  ∃ bs, next a = .ok bs ∧ b ∈ bs

section Walk

variable [DecidableEq α] (next : α → Except ε (List α))

/-- Take nodes from the front of the queue, `room` more of them at most. A node taken before
is passed over; a new one is read and its successors are queued. The flag says that nodes were
left when the room was used up. -/
def walk : ℕ → List α → Finset α → Except ε (Finset α × Bool)
  | 0, queue, out => .ok (out, !queue.isEmpty)
  | room + 1, queue, out =>
    match queue.dropWhile (· ∈ out) with
    | [] => .ok (out, false)
    | a :: rest => do
      let bs ← next a
      walk room (rest ++ bs) (insert a out)

/-- The nodes taken, `out`, and those waiting are a closure in the making: everything taken
has been read, and its successors are taken or waiting. -/
def Closing (queue : List α) (out : Finset α) : Prop :=
  ∀ a ∈ out, ∃ bs, next a = .ok bs ∧ ∀ b ∈ bs, b ∈ out ∨ b ∈ queue

variable {next}

/-- Passing over nodes taken before loses nothing. -/
theorem mem_of_mem_dropWhile {queue rest : List α} {out : Finset α}
    (h : queue.dropWhile (· ∈ out) = rest) {a : α} (ha : a ∈ queue) : a ∈ out ∨ a ∈ rest := by
  rw [← List.takeWhile_append_dropWhile (p := (· ∈ out)) (l := queue), h, List.mem_append] at ha
  refine ha.imp_left fun ha => ?_
  simpa using List.mem_takeWhile_imp ha

/-- What is left at the front is new. -/
theorem notMem_of_dropWhile {queue rest : List α} {out : Finset α} {a : α}
    (h : queue.dropWhile (· ∈ out) = a :: rest) : a ∉ out := by
  have hhead := List.head?_dropWhile_not (· ∈ out) queue
  rw [h] at hhead
  simpa using hhead

/-- Taking the first new node of the queue keeps the closure in the making. -/
theorem Closing.take {queue rest bs : List α} {out : Finset α} {a : α}
    (hc : Closing next queue out) (hq : queue.dropWhile (· ∈ out) = a :: rest)
    (ha : next a = .ok bs) : Closing next (rest ++ bs) (insert a out) := by
  intro x hx
  rcases Finset.mem_insert.1 hx with rfl | hx
  · exact ⟨bs, ha, fun b hb => .inr (List.mem_append_right _ hb)⟩
  · obtain ⟨cs, hcs, hmem⟩ := hc x hx
    refine ⟨cs, hcs, fun b hb => ?_⟩
    rcases hmem b hb with hb | hb
    · exact .inl (Finset.mem_insert_of_mem hb)
    · rcases mem_of_mem_dropWhile hq hb with hb | hb
      · exact .inl (Finset.mem_insert_of_mem hb)
      · rcases List.mem_cons.1 hb with rfl | hb
        · exact .inl (Finset.mem_insert_self _ _)
        · exact .inr (List.mem_append_left _ hb)

/-- A walk that ends of itself has taken the nodes it started from and the whole queue, has
read everything it took, and is closed under successors. -/
theorem closed_of_walk {room : ℕ} {queue : List α} {out out' : Finset α}
    (hc : Closing next queue out) (h : walk next room queue out = .ok (out', false)) :
    out ⊆ out' ∧ (∀ a ∈ queue, a ∈ out') ∧
      ∀ a ∈ out', ∃ bs, next a = .ok bs ∧ ∀ b ∈ bs, b ∈ out' := by
  induction room generalizing queue out with
  | zero =>
    simp only [walk, Except.ok.injEq, Prod.mk.injEq, Bool.not_eq_false',
      List.isEmpty_iff] at h
    obtain ⟨rfl, rfl⟩ := h
    refine ⟨subset_rfl, by simp, fun a ha => ?_⟩
    obtain ⟨bs, hbs, hmem⟩ := hc a ha
    exact ⟨bs, hbs, fun b hb => (hmem b hb).resolve_right List.not_mem_nil⟩
  | succ room ih =>
    rw [walk] at h
    split at h
    · rename_i hq
      simp only [Except.ok.injEq, Prod.mk.injEq, and_true] at h
      subst h
      have hin : ∀ a ∈ queue, a ∈ out := fun a ha =>
        (mem_of_mem_dropWhile hq ha).resolve_right List.not_mem_nil
      refine ⟨subset_rfl, hin, fun a ha => ?_⟩
      obtain ⟨bs, hbs, hmem⟩ := hc a ha
      exact ⟨bs, hbs, fun b hb => (hmem b hb).elim id (hin b)⟩
    · rename_i a rest hq
      rw [Wire.bind_eq_ok] at h
      obtain ⟨bs, ha, h⟩ := h
      obtain ⟨hout, hqueue, hclosed⟩ := ih (hc.take hq ha) h
      refine ⟨(Finset.subset_insert _ _).trans hout, fun x hx => ?_, hclosed⟩
      rcases mem_of_mem_dropWhile hq hx with hx | hx
      · exact hout (Finset.mem_insert_of_mem hx)
      · rcases List.mem_cons.1 hx with rfl | hx
        · exact hout (Finset.mem_insert_self _ _)
        · exact hqueue x (List.mem_append_left _ hx)

/-- A walk takes only nodes reachable from where it started, cut short or not. -/
theorem reach_of_walk {S : α → Prop} {room : ℕ} {queue : List α} {out out' : Finset α}
    {cut : Bool} (hout : ∀ a ∈ out, Reach (Edge next) S a)
    (hqueue : ∀ a ∈ queue, Reach (Edge next) S a)
    (h : walk next room queue out = .ok (out', cut)) : ∀ a ∈ out', Reach (Edge next) S a := by
  induction room generalizing queue out with
  | zero =>
    simp only [walk, Except.ok.injEq, Prod.mk.injEq] at h
    exact h.1 ▸ hout
  | succ room ih =>
    rw [walk] at h
    split at h
    · simp only [Except.ok.injEq, Prod.mk.injEq] at h
      exact h.1 ▸ hout
    · rename_i a rest hq
      rw [Wire.bind_eq_ok] at h
      obtain ⟨bs, ha, h⟩ := h
      have hsub : ∀ x ∈ a :: rest, Reach (Edge next) S x := fun x hx =>
        hqueue x ((List.dropWhile_suffix _).subset (hq ▸ hx))
      have hreach : Reach (Edge next) S a := hsub a List.mem_cons_self
      refine ih (fun x hx => ?_) (fun x hx => ?_) h
      · rcases Finset.mem_insert.1 hx with rfl | hx
        · exact hreach
        · exact hout x hx
      · rcases List.mem_append.1 hx with hx | hx
        · exact hsub x (List.mem_cons_of_mem _ hx)
        · exact .step hreach ⟨bs, ha, hx⟩

/-- A walk has read everything it took, cut short or not. -/
theorem read_of_walk {room : ℕ} {queue : List α} {out out' : Finset α} {cut : Bool}
    (hout : ∀ a ∈ out, ∃ bs, next a = .ok bs) (h : walk next room queue out = .ok (out', cut)) :
    ∀ a ∈ out', ∃ bs, next a = .ok bs := by
  induction room generalizing queue out with
  | zero =>
    simp only [walk, Except.ok.injEq, Prod.mk.injEq] at h
    exact h.1 ▸ hout
  | succ room ih =>
    rw [walk] at h
    split at h
    · simp only [Except.ok.injEq, Prod.mk.injEq] at h
      exact h.1 ▸ hout
    · rename_i a rest hq
      rw [Wire.bind_eq_ok] at h
      obtain ⟨bs, ha, h⟩ := h
      refine ih (fun x hx => ?_) h
      rcases Finset.mem_insert.1 hx with rfl | hx
      · exact ⟨bs, ha⟩
      · exact hout x hx

/-- A walk takes no more than its room allows, and all of that if it was cut short. -/
theorem card_of_walk {room : ℕ} {queue : List α} {out out' : Finset α} {cut : Bool}
    (h : walk next room queue out = .ok (out', cut)) :
    out'.card ≤ out.card + room ∧ (cut = true → out'.card = out.card + room) := by
  induction room generalizing queue out with
  | zero =>
    simp only [walk, Except.ok.injEq, Prod.mk.injEq] at h
    rw [h.1, Nat.add_zero]
    exact ⟨le_rfl, fun _ => rfl⟩
  | succ room ih =>
    rw [walk] at h
    split at h
    · simp only [Except.ok.injEq, Prod.mk.injEq] at h
      obtain ⟨rfl, rfl⟩ := h
      exact ⟨Nat.le_add_right _ _, fun h => absurd h Bool.false_ne_true⟩
    · rename_i a rest hq
      rw [Wire.bind_eq_ok] at h
      obtain ⟨bs, ha, h⟩ := h
      have hcard := ih h
      rw [Finset.card_insert_of_notMem (notMem_of_dropWhile hq)] at hcard
      exact ⟨by omega, fun hcut => (hcard.2 hcut).trans (by omega)⟩

/-- Nodes without successors fill the room, and what is queued behind them is left. -/
theorem walk_leaves {room : ℕ} {leaves rest : List α} {out : Finset α} (hnodup : leaves.Nodup)
    (hlength : leaves.length = room) (hout : ∀ a ∈ leaves, a ∉ out)
    (hleaf : ∀ a ∈ leaves, next a = .ok []) :
    ∃ out', walk next room (leaves ++ rest) out = .ok (out', !rest.isEmpty) := by
  induction room generalizing leaves out with
  | zero =>
    obtain rfl := List.length_eq_zero_iff.1 hlength
    exact ⟨out, rfl⟩
  | succ room ih =>
    obtain ⟨a, leaves, rfl⟩ := List.exists_cons_of_length_eq_add_one hlength
    obtain ⟨hnew, hnodup⟩ := List.nodup_cons.1 hnodup
    rw [List.forall_mem_cons] at hout hleaf
    have hq : (a :: leaves ++ rest).dropWhile (· ∈ out) = a :: (leaves ++ rest) := by
      rw [List.cons_append, List.dropWhile_cons_of_neg (by simpa using hout.1)]
    have hout' : ∀ x ∈ leaves, x ∉ insert a out := by
      intro x hx hin
      rcases Finset.mem_insert.1 hin with rfl | hin
      · exact hnew hx
      · exact hout.2 x hx hin
    obtain ⟨out', hrest⟩ := ih hnodup (Nat.succ.inj hlength) hout' hleaf.2
    refine ⟨out', ?_⟩
    rw [walk, hq]
    dsimp only
    rw [hleaf.1]
    exact (congrArg (walk next room · (insert a out)) (List.append_nil _)).trans hrest

/-- **The walk is exact.** When the cap did not cut it short, the walk has taken exactly the
nodes reachable from its start, and has read them all. -/
theorem walk_eq_ok {cap : ℕ} {start : List α} {out : Finset α}
    (h : walk next cap start ∅ = .ok (out, false)) :
    (∀ a, a ∈ out ↔ Reach (Edge next) (· ∈ start) a) ∧ ∀ a ∈ out, ∃ bs, next a = .ok bs := by
  obtain ⟨-, hstart, hclosed⟩ :=
    closed_of_walk (fun a ha => absurd ha (Finset.notMem_empty a)) h
  refine ⟨fun a => ⟨fun ha => ?_, fun ha => ?_⟩, fun a ha => ?_⟩
  · exact reach_of_walk (fun x hx => absurd hx (Finset.notMem_empty x))
      (fun x hx => .start hx) h a ha
  · refine ha.mem_of_closed hstart ?_
    rintro x y hx ⟨bs, hbs, hy⟩
    obtain ⟨bs', hbs', hmem⟩ := hclosed x hx
    rw [hbs] at hbs'
    obtain rfl : bs = bs' := Except.ok.inj hbs'
    exact hmem y hy
  · obtain ⟨bs, hbs, -⟩ := hclosed a ha
    exact ⟨bs, hbs⟩

/-- A walk over nodes that can all be read does not fail. -/
theorem exists_walk_eq_ok {S : α → Prop}
    (hread : ∀ a, Reach (Edge next) S a → ∃ bs, next a = .ok bs) {room : ℕ} {queue : List α}
    (hqueue : ∀ a ∈ queue, Reach (Edge next) S a) (out : Finset α) :
    ∃ r, walk next room queue out = .ok r := by
  induction room generalizing queue out with
  | zero => exact ⟨_, rfl⟩
  | succ room ih =>
    rw [walk]
    split
    · exact ⟨_, rfl⟩
    · rename_i a rest hq
      have hsub : ∀ x ∈ a :: rest, Reach (Edge next) S x := fun x hx =>
        hqueue x ((List.dropWhile_suffix _).subset (hq ▸ hx))
      have ha : Reach (Edge next) S a := hsub a List.mem_cons_self
      obtain ⟨bs, hbs⟩ := hread a ha
      have hqueue' : ∀ x ∈ rest ++ bs, Reach (Edge next) S x := fun x hx =>
        (List.mem_append.1 hx).elim (fun hx => hsub x (List.mem_cons_of_mem _ hx))
          fun hx => ha.step ⟨bs, hbs, hx⟩
      obtain ⟨r, hr⟩ := ih hqueue' (insert a out)
      exact ⟨r, Wire.bind_eq_ok.2 ⟨bs, hbs, hr⟩⟩

/-- **The walk is complete.** Nodes that can all be read, no more of them than the cap, are all
taken. The flag is clear if there is room for another one. -/
theorem walk_of_card_le {cap : ℕ} {start : List α} {T : Finset α}
    (hT : ∀ a, a ∈ T ↔ Reach (Edge next) (· ∈ start) a) (hread : ∀ a ∈ T, ∃ bs, next a = .ok bs)
    (hcard : T.card ≤ cap) :
    ∃ cut, walk next cap start ∅ = .ok (T, cut) ∧ (T.card < cap → cut = false) := by
  obtain ⟨⟨out, cut⟩, hwalk⟩ : ∃ r, walk next cap start ∅ = .ok r :=
    exists_walk_eq_ok (fun a ha => hread a ((hT a).2 ha)) (fun a ha => .start ha) ∅
  have hsub : out ⊆ T := fun a ha => (hT a).2 <|
    reach_of_walk (fun x hx => absurd hx (Finset.notMem_empty x)) (fun x hx => .start hx) hwalk a ha
  have hout := card_of_walk hwalk
  rw [Finset.card_empty, Nat.zero_add] at hout
  cases cut with
  | false =>
    have heq : out = T := Finset.ext fun a => ((walk_eq_ok hwalk).1 a).trans (hT a).symm
    exact ⟨false, heq ▸ hwalk, fun _ => rfl⟩
  | true =>
    have hfull := hout.2 rfl
    obtain rfl := Finset.eq_of_subset_of_card_le hsub (hcard.trans_eq hfull.symm)
    exact ⟨true, hwalk, fun hlt => by omega⟩

end Walk

end Closure
