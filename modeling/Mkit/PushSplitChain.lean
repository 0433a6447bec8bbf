import Mkit.PushSplit
import Mkit.Reachability

/-!
# The Chain of a Split

What `walkChain` and `cumulativeWeights` compute. The chain is the line of first parents between
the tip and what the remote holds (`Walks`), and the weight of a position is the size of what is
reachable from its commit and not held by the remote (`Sweeps`).

Both are described without the control: a walk says nothing about who may cancel it, so a push
that goes on later, from a commit of the chain, can reuse what is said here about the rest of it
(`Walks.above`, `Sweeps.append`).

## Main results

* `walkFrom_eq_ok`, `walkFrom_of_walks` — the walk of first parents and what it finds;
* `cumulativeFrom_eq_ok`, `cumulativeFrom_of_sweeps` — the weights and the sets they are about;
* `IsClosure.checked` — a closure that has been read once is enumerated again.
-/

namespace Mkit.PushSplit

open Closure Gathering Pack Relation Transfer

/-! ### Closures -/

section Closures

variable {B : Blake3} {s : ObjectStore} {h h' a b : Hash} {T T' : Finset Hash}

/-- `a` is `h` or reachable from it. -/
abbrev Reaches (B : Blake3) (s : ObjectStore) : Hash → Hash → Prop :=
  ReflTransGen (RefersTo B .history s)

/-- `T` is what is reachable from `h`; all of it can be read, and it is not too large. -/
structure IsClosure (B : Blake3) (s : ObjectStore) (h : Hash) (T : Finset Hash) : Prop where
  mem : ∀ a, a ∈ T ↔ Reaches B s h a
  reads : ∀ a ∈ T, ∃ cs, successors B .history s a = .ok cs
  small : T.card ≤ MAX_REACHABLE

theorem IsClosure.self_mem (hT : IsClosure B s h T) : h ∈ T :=
  (hT.mem h).2 .refl

theorem IsClosure.subset (hT : IsClosure B s h T) (hT' : IsClosure B s h' T')
    (hh : Reaches B s h' h) : T ⊆ T' :=
  fun a ha => (hT'.mem a).2 (hh.trans ((hT.mem a).1 ha))

/-- A walk that was not cut short has found a closure. -/
theorem isClosure_of_checked (hrun : reachableClosureChecked B s [h] = .ok (T, false)) :
    IsClosure B s h T where
  mem := fun a => ((mem_reachableWithMode hrun).1 a).trans reach_singleton
  reads := (walk_eq_ok hrun).2
  small := by
    have hcard := (card_of_walk hrun).1
    rwa [Finset.card_empty, Nat.zero_add] at hcard

/-- A closure is enumerated whole, without the flag if there is room for another object. -/
theorem IsClosure.checked (hT : IsClosure B s h T) :
    ∃ cut, reachableClosureChecked B s [h] = .ok (T, cut) ∧
      (T.card < MAX_REACHABLE → cut = false) := by
  refine walk_of_card_le (fun a => ?_) hT.reads hT.small
  rw [hT.mem, reach_singleton]
  constructor
  · -- Up to `a` everything is in the closure, so it has been read, and the edges agree.
    intro ha
    induction ha with
    | refl => exact .refl
    | @tail x y hx he ih => exact ih.tail ((edge_successors (hT.reads x ((hT.mem x).2 hx))).2 he)
  · exact fun ha => ReflTransGen.lift id (fun _ _ => refersTo_of_edge) _ _ ha

theorem IsClosure.reachableObjects (hT : IsClosure B s h T) :
    Transfer.reachableObjects B s h = .ok T := by
  obtain ⟨cut, hrun, -⟩ := hT.checked
  rw [Transfer.reachableObjects, hrun]
  rfl

theorem IsClosure.contains (hT : IsClosure B s h T) (ha : a ∈ T) : s.contains a = true := by
  obtain ⟨cs, hcs⟩ := hT.reads a ha
  exact contains_of_successors hcs

open Classical in
/-- What is reachable from a member of a closure has a closure inside it. -/
theorem IsClosure.of_mem (hT : IsClosure B s h T) (ha : a ∈ T) : ∃ S ⊆ T, IsClosure B s a S := by
  refine ⟨T.filter (Reaches B s a ·), Finset.filter_subset _ _, fun b => ?_, fun b hb => ?_, ?_⟩
  · rw [Finset.mem_filter, hT.mem]
    exact and_iff_right_of_imp ((hT.mem a).1 ha).trans
  · exact hT.reads b (Finset.mem_filter.1 hb).1
  · exact (Finset.card_filter_le _ _).trans hT.small

/-- What is held of a root is its closure, or nothing. -/
theorem heldClosure_eq_ok {root : Option Hash} {held : Finset Hash}
    (hrun : heldClosure B s root = .ok held) : held = ∅ ∧ (∀ r ∈ root, s.contains r = true →
        ∃ hex, reachableClosureChecked B s [r] = .error (.objectNotFound hex)) ∨
      ∃ r ∈ root, IsClosure B s r held := by
  rw [heldClosure] at hrun
  cases hroot : root.filter (s.contains ·) with
  | none =>
    rw [hroot] at hrun
    refine .inl ⟨(Except.ok.inj hrun).symm, fun r hr hcontains => ?_⟩
    rw [Option.filter_eq_none_iff] at hroot
    exact absurd hcontains (hroot r hr)
  | some r =>
    rw [hroot] at hrun
    obtain ⟨hr, hcontains⟩ := Option.filter_eq_some_iff.1 hroot
    dsimp only at hrun
    rcases hclosure : reachableClosureChecked B s [r] with e | ⟨set, cut⟩
    · rw [hclosure] at hrun
      cases e with
      | objectNotFound hex =>
        refine .inl ⟨(Except.ok.inj hrun).symm, fun r' hr' _ => ⟨hex, ?_⟩⟩
        obtain rfl := Option.some.inj (hr.symm.trans hr')
        exact hclosure
      | _ => exact nomatch hrun
    · rw [hclosure] at hrun
      cases cut with
      | true => exact nomatch hrun
      | false =>
        obtain rfl := Except.ok.inj hrun
        exact .inr ⟨r, hr, isClosure_of_checked hclosure⟩

/-- A closure with room for another object is held whole. -/
theorem IsClosure.heldClosure (hT : IsClosure B s h T) (hlt : T.card < MAX_REACHABLE) :
    PushSplit.heldClosure B s (some h) = .ok T := by
  obtain ⟨cut, hrun, hcut⟩ := hT.checked
  obtain rfl := hcut hlt
  have hroot : (some h).filter (s.contains ·) = some h :=
    Option.filter_eq_some_iff.2 ⟨rfl, hT.contains hT.self_mem⟩
  rw [PushSplit.heldClosure, hroot]
  dsimp only
  rw [hrun]

end Closures

/-! ### The walk of first parents -/

section Walking

variable {B : Blake3} {store : ObjectStore} {ctl : PushControl} {held : Finset Hash}

/-- `b` is the first parent of `a`. -/
def FirstParentOf (B : Blake3) (store : ObjectStore) (a b : Hash) : Prop :=
  ∃ obj, store.readObject B a = .ok obj ∧ firstParent obj = some b

variable {a b : Hash}

theorem FirstParentOf.historyParent (h : FirstParentOf B store a b) :
    HistoryParent B store a b := by
  obtain ⟨obj, hobj, hparent⟩ := h
  refine ⟨obj, hobj, ?_⟩
  cases obj with
  | commit c => exact List.mem_of_head? hparent
  | remix r => exact List.mem_of_head? hparent
  | _ => exact nomatch hparent

theorem refersTo_of_historyParent (h : HistoryParent B store a b) :
    RefersTo B .history store a b := by
  obtain ⟨obj, hobj, hb⟩ := h
  refine ⟨obj, hobj, ?_⟩
  cases obj with
  | commit c => exact List.mem_cons_of_mem _ hb
  | remix r => exact List.mem_cons_of_mem _ hb
  | _ => exact absurd hb List.not_mem_nil

/-- The first parents from a commit down: the commits above, oldest first, and the commit below
them, unless the history ends. A shallow commit ends it. -/
inductive Walks (B : Blake3) (store : ObjectStore) (shallow : Finset Hash) :
    Hash → List Hash → Option Hash → Prop
  | held (c : Hash) : Walks B store shallow c [] (some c)
  | ends {c : Hash} :
      (c ∈ shallow ∨ ∃ obj, store.readObject B c = .ok obj ∧ firstParent obj = none) →
      Walks B store shallow c [c] none
  | up {c p : Hash} {commits : List Hash} {base : Option Hash} :
      c ∉ shallow → FirstParentOf B store c p → Walks B store shallow p commits base →
      Walks B store shallow c (commits ++ [c]) base

theorem checkpoint_of_not {c : Checkpoint} (h : ctl.cancelled c = false) :
    checkpoint ctl c = .ok () := by
  rw [checkpoint, h]
  rfl

theorem walkFrom_of_mem {room : ℕ} {cursor : Hash} {acc : List Hash} (h : cursor ∈ held) :
    walkFrom B store ctl held room cursor acc = .ok (acc, some cursor) := by
  cases room <;> rw [walkFrom, if_pos h]

/-- What the walk returns. -/
theorem walkFrom_eq_ok {room : ℕ} {cursor : Hash} {acc commits : List Hash} {base : Option Hash}
    (h : walkFrom B store ctl held room cursor acc = .ok (commits, base)) :
    ∃ above, commits = above ++ acc ∧ Walks B store ctl.shallow cursor above base ∧
      above.length ≤ room ∧ (∀ c ∈ above, c ∉ held) ∧ ∀ b ∈ base, b ∈ held := by
  induction room generalizing cursor acc with
  | zero =>
    rw [walkFrom] at h
    by_cases hheld : cursor ∈ held
    · rw [if_pos hheld] at h
      obtain ⟨rfl, rfl⟩ := Prod.mk.inj (Except.ok.inj h)
      exact ⟨[], rfl, .held cursor, Nat.zero_le _, fun c hc => absurd hc List.not_mem_nil,
        fun b hb => Option.some.inj hb ▸ hheld⟩
    · rw [if_neg hheld] at h
      exact nomatch h
  | succ room ih =>
    rw [walkFrom] at h
    by_cases hheld : cursor ∈ held
    · rw [if_pos hheld] at h
      obtain ⟨rfl, rfl⟩ := Prod.mk.inj (Except.ok.inj h)
      exact ⟨[], rfl, .held cursor, Nat.zero_le _, fun c hc => absurd hc List.not_mem_nil,
        fun b hb => Option.some.inj hb ▸ hheld⟩
    · rw [if_neg hheld] at h
      rw [Wire.bind_eq_ok] at h
      obtain ⟨-, -, h⟩ := h
      have hends : ∀ {c}, c ∈ [cursor] → c ∉ held := fun hc => List.mem_singleton.1 hc ▸ hheld
      by_cases hshallow : cursor ∈ ctl.shallow
      · rw [if_pos hshallow] at h
        obtain ⟨rfl, rfl⟩ := Prod.mk.inj (Except.ok.inj h)
        exact ⟨[cursor], rfl, .ends (.inl hshallow), Nat.le_add_left _ _, fun c => hends,
          fun b hb => nomatch hb⟩
      · rw [if_neg hshallow, Wire.bind_eq_ok] at h
        obtain ⟨obj, hobj, h⟩ := h
        rw [ofStore_eq_ok] at hobj
        cases hparent : firstParent obj with
        | none =>
          rw [hparent] at h
          obtain ⟨rfl, rfl⟩ := Prod.mk.inj (Except.ok.inj h)
          exact ⟨[cursor], rfl, .ends (.inr ⟨obj, hobj, hparent⟩), Nat.le_add_left _ _,
            fun c => hends, fun b hb => nomatch hb⟩
        | some p =>
          rw [hparent] at h
          obtain ⟨above, rfl, hwalks, hlength, hnot, hbase⟩ := ih h
          refine ⟨above ++ [cursor], by simp, .up hshallow ⟨obj, hobj, hparent⟩ hwalks, ?_,
            fun c hc => ?_, hbase⟩
          · rw [List.length_append, List.length_singleton]
            exact Nat.succ_le_succ hlength
          · exact (List.mem_append.1 hc).elim (hnot c) hends

/-- A walk that nobody cancels, with room for what is there, finds it. -/
theorem walkFrom_of_walks (hcancel : ∀ c, ctl.cancelled c = false) {room : ℕ} {cursor : Hash}
    {above acc : List Hash} {base : Option Hash}
    (h : Walks B store ctl.shallow cursor above base) (hroom : above.length ≤ room)
    (hnot : ∀ c ∈ above, c ∉ held) (hbase : ∀ b ∈ base, b ∈ held) :
    walkFrom B store ctl held room cursor acc = .ok (above ++ acc, base) := by
  have hcheck : ∀ c, checkpoint ctl c = .ok () := fun c => checkpoint_of_not (hcancel c)
  induction h generalizing room acc with
  | held c => exact walkFrom_of_mem (hbase c rfl)
  | @ends c hc =>
    obtain ⟨room, rfl⟩ := Nat.exists_eq_add_one.2 hroom
    rw [walkFrom, if_neg (hnot c (List.mem_singleton_self c))]
    rw [hcheck]
    by_cases hshallow : c ∈ ctl.shallow
    · exact if_pos hshallow
    · obtain ⟨obj, hobj, hparent⟩ := hc.resolve_left hshallow
      refine (if_neg hshallow).trans ?_
      rw [hobj]
      simp only [bind, Except.bind, ofStore, Except.mapError, hparent]
      rfl
  | @up c p commits base hshallow hparent hwalks ih =>
    obtain ⟨obj, hobj, hparent⟩ := hparent
    rw [List.length_append, List.length_singleton] at hroom
    obtain ⟨room, rfl⟩ := Nat.exists_eq_add_one.2 (Nat.lt_of_lt_of_le (Nat.succ_pos _) hroom)
    rw [walkFrom, if_neg (hnot c (List.mem_append_right _ (List.mem_singleton_self c)))]
    rw [hcheck]
    refine (if_neg hshallow).trans ?_
    rw [hobj]
    simp only [bind, Except.bind, ofStore, Except.mapError, hparent]
    rw [ih (Nat.le_of_succ_le_succ hroom) (fun c hc => hnot c (List.mem_append_left _ hc)) hbase,
      List.append_assoc]
    rfl

/-- What is held of a member of a closure is its closure. -/
theorem heldClosure_of_mem {h : Hash} {T held : Finset Hash} (hT : IsClosure B store h T)
    (ha : a ∈ T) (hrun : heldClosure B store (some a) = .ok held) : IsClosure B store a held := by
  obtain ⟨S, -, hS⟩ := hT.of_mem ha
  rcases heldClosure_eq_ok hrun with ⟨-, hmissing⟩ | ⟨r, hr, hclosure⟩
  · obtain ⟨cut, hchecked, -⟩ := hS.checked
    obtain ⟨hex, herror⟩ := hmissing a rfl (hT.contains ha)
    exact nomatch hchecked.symm.trans herror
  · exact Option.some.inj hr ▸ hclosure

/-- **What the chain is**: the first parents down to what the remote holds, and the closure of
the commit it ends at. -/
theorem walkChain_eq_ok {tip : Hash} {remote_tip : Option Hash} {chain : Chain}
    (h : walkChain B store ctl tip remote_tip = .ok chain) :
    ∃ held base, heldClosure B store remote_tip = .ok held ∧
      Walks B store ctl.shallow tip chain.commits base ∧ chain.commits.length ≤ ctl.max_chain ∧
      (∀ c ∈ chain.commits, c ∉ held) ∧ (∀ b ∈ base, b ∈ held) ∧
      (base = none ∧ chain.seed = ∅ ∨ ∃ b ∈ base, IsClosure B store b chain.seed) := by
  rw [walkChain, Wire.bind_eq_ok] at h
  obtain ⟨held, hheld, h⟩ := h
  rw [Wire.bind_eq_ok] at h
  obtain ⟨⟨commits, base⟩, hwalk, h⟩ := h
  dsimp only at h
  obtain ⟨seed, hseed, rfl⟩ : ∃ seed, (if base.isSome ∧ base = remote_tip then .ok held
      else heldClosure B store base) = .ok seed ∧ ⟨commits, seed⟩ = chain := by
    by_cases hsame : base.isSome ∧ base = remote_tip
    · rw [if_pos hsame] at h ⊢
      exact ⟨held, rfl, Except.ok.inj h⟩
    · rw [if_neg hsame, Wire.bind_eq_ok] at h
      rw [if_neg hsame]
      obtain ⟨seed, hseed, h⟩ := h
      exact ⟨seed, hseed, Except.ok.inj h⟩
  obtain ⟨above, habove, hwalks, hlength, hnot, hbase⟩ := walkFrom_eq_ok hwalk
  rw [List.append_nil] at habove
  subst habove
  refine ⟨held, base, hheld, hwalks, hlength, hnot, hbase, ?_⟩
  cases base with
  | none =>
    rw [if_neg fun h => nomatch h.1] at hseed
    rcases heldClosure_eq_ok hseed with ⟨rfl, -⟩ | ⟨r, hr, -⟩
    · exact .inl ⟨rfl, rfl⟩
    · exact nomatch hr
  | some b =>
    refine .inr ⟨b, rfl, ?_⟩
    rcases heldClosure_eq_ok hheld with ⟨rfl, -⟩ | ⟨r, hr, hclosure⟩
    · exact absurd (hbase b rfl) (Finset.notMem_empty b)
    · by_cases hsame : some b = remote_tip
      · rw [if_pos ⟨rfl, hsame⟩] at hseed
        obtain rfl := Except.ok.inj hseed
        obtain rfl := Option.some.inj (hsame.trans hr)
        exact hclosure
      · rw [if_neg fun h => hsame h.2] at hseed
        exact heldClosure_of_mem hclosure (hbase b rfl) hseed

section Facts

variable {shallow : Finset Hash} {x : Hash} {commits : List Hash} {base : Option Hash}

/-- What is above a commit of the walk is found by a walk down to it. -/
theorem Walks.above {below above : List Hash} {c : Hash}
    (h : Walks B store shallow x (below ++ c :: above) base) :
    Walks B store shallow x above (some c) := by
  generalize hcommits : below ++ c :: above = commits at h
  induction h generalizing above with
  | held x => simp at hcommits
  | @ends x hx =>
    rw [List.append_eq_singleton_iff] at hcommits
    rcases hcommits with ⟨-, hcons⟩ | ⟨-, hcons⟩
    · obtain ⟨rfl, rfl⟩ := List.cons.inj hcons
      exact .held c
    · exact nomatch hcons
  | @up x p commits base hshallow hparent hwalks ih =>
    rcases List.eq_nil_or_concat' above with rfl | ⟨above, last, rfl⟩
    · obtain ⟨-, hlast⟩ := List.append_inj' hcommits rfl
      obtain rfl := List.singleton_injective hlast
      exact .held c
    · have hsplit : (below ++ c :: above) ++ [last] = commits ++ [x] := by
        rw [← hcommits]
        simp
      obtain ⟨hrest, hlast⟩ := List.append_inj' hsplit rfl
      obtain rfl := List.singleton_injective hlast
      exact .up hshallow hparent (ih hrest)

/-- A walk that finds nothing new is where it began. -/
theorem Walks.base_eq (h : Walks B store shallow x [] base) : base = some x := by
  generalize hcommits : [] = commits at h
  cases h with
  | held => rfl
  | ends => exact nomatch hcommits
  | up => simp at hcommits

/-- The walk ends at the commit it began with. -/
theorem Walks.getLast?_eq (h : Walks B store shallow x commits base) (hne : commits ≠ []) :
    commits.getLast? = some x := by
  cases h with
  | held => exact absurd rfl hne
  | ends => rfl
  | up => simp

/-- Each commit of the walk is the first parent of the next. -/
theorem Walks.isChain (h : Walks B store shallow x commits base) :
    commits.IsChain fun a b => FirstParentOf B store b a := by
  induction h with
  | held => exact .nil
  | ends => exact .singleton _
  | @up c p commits base hshallow hparent hwalks ih =>
    refine ih.append (.singleton c) fun a ha b hb => ?_
    rw [List.head?_cons, Option.mem_some_iff] at hb
    subst hb
    by_cases hne : commits = []
    · subst hne
      exact nomatch ha
    · obtain rfl := Option.some.inj ((hwalks.getLast?_eq hne).symm.trans ha)
      exact hparent

/-- An older commit of the walk is below every newer one. -/
theorem Walks.pairwise (h : Walks B store shallow x commits base) :
    commits.Pairwise fun a b => TransGen (FirstParentOf B store) b a := by
  have htrans : IsTrans Hash fun a b => TransGen (FirstParentOf B store) b a :=
    ⟨fun _ _ _ hba hcb => hcb.trans hba⟩
  exact (h.isChain.imp fun _ _ hab => .single hab).pairwise

/-- The oldest commit of the walk is above what it ends at. -/
theorem Walks.head_above (h : Walks B store shallow x commits base) :
    ∀ b ∈ base, ∀ c ∈ commits.head?, FirstParentOf B store c b := by
  induction h with
  | held => exact fun b _ c hc => nomatch hc
  | ends => exact fun b hb => nomatch hb
  | @up x p commits base hshallow hparent hwalks ih =>
    intro b hb c hc
    by_cases hne : commits = []
    · subst hne
      obtain rfl : x = c := Option.some.inj hc
      obtain rfl := Option.some.inj (hwalks.base_eq.symm.trans hb)
      exact hparent
    · rw [List.head?_append_of_ne_nil _ hne] at hc
      exact ih b hb c hc

end Facts

end Walking

/-! ### Sweeping -/

section Sweeping

variable {B : Blake3} {store : ObjectStore} {ctl : PushControl}

/-- Where the count is saturated in the end, it may be so on the way. -/
theorem min_saturatingAdd (a b c : ℕ) :
    min (saturatingAdd a b + c) U64_MAX = min (a + b + c) U64_MAX := by
  rw [saturatingAdd]
  generalize U64_MAX = top
  omega

/-- The size of a set of objects, frames included. -/
def weight (s : ObjectStore) (T : Finset Hash) : ℕ :=
  ∑ a ∈ T, (s.fileLen a + ENTRY_FRAME_LEN)

variable {s : ObjectStore} {S T : Finset Hash}

/-- Of what is above a set the weight is what is between, and above what is between. -/
theorem weight_sdiff_add {R : Finset Hash} (hRS : R ⊆ S) (hST : S ⊆ T) :
    weight s (S \ R) + weight s (T \ S) = weight s (T \ R) := by
  have hunion : (S \ R) ∪ (T \ S) = T \ R := by
    ext a
    have h1 := @hRS a
    have h2 := @hST a
    simp only [Finset.mem_union, Finset.mem_sdiff]
    tauto
  have hdisjoint : Disjoint (S \ R) (T \ S) := by
    rw [Finset.disjoint_left]
    intro a ha hb
    exact (Finset.mem_sdiff.1 hb).2 (Finset.mem_sdiff.1 ha).1
  rw [weight, weight, weight, ← hunion, Finset.sum_union hdisjoint]

theorem weight_mono (h : S ⊆ T) : weight s S ≤ weight s T :=
  Finset.sum_le_sum_of_subset h

/-- What a sweep from `roots` has done when it has gone from `seen` to `grown`: it has read what
is new, and followed it. -/
structure Swept (B : Blake3) (store : ObjectStore) (ctl : PushControl) (roots : List Hash)
    (seen grown : Finset Hash) : Prop where
  subset : seen ⊆ grown
  roots_mem : ∀ a ∈ roots, a ∈ grown
  closed : ∀ a ∈ grown, a ∉ seen →
    ∃ cs, splitSuccessors B store ctl a = .ok cs ∧ ∀ b ∈ cs, b ∈ grown
  reached : ∀ a ∈ grown, a ∈ seen ∨ Reach (Edge (splitSuccessors B store ctl)) (· ∈ roots) a

variable {ctl' : PushControl}

/-- Only the shallow commits of a control matter to a sweep. -/
theorem splitSuccessors_congr (h : ctl'.shallow = ctl.shallow) (a : Hash) :
    splitSuccessors B store ctl' a = splitSuccessors B store ctl a := by
  rw [splitSuccessors, splitSuccessors, h]

/-- A sweep that takes the first new object goes on from what that leads to. -/
theorem Swept.take {stack rest next : List Hash} {seen grown : Finset Hash} {hash : Hash}
    (hq : stack.dropWhile (· ∈ seen) = hash :: rest)
    (hnext : splitSuccessors B store ctl hash = .ok next)
    (h : Swept B store ctl (next.reverse ++ rest) (insert hash seen) grown) :
    Swept B store ctl stack seen grown where
  subset := (Finset.subset_insert _ _).trans h.subset
  roots_mem := fun a ha => by
    rcases mem_of_mem_dropWhile hq ha with ha | ha
    · exact h.subset (Finset.mem_insert_of_mem ha)
    · rcases List.mem_cons.1 ha with rfl | ha
      · exact h.subset (Finset.mem_insert_self _ _)
      · exact h.roots_mem a (List.mem_append_right _ ha)
  closed := fun a ha hnot => by
    by_cases heq : a = hash
    · subst heq
      exact ⟨next, hnext, fun b hb =>
        h.roots_mem b (List.mem_append_left _ (List.mem_reverse.2 hb))⟩
    · exact h.closed a ha fun hin => (Finset.mem_insert.1 hin).elim heq hnot
  reached := fun a ha => by
    have hsub : ∀ x ∈ hash :: rest, Reach (Edge (splitSuccessors B store ctl)) (· ∈ stack) x :=
      fun x hx => .start ((List.dropWhile_suffix _).subset (hq ▸ hx))
    have hhash := hsub hash List.mem_cons_self
    rcases h.reached a ha with ha | ha
    · exact (Finset.mem_insert.1 ha).elim (fun heq => .inr (heq ▸ hhash)) .inl
    · refine .inr (ha.mem_of_closed (fun x hx => ?_) fun x y hx he => hx.step he)
      rcases List.mem_append.1 hx with hx | hx
      · exact hhash.step ⟨next, hnext, List.mem_reverse.1 hx⟩
      · exact hsub x (List.mem_cons_of_mem _ hx)

/-- A sweep with nothing new to see is done. -/
theorem sweep_of_seen {room : ℕ} {stack : List Hash} {seen : Finset Hash}
    (hempty : stack.dropWhile (· ∈ seen) = []) :
    Swept B store ctl stack seen seen ∧ seen.card ≤ seen.card + room ∧
      ∀ ctl' : PushControl, ctl'.shallow = ctl.shallow → ∀ start ≤ U64_MAX,
        sweep B store ctl' room stack seen start =
          .ok (seen, min (start + weight store (seen \ seen)) U64_MAX) := by
  refine ⟨⟨subset_rfl, fun a ha => ?_, fun a ha hnot => absurd ha hnot, fun a => .inl⟩,
    Nat.le_add_right _ _, fun ctl' _ start hstart => ?_⟩
  · exact (mem_of_mem_dropWhile hempty ha).resolve_right List.not_mem_nil
  · have hzero : min (start + weight store (seen \ seen)) U64_MAX = start := by
      rw [Finset.sdiff_self, weight, Finset.sum_empty, Nat.add_zero, min_eq_left hstart]
    cases room <;> rw [sweep, hempty, hzero]

/-- **What a sweep does**, wherever the count begins. -/
theorem sweep_eq_ok {room : ℕ} {stack : List Hash} {seen grown : Finset Hash} {total total' : ℕ}
    (h : sweep B store ctl room stack seen total = .ok (grown, total')) :
    Swept B store ctl stack seen grown ∧ grown.card ≤ seen.card + room ∧
      ∀ ctl' : PushControl, ctl'.shallow = ctl.shallow → ∀ start ≤ U64_MAX,
        sweep B store ctl' room stack seen start =
          .ok (grown, min (start + weight store (grown \ seen)) U64_MAX) := by
  induction room generalizing stack seen total with
  | zero =>
    rw [sweep] at h
    split at h
    · rename_i hempty
      obtain ⟨rfl, -⟩ := Prod.mk.inj (Except.ok.inj h)
      exact sweep_of_seen hempty
    · exact nomatch h
  | succ room ih =>
    rw [sweep] at h
    split at h
    · rename_i hempty
      obtain ⟨rfl, -⟩ := Prod.mk.inj (Except.ok.inj h)
      exact sweep_of_seen hempty
    · rename_i hash rest hq
      rw [Wire.bind_eq_ok] at h
      obtain ⟨len, hlen, h⟩ := h
      rw [Wire.bind_eq_ok] at h
      obtain ⟨next, hnext, h⟩ := h
      rw [ofStore_eq_ok] at hlen hnext
      obtain ⟨hswept, hcard, hrun⟩ := ih h
      have hnew : hash ∉ seen := notMem_of_dropWhile hq
      rw [Finset.card_insert_of_notMem hnew] at hcard
      refine ⟨hswept.take hq hnext, by omega, fun ctl' hctl start hstart => ?_⟩
      rw [sweep, hq]
      dsimp only
      rw [hlen, splitSuccessors_congr hctl, hnext]
      change sweep B store ctl' room _ _ (saturatingAdd _ _) = _
      rw [hrun ctl' hctl (saturatingAdd (saturatingAdd start len) ENTRY_FRAME_LEN)
        (min_le_right _ _)]
      have hone : weight store (insert hash seen \ seen) = len + ENTRY_FRAME_LEN := by
        rw [Finset.insert_sdiff_cancel hnew, weight, Finset.sum_singleton,
          ObjectStore.fileLen, hlen]
        rfl
      have hsplit := weight_sdiff_add (s := store) (Finset.subset_insert hash seen) hswept.subset
      rw [hone] at hsplit
      rw [← hsplit, min_saturatingAdd, Nat.add_assoc (saturatingAdd _ _), min_saturatingAdd,
        Nat.add_assoc start, Nat.add_assoc len]

/-- What has been seen after each commit of a list, swept one after another. The equations say so
for every control with these shallow commits, wherever the count begins. -/
inductive Sweeps (B : Blake3) (store : ObjectStore) (ctl : PushControl) :
    Finset Hash → List Hash → List (Finset Hash) → Prop
  | nil (seen : Finset Hash) : Sweeps B store ctl seen [] []
  | cons {seen grown : Finset Hash} {commit : Hash} {commits : List Hash}
      {sets : List (Finset Hash)} :
      Swept B store ctl [commit] seen grown → grown.card ≤ MAX_REACHABLE →
      (∀ ctl' : PushControl, ctl'.shallow = ctl.shallow → ∀ start ≤ U64_MAX,
        sweep B store ctl' (MAX_REACHABLE - seen.card) [commit] seen start =
          .ok (grown, min (start + weight store (grown \ seen)) U64_MAX)) →
      Sweeps B store ctl grown commits sets →
      Sweeps B store ctl seen (commit :: commits) (grown :: sets)

variable {sets : List (Finset Hash)}

theorem Sweeps.length_eq {seen : Finset Hash} {commits : List Hash}
    (h : Sweeps B store ctl seen commits sets) : sets.length = commits.length := by
  induction h with
  | nil => rfl
  | cons _ _ _ _ ih => rw [List.length_cons, List.length_cons, ih]

/-- What is seen stays seen. -/
theorem Sweeps.isChain {seen : Finset Hash} {commits : List Hash}
    (h : Sweeps B store ctl seen commits sets) : (seen :: sets).IsChain (· ⊆ ·) := by
  induction h with
  | nil => exact .singleton _
  | cons hswept _ _ _ ih => exact .cons_cons hswept.subset ih

theorem Sweeps.pairwise {seen : Finset Hash} {commits : List Hash}
    (h : Sweeps B store ctl seen commits sets) : (seen :: sets).Pairwise (· ⊆ ·) :=
  h.isChain.pairwise

/-- What is behind a commit is swept from what has been seen with it. -/
theorem Sweeps.drop {seen : Finset Hash} {commits : List Hash}
    (h : Sweeps B store ctl seen commits sets) (d : ℕ) (hd : d ≤ sets.length) :
    Sweeps B store ctl ((seen :: sets).getD d ∅) (commits.drop d) (sets.drop d) := by
  induction d generalizing seen commits sets with
  | zero => exact h
  | succ d ih =>
    cases h with
    | nil => exact absurd hd (Nat.not_succ_le_zero d)
    | cons _ _ _ hrest => exact ih hrest (Nat.le_of_succ_le_succ hd)

/-- The counts along a sweep, from a count to begin with. -/
def counts (store : ObjectStore) (start : ℕ) (seen : Finset Hash) (sets : List (Finset Hash)) :
    List ℕ :=
  sets.map fun T => min (start + weight store (T \ seen)) U64_MAX

theorem counts_cons {start : ℕ} {seen grown : Finset Hash}
    (h : (seen :: grown :: sets).Pairwise (· ⊆ ·)) : counts store start seen (grown :: sets) =
      min (start + weight store (grown \ seen)) U64_MAX ::
        counts store (min (start + weight store (grown \ seen)) U64_MAX) grown sets := by
  rw [counts, List.map_cons, counts]
  refine congrArg _ (List.map_congr_left fun T hT => ?_)
  obtain ⟨hseen, hrest⟩ := List.pairwise_cons.1 h
  have hsplit := weight_sdiff_add (s := store) (hseen grown List.mem_cons_self)
    ((List.pairwise_cons.1 hrest).1 T hT)
  rw [← hsplit]
  generalize U64_MAX = top
  omega

theorem cumulativeFrom_of_sweeps (hctl : ctl'.shallow = ctl.shallow)
    (hcancel : ∀ c, ctl'.cancelled c = false) {commits : List Hash} {seen : Finset Hash}
    (h : Sweeps B store ctl seen commits sets) (j : ℕ) {start : ℕ} (hstart : start ≤ U64_MAX) :
    cumulativeFrom B store ctl' commits j seen start = .ok (counts store start seen sets) := by
  induction h generalizing j start with
  | nil => rfl
  | cons hswept hcard hrun hrest ih =>
    rw [cumulativeFrom, checkpoint_of_not (hcancel _)]
    dsimp only
    rw [counts_cons (Sweeps.cons hswept hcard hrun hrest).pairwise]
    refine Wire.bind_eq_ok.2 ⟨(), rfl, Wire.bind_eq_ok.2 ⟨_, hrun ctl' hctl start hstart, ?_⟩⟩
    exact Wire.bind_eq_ok.2 ⟨_, ih (j + 1) (min_le_right _ _), rfl⟩

/-- **What the weights count.** -/
theorem cumulativeFrom_eq_ok {commits : List Hash} {j : ℕ} {seen : Finset Hash} {total : ℕ}
    {weights : List ℕ} (hseen : seen.card ≤ MAX_REACHABLE) (htotal : total ≤ U64_MAX)
    (h : cumulativeFrom B store ctl commits j seen total = .ok weights) :
    ∃ sets, Sweeps B store ctl seen commits sets ∧ weights = counts store total seen sets := by
  induction commits generalizing j seen total weights with
  | nil => exact ⟨[], .nil seen, (Except.ok.inj h).symm⟩
  | cons commit commits ih =>
    rw [cumulativeFrom, Wire.bind_eq_ok] at h
    obtain ⟨-, -, h⟩ := h
    rw [Wire.bind_eq_ok] at h
    obtain ⟨⟨grown, total'⟩, hsweep, h⟩ := h
    dsimp only at h
    rw [Wire.bind_eq_ok] at h
    obtain ⟨rest, hrest, h⟩ := h
    obtain rfl := Except.ok.inj h
    obtain ⟨hswept, hcard, hrun⟩ := sweep_eq_ok hsweep
    obtain ⟨-, rfl⟩ := Prod.mk.inj (Except.ok.inj (hsweep.symm.trans (hrun ctl rfl total htotal)))
    have hcard : grown.card ≤ MAX_REACHABLE := by omega
    obtain ⟨sets, hsweeps, rfl⟩ := ih hcard (min_le_right _ _) hrest
    have hsweeps := Sweeps.cons hswept hcard hrun hsweeps
    exact ⟨grown :: sets, hsweeps, (counts_cons hsweeps.pairwise).symm⟩

/-- What is seen below a commit: the closure of its first parent, or nothing. -/
def Below (B : Blake3) (store : ObjectStore) (seen : Finset Hash) (c : Hash) : Prop :=
  seen = ∅ ∨ ∃ p, FirstParentOf B store c p ∧ IsClosure B store p seen

/-- Where no parents are left out, a sweep from a commit above a closure completes the closure of
the commit. -/
theorem isClosure_of_swept {c : Hash} {seen grown : Finset Hash} (hbelow : Below B store seen c)
    (hswept : Swept B store ctl [c] seen grown) (hcard : grown.card ≤ MAX_REACHABLE)
    (hsplit : ∀ a, Reaches B store c a →
      splitSuccessors B store ctl a = successors B .history store a) :
    IsClosure B store c grown := by
  have hseen : ∀ a ∈ seen, Reaches B store c a ∧
      (∃ cs, successors B .history store a = .ok cs) ∧
      ∀ b, RefersTo B .history store a b → b ∈ seen := by
    rcases hbelow with rfl | ⟨p, hp, hclosure⟩
    · exact fun a ha => absurd ha (Finset.notMem_empty a)
    · intro a ha
      have hpa := (hclosure.mem a).1 ha
      exact ⟨.head (refersTo_of_historyParent hp.historyParent) hpa, hclosure.reads a ha,
        fun b hb => (hclosure.mem b).2 (hpa.tail hb)⟩
  have hreach : ∀ a ∈ grown, Reaches B store c a := by
    intro a ha
    rcases hswept.reached a ha with ha | ha
    · exact (hseen a ha).1
    · refine ha.mem_of_closed (fun x hx => List.mem_singleton.1 hx ▸ .refl) fun x y hx he => ?_
      rw [Edge, hsplit x hx] at he
      exact hx.tail (refersTo_of_edge he)
  have hreads : ∀ a ∈ grown, (∃ cs, successors B .history store a = .ok cs) ∧
      ∀ b, RefersTo B .history store a b → b ∈ grown := by
    intro a ha
    by_cases hold : a ∈ seen
    · exact ⟨(hseen a hold).2.1, fun b hb => hswept.subset ((hseen a hold).2.2 b hb)⟩
    · obtain ⟨cs, hcs, hall⟩ := hswept.closed a ha hold
      rw [hsplit a (hreach a ha)] at hcs
      refine ⟨⟨cs, hcs⟩, fun b hb => ?_⟩
      obtain ⟨cs', hcs', hb⟩ := (edge_successors ⟨cs, hcs⟩).2 hb
      obtain rfl := Except.ok.inj (hcs.symm.trans hcs')
      exact hall b hb
  refine ⟨fun a => ⟨hreach a, fun ha => ?_⟩, fun a ha => (hreads a ha).1, hcard⟩
  induction ha with
  | refl => exact hswept.roots_mem c (List.mem_singleton_self c)
  | tail _ he ih => exact (hreads _ ih).2 _ he

/-- Along a line of first parents, what is seen with each commit is its closure. -/
theorem Sweeps.closures {seen : Finset Hash} {commits : List Hash}
    (h : Sweeps B store ctl seen commits sets) (hbelow : ∀ c ∈ commits.head?, Below B store seen c)
    (hchain : commits.IsChain fun a b => FirstParentOf B store b a)
    (hsplit : ∀ c ∈ commits, ∀ a, Reaches B store c a →
      splitSuccessors B store ctl a = successors B .history store a) :
    List.Forall₂ (IsClosure B store) commits sets := by
  induction h with
  | nil => exact .nil
  | @cons seen grown commit commits sets hswept hcard hrun hrest ih =>
    have hclosure : IsClosure B store commit grown :=
      isClosure_of_swept (hbelow commit rfl) hswept hcard (hsplit commit List.mem_cons_self)
    rw [List.isChain_cons] at hchain
    refine .cons hclosure (ih (fun c hc => .inr ⟨commit, hchain.1 c hc, hclosure⟩) hchain.2
      fun c hc => hsplit c (List.mem_cons_of_mem _ hc))

end Sweeping

end Mkit.PushSplit
