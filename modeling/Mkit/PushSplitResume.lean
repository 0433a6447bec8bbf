import Mkit.PushSplitSteps

/-!
# Resuming a Split

A push that was interrupted behind one of its steps is planned again, with that step as the remote
head. The chain is then what is left of the first chain (`Rests`), every position moved by the same
number, and so is what has been seen and what it weighs. Each cut is where it was, so the steps are
those that were left.

## Main results

* `measured_of_run` — what a run has measured: closures along the chain, and their weights;
* `Rests.cut`, `Rests.stepsFrom` — the rest of a chain is cut where the whole chain was;
* `rests_of_run` — planning again from a step finds the rest of the chain.
-/

namespace Mkit.PushSplit

open BinarySearch Closure Gathering Pack Relation Transfer

/-! ### What a run measures -/

section Running

variable {B : Blake3} {store : ObjectStore} {ctl : PushControl} {tip : Hash}
  {remote_tip : Option Hash} {chain : Chain}

/-- At a commit without parents it makes no difference that it is shallow. -/
theorem splitSuccessors_eq {a : Hash}
    (hshallow : a ∈ ctl.shallow → ∀ p, ¬ HistoryParent B store a p) :
    splitSuccessors B store ctl a = successors B .history store a := by
  rw [splitSuccessors]
  by_cases ha : a ∈ ctl.shallow
  · rw [if_pos ha, successors, successors]
    rcases hread : store.readObject B a with e | obj
    · rfl
    · have hnone : historyParents obj = [] :=
        List.eq_nil_iff_forall_not_mem.2 fun p hp => hshallow ha p ⟨obj, hread, hp⟩
      have hchildren : children obj .snapshot = children obj .history := by
        cases obj with
        | commit c =>
          change _ = c.tree_hash :: c.parents
          rw [show c.parents = [] from hnone]
          rfl
        | remix r =>
          change _ = r.tree_hash :: r.parents
          rw [show r.parents = [] from hnone]
          rfl
        | _ => rfl
      change (store.objectType a >>= fun ty : ObjectType =>
        if ty.isLeaf then pure [] else pure (children obj .snapshot)) = _
      rw [hchildren]
      rfl
  · rw [if_neg ha]

/-- The weight of what can be enumerated is not saturated. -/
theorem weight_le (hsize : ∀ h, store.fileLen h ≤ MAX_RAW_OBJECT_SIZE) {T : Finset Hash}
    (hcard : T.card ≤ MAX_REACHABLE) : weight store T ≤ U64_MAX := by
  calc weight store T ≤ T.card • (MAX_RAW_OBJECT_SIZE + ENTRY_FRAME_LEN) :=
        Finset.sum_le_card_nsmul T _ _ fun a _ => Nat.add_le_add_right (hsize a) _
    _ ≤ MAX_REACHABLE * (MAX_RAW_OBJECT_SIZE + ENTRY_FRAME_LEN) := Nat.mul_le_mul_right _ hcard
    _ ≤ U64_MAX := by decide

/-- What the chain holds is below the tip. -/
theorem firstParents_of_walks {shallow : Finset Hash} {commits : List Hash} {base : Option Hash}
    (h : Walks B store shallow tip commits base) {a : Hash} (ha : a ∈ commits) :
    ReflTransGen (FirstParentOf B store) tip a := by
  induction h with
  | held => exact absurd ha List.not_mem_nil
  | ends => exact List.mem_singleton.1 ha ▸ .refl
  | up _ hparent _ ih =>
    rcases List.mem_append.1 ha with ha | ha
    · exact .head hparent (ih ha)
    · exact List.mem_singleton.1 ha ▸ .refl

theorem refersTo_of_firstParent {a b : Hash} (h : FirstParentOf B store a b) :
    RefersTo B .history store a b :=
  refersTo_of_historyParent h.historyParent

/-- **What a run measures.** Where no commit that the tip reaches is cut off from its parents, the
sets along the chain are the closures of its commits, and the weights are their sizes. -/
theorem measured_of_run {c : Cutter} (hsize : ∀ h, store.fileLen h ≤ MAX_RAW_OBJECT_SIZE)
    (hshallow : ∀ a ∈ ctl.shallow, Reaches B store tip a → ∀ p, ¬ HistoryParent B store a p)
    (hwalk : walkChain B store ctl tip c.remote_tip = .ok c.chain)
    (hweights : cumulativeWeights B store ctl c.chain = .ok c.weights) :
    ∃ rest, Sweeps B store ctl c.chain.seed c.chain.commits rest ∧
      Measured B store c (c.chain.seed :: rest) := by
  obtain ⟨held, base, hheld, hwalks, -, hnot, hbase, hseed⟩ := walkChain_eq_ok hwalk
  have hcard : c.chain.seed.card ≤ MAX_REACHABLE := by
    rcases hseed with ⟨-, hempty⟩ | ⟨b, -, hclosure⟩
    · rw [hempty]
      exact Nat.zero_le _
    · exact hclosure.small
  rw [cumulativeWeights, Wire.bind_eq_ok] at hweights
  obtain ⟨counted, hcounted, hweights⟩ := hweights
  obtain ⟨rest, hsweeps, rfl⟩ := cumulativeFrom_eq_ok hcard (Nat.zero_le _) hcounted
  have hbelow : ∀ a ∈ c.chain.commits.head?, Below B store c.chain.seed a := by
    intro a ha
    rcases hseed with ⟨-, hempty⟩ | ⟨b, hb, hclosure⟩
    · exact .inl hempty
    · exact .inr ⟨b, hwalks.head_above b hb a ha, hclosure⟩
  have hclosures := hsweeps.closures hbelow hwalks.isChain fun a ha x hx =>
    splitSuccessors_eq fun hmem =>
      hshallow x hmem ((ReflTransGen.mono (fun _ _ => refersTo_of_firstParent) _ _
        (firstParents_of_walks hwalks ha)).trans hx)
  have hsmall : ∀ T ∈ c.chain.seed :: rest, weight store T ≤ U64_MAX := by
    intro T hT
    rcases List.mem_cons.1 hT with rfl | hT
    · exact weight_le hsize hcard
    · exact weight_le hsize
        (forall_mem_of_forall₂ (hclosures.imp fun _ _ hclosure => hclosure.small) T hT)
  refine ⟨rest, hsweeps, ?_, ?_, hsweeps.pairwise, fun j hpos hj => ?_,
    fun new T base_map have_old hremote => ?_, hsmall⟩
  · rw [List.length_cons, hsweeps.length_eq]
  · rw [← Except.ok.inj hweights, List.map_cons, List.getD_cons_zero, Finset.sdiff_self, weight,
      Finset.sum_empty, counts]
    refine congrArg _ (List.map_congr_left fun T hT => ?_)
    rw [Nat.zero_add]
    exact min_eq_left
      ((weight_mono Finset.sdiff_subset).trans (hsmall T (List.mem_cons_of_mem _ hT)))
  · obtain ⟨i, rfl⟩ := Nat.exists_eq_add_one.2 hpos
    have hi : i < rest.length := hsweeps.length_eq ▸ hj
    rw [Chain.commit, Nat.add_sub_cancel, List.getD_cons_succ, List.getD_eq_getElem _ _ hj,
      List.getD_eq_getElem _ _ hi]
    exact hclosures.get hj hi
  · rw [List.getD_cons_zero]
    rcases hseed with ⟨-, hempty⟩ | ⟨b, hb, hclosure⟩
    · rw [hempty]
      exact Finset.empty_subset T
    · rcases heldClosure_eq_ok hheld with ⟨rfl, -⟩ | ⟨r, hr, hremote_closure⟩
      · exact absurd (hbase b hb) (Finset.notMem_empty b)
      · rw [Option.mem_def.1 hr] at hremote
        rw [remoteSide_of_closure hremote_closure hremote]
        exact hclosure.subset hremote_closure ((hremote_closure.mem b).1 (hbase b hb))

end Running

/-! ### The rest of a chain -/

section Resting

variable {B : Blake3} {Z : Zstd} {fanout : ℕ} {store : ObjectStore} {ctl ctl' : PushControl}
  {c c' : Cutter} {d start stop : ℕ}

/-- A second cutter for the rest of a chain, from a position on. -/
structure Rests (c c' : Cutter) (d : ℕ) : Prop where
  pos : 0 < d
  lt : d < c.chain.commits.length
  length_eq : c.weights.length = c.chain.commits.length + 1
  ascending : c.weights.Pairwise (· ≤ ·)
  small : ∀ w ∈ c.weights, w ≤ U64_MAX
  commits_eq : c'.chain.commits = c.chain.commits.drop d
  weights_eq : c'.weights = (c.weights.drop d).map (· - c.weights.getD d 0)
  remote_eq : c'.remote_tip = some (c.chain.commit d)
  limits_eq : c'.limits = c.limits
  cap_eq : c'.cap = c.cap
  budget_eq : c'.budget = c.budget
  must_reach_le : c'.must_reach ≤ 1

theorem Rests.length_add (h : Rests c c' d) :
    d + c'.chain.commits.length = c.chain.commits.length := by
  have hlt := h.lt
  rw [h.commits_eq, List.length_drop]
  omega

theorem Rests.length_eq' (h : Rests c c' d) : c'.weights.length = c'.chain.commits.length + 1 := by
  have hlength := h.length_eq
  have hadd := h.length_add
  rw [h.weights_eq, List.length_map, List.length_drop]
  omega

theorem Rests.commit_eq (h : Rests c c' d) (hstop : 0 < stop) :
    c.chain.commit (d + stop) = c'.chain.commit stop := by
  rw [Chain.commit, Chain.commit, h.commits_eq, List.getD_eq_getElem?_getD,
    List.getD_eq_getElem?_getD, List.getElem?_drop, Nat.add_sub_assoc hstop]

theorem Rests.base_eq (h : Rests c c' d) (start : ℕ) : c.base (d + start) = c'.base start := by
  have hpos := h.pos
  rw [Cutter.base, Cutter.base, if_neg (by omega)]
  split
  · rename_i hzero
    rw [hzero, h.remote_eq]
    rfl
  · rename_i hne
    rw [h.commit_eq (Nat.pos_of_ne_zero hne)]

theorem Rests.weight_at (h : Rests c c' d) (m : ℕ) :
    c'.weights.getD m 0 = c.weights.getD (d + m) 0 - c.weights.getD d 0 := by
  rw [h.weights_eq]
  generalize c.weights.getD d 0 = low
  rw [List.getD_eq_getElem?_getD, List.getElem?_map, List.getElem?_drop,
    List.getD_eq_getElem?_getD]
  cases c.weights[d + m]? with
  | none => exact (Nat.zero_sub _).symm
  | some w => rfl

/-- The weights ascend. -/
theorem Rests.weight_mono (h : Rests c c' d) {i j : ℕ} (hij : i ≤ j)
    (hj : j ≤ c.chain.commits.length) : c.weights.getD i 0 ≤ c.weights.getD j 0 := by
  have hlt : j < c.weights.length := h.length_eq ▸ Nat.lt_succ_of_le hj
  rcases Nat.eq_or_lt_of_le hij with rfl | hlt'
  · exact le_rfl
  · rw [List.getD_eq_getElem _ _ hlt, List.getD_eq_getElem _ _ (hlt'.trans hlt)]
    exact List.pairwise_iff_getElem.1 h.ascending i j _ hlt hlt'

theorem Rests.weight_le (h : Rests c c' d) {j : ℕ} (hj : j ≤ c.chain.commits.length) :
    c.weights.getD j 0 ≤ U64_MAX := by
  have hlt : j < c.weights.length := h.length_eq ▸ Nat.lt_succ_of_le hj
  rw [List.getD_eq_getElem _ _ hlt]
  exact h.small _ (List.getElem_mem hlt)

/-- A leading run that is moved by a function is as long as before. -/
theorem length_takeWhile_map {f : ℕ → ℕ} {p q : ℕ → Bool} {l : List ℕ}
    (h : ∀ w ∈ l, q (f w) = p w) : ((l.map f).takeWhile q).length = (l.takeWhile p).length := by
  induction l with
  | nil => rfl
  | cons w l ih =>
    obtain ⟨hw, hrest⟩ := List.forall_mem_cons.1 h
    rw [List.map_cons, List.takeWhile_cons, List.takeWhile_cons, hw]
    split
    · rw [List.length_cons, List.length_cons, ih hrest]
    · rfl

/-- Where a weight ends does not depend on where the chain began. -/
theorem Rests.furthest_eq (h : Rests c c' d) (hstart : start < c'.chain.commits.length)
    (limit : ℕ) : c.furthest (d + start) limit = d + c'.furthest start limit := by
  have hadd := h.length_add
  have hlength := h.length_eq
  have hlength' := h.length_eq'
  have hstart_le : d + start ≤ c.chain.commits.length := by omega
  have hbase := h.weight_mono (Nat.le_add_right d start) hstart_le
  have htop := h.weight_le hstart_le
  have hlow : ∀ w ∈ c.weights.take d, w ≤ c.weights.getD (d + start) 0 := by
    intro w hw
    obtain ⟨i, hi, rfl⟩ := List.getElem_of_mem hw
    rw [List.length_take] at hi
    rw [List.getElem_take, ← List.getD_eq_getElem _ 0]
    exact h.weight_mono (by omega) hstart_le
  have hhigh : ∀ w ∈ c.weights.drop d, c.weights.getD d 0 ≤ w ∧ w ≤ U64_MAX := by
    intro w hw
    obtain ⟨i, hi, rfl⟩ := List.getElem_of_mem hw
    rw [List.length_drop] at hi
    rw [List.getElem_drop, ← List.getD_eq_getElem _ 0]
    exact ⟨h.weight_mono (by omega) (by omega), h.weight_le (by omega)⟩
  have hbound : ∀ w, c.weights.getD d 0 ≤ w → w ≤ U64_MAX →
      (w - c.weights.getD d 0 ≤ saturatingAdd (c'.weights.getD start 0) limit ↔
        w ≤ saturatingAdd (c.weights.getD (d + start) 0) limit) := by
    intro w hle hw
    rw [h.weight_at, saturatingAdd, saturatingAdd]
    generalize U64_MAX = top at hw htop ⊢
    omega
  have hfits : c.weights.getD (d + start) 0 ≤
      saturatingAdd (c.weights.getD (d + start) 0) limit := le_min (Nat.le_add_right _ _) htop
  have hcount : (c.weights.takeWhile
        (· ≤ saturatingAdd (c.weights.getD (d + start) 0) limit)).length =
      d + (c'.weights.takeWhile (· ≤ saturatingAdd (c'.weights.getD start 0) limit)).length := by
    have hsplit : (c.weights.take d ++ c.weights.drop d).takeWhile _ = _ :=
      List.takeWhile_append_of_pos fun w hw => decide_eq_true ((hlow w hw).trans hfits)
    rw [List.take_append_drop] at hsplit
    rw [hsplit, List.length_append, List.length_take, min_eq_left (by omega), h.weights_eq,
      length_takeWhile_map fun w hw => ?_]
    rw [← h.weights_eq, decide_eq_decide]
    exact hbound w (hhigh w hw).1 (hhigh w hw).2
  rw [Cutter.furthest, Cutter.furthest, hcount]
  omega

/-- What a step adds does not depend on it either. -/
theorem Rests.heavy_iff (h : Rests c c' d) (hle : start ≤ stop)
    (hstop : stop ≤ c'.chain.commits.length) :
    c'.Heavy start stop ↔ c.Heavy (d + start) (d + stop) := by
  have hadd := h.length_add
  have hlow := h.weight_mono (Nat.le_add_right d start) (by omega)
  have hhigh := h.weight_mono (Nat.add_le_add_left hle d) (by omega)
  rw [Cutter.Heavy, Cutter.Heavy, Cutter.floorWeight, Cutter.floorWeight, h.cap_eq, h.limits_eq,
    h.budget_eq, h.weight_at, h.weight_at]
  generalize saturatingMul _ _ = floor
  omega

theorem Rests.natural_eq (h : Rests c c' d) (hstart : start < c'.chain.commits.length) :
    c.natural (d + start) = d + c'.natural start := by
  rw [Cutter.natural, h.furthest_eq hstart, Cutter.natural, Cutter.floorWeight, Cutter.floorWeight,
    h.cap_eq, h.limits_eq, h.budget_eq]

/-- The first step of the rest reaches its remote head anyway. -/
theorem Rests.floor_eq_natural (h : Rests c c' d) (hstart : start < c'.chain.commits.length) :
    c'.floor start = c'.natural start := by
  obtain ⟨hlt, -⟩ := furthest_bounds h.length_eq' hstart c'.floorWeight
  have hmust := h.must_reach_le
  rw [Cutter.floor]
  split
  · rw [Cutter.natural]
    omega
  · rfl

theorem Rests.floor_eq (h : Rests c c' d) (hstart : start < c'.chain.commits.length) :
    c.floor (d + start) = d + c'.floor start := by
  have hpos := h.pos
  rw [h.floor_eq_natural hstart, ← h.natural_eq hstart, Cutter.floor, if_neg (by omega)]

theorem Rests.ceiling_eq (h : Rests c c' d) (hstart : start < c'.chain.commits.length) :
    c.ceiling (d + start) = d + c'.ceiling start := by
  rw [Cutter.ceiling, h.furthest_eq hstart, h.floor_eq hstart, Cutter.ceiling, h.cap_eq,
    h.limits_eq, h.budget_eq, Nat.add_max_add_left]

theorem Rests.probe_eq (h : Rests c c' d) (hstop : 0 < stop) :
    probe B store c (d + start) (d + stop) = probe B store c' start stop := by
  rw [probe, probe, h.base_eq, h.commit_eq hstop, h.cap_eq, h.limits_eq]

/-- **A cut of the rest** is where the cut of the whole chain was. -/
theorem Rests.cut (h : Rests c c' d) (hcancel : ∀ k, ctl'.cancelled k = false)
    (hstart : start < c'.chain.commits.length) {next : ℕ}
    (hcut : cut B Z fanout store ctl c (d + start) = .ok next) :
    ∃ next', next = d + next' ∧ PushSplit.cut B Z fanout store ctl' c' start = .ok next' := by
  have hadd := h.length_add
  have hpos := h.pos
  obtain ⟨hsearch, hverify⟩ := cut_eq_ok_iff.1 hcut
  rw [h.ceiling_eq hstart, h.floor_eq hstart, Nat.add_sub_add_left] at hsearch
  have htest : ∀ m b, c'.floor start < m → m ≤ c'.ceiling start →
      fitsAt B store ctl c (d + start) (d + m) = .ok b →
      fitsAt B store ctl' c' start m = .ok b := by
    intro m b hlow _ htest
    obtain ⟨-, plan, packs, hprobe, hpacks⟩ := fitsAt_eq_ok.1 htest
    rw [h.probe_eq (Nat.zero_lt_of_lt hlow)] at hprobe
    exact fitsAt_eq_ok.2 ⟨hcancel _, plan, packs, hprobe, h.budget_eq ▸ hpacks⟩
  obtain ⟨next', rfl, hsearch'⟩ := searchUp_shift htest hsearch
  refine ⟨next', rfl, cut_eq_ok_iff.2 ⟨hsearch', fun hfloor hheavy => ?_⟩⟩
  obtain ⟨hlt, hle⟩ := furthest_bounds h.length_eq' hstart c'.floorWeight
  have hnatural : next' = c'.natural start := hfloor.trans (h.floor_eq_natural hstart)
  have hnext : start < next' := hnatural ▸ hlt
  have hnext_le : next' ≤ c'.chain.commits.length := hnatural ▸ hle
  have hforced := hverify ((h.floor_eq hstart).trans (by rw [hfloor])).symm
    ((h.heavy_iff hnext.le hnext_le).1 hheavy)
  obtain ⟨-, plan, packs, hprobe, hpacks⟩ := verifyForced_eq_ok.1 hforced
  rw [h.probe_eq (Nat.zero_lt_of_lt hnext)] at hprobe
  refine verifyForced_eq_ok.2 ⟨hcancel _, plan, packs, hprobe, ?_⟩
  rw [h.budget_eq, h.cap_eq, h.limits_eq]
  refine hpacks.imp_right fun ⟨keys, hkeys⟩ => ⟨keys, ?_⟩
  simp only [hcancel]
  exact follows_buildAndUploadPacks plan keys hkeys

/-- **The steps of the rest** are those that were left. -/
theorem Rests.stepsFrom (h : Rests c c' d) (hcancel : ∀ k, ctl'.cancelled k = false)
    {room room' : ℕ} {steps : List Hash} (hroom : room ≤ room')
    (hsteps : stepsFrom B Z fanout store ctl c room (d + start) = .ok steps) :
    PushSplit.stepsFrom B Z fanout store ctl' c' room' start = .ok steps := by
  have hadd := h.length_add
  induction room generalizing start room' steps with
  | zero =>
    by_cases hlt : start < c'.chain.commits.length
    · rw [PushSplit.stepsFrom, if_pos (by omega)] at hsteps
      cases hsteps
    · rw [stepsFrom_of_ge (by omega)] at hsteps
      rwa [stepsFrom_of_ge hlt]
  | succ room ih =>
    by_cases hlt : start < c'.chain.commits.length
    · obtain ⟨room', rfl⟩ := Nat.exists_eq_add_one.2 (Nat.zero_lt_of_lt hroom)
      rw [PushSplit.stepsFrom, if_pos (by omega)] at hsteps
      obtain ⟨next, hcut, hsteps⟩ := Wire.bind_eq_ok.1 hsteps
      obtain ⟨rest, hrest, hsteps⟩ := Wire.bind_eq_ok.1 hsteps
      obtain rfl := Except.ok.inj hsteps
      obtain ⟨next', rfl, hcut'⟩ := h.cut hcancel hlt hcut
      have hpos := (lt_of_cut h.length_eq' hlt (by have := h.must_reach_le; omega) hcut').1
      rw [PushSplit.stepsFrom, if_pos hlt]
      refine Wire.bind_eq_ok.2 ⟨next', hcut', Wire.bind_eq_ok.2
        ⟨rest, ih (Nat.le_of_succ_le_succ hroom) hrest, ?_⟩⟩
      rw [h.commit_eq (Nat.zero_lt_of_lt hpos)]
      rfl
    · rw [stepsFrom_of_ge (by omega)] at hsteps
      rwa [stepsFrom_of_ge hlt]

end Resting

/-! ### Ancestors -/

section Descending

variable {B : Blake3} {store : ObjectStore}

/-- The walk of the ancestry test ends within its fuel, whatever the history. -/
theorem isSome_isAncestor_walkFuel (B : Blake3) (store : ObjectStore) (a d : Hash) :
    (isAncestor (store.readObject B) (walkFuel B store) a d).isSome :=
  isSome_isAncestor (fun _ => commitParents_eq_nil) (potential_start d ∅)

theorem descends_eq_ok {a d : Hash} {found : Bool} (h : descends B store a d = .ok found) :
    found = true ↔ IsAncestor (store.readObject B) a d := by
  obtain ⟨r, hr⟩ := Option.isSome_iff_exists.1 (isSome_isAncestor_walkFuel B store a d)
  rw [descends, hr, Option.getD_some, ofStore_eq_ok] at h
  subst h
  exact isAncestor_eq_ok hr

theorem descends_of_isAncestor {a d : Hash} (hreads : HistoryReads (store.readObject B) d)
    (h : IsAncestor (store.readObject B) a d) : descends B store a d = .ok true := by
  obtain ⟨r, hr⟩ := Option.isSome_iff_exists.1 (isSome_isAncestor_walkFuel B store a d)
  rw [descends, hr, Option.getD_some, ofStore_eq_ok]
  cases r with
  | error e => exact absurd hr (isAncestor_ne_error hreads _ e)
  | ok found => rw [(isAncestor_eq_ok hr).2 h]

end Descending

/-! ### Planning again -/

section Replanning

variable {B : Blake3} {Z : Zstd} {fanout : ℕ} {store : ObjectStore} {ctl ctl' : PushControl}
  {c : Cutter} {tip : Hash} {base : Option Hash} {rest : List (Finset Hash)} {d : ℕ}

/-- A commit behind a position is not in the closure of the commit there. -/
theorem Measured.notMem (hm : Measured B store c (c.chain.seed :: rest))
    (hacyclic : ∀ a, ¬ TransGen (RefersTo B .history store) a a)
    (hwalks : Walks B store ctl.shallow tip c.chain.commits base) (hpos : 0 < d)
    (hd : d ≤ c.chain.commits.length) :
    ∀ x ∈ c.chain.commits.drop d, x ∉ (c.chain.seed :: rest).getD d ∅ := by
  intro x hx hin
  obtain ⟨i, rfl⟩ := Nat.exists_eq_add_one.2 hpos
  have hclosure := hm.closure (i + 1) hpos hd
  have hpairwise := hwalks.pairwise.drop (i := i)
  rw [Chain.drop_eq hd, List.pairwise_cons] at hpairwise
  have hbelow := TransGen.mono (fun _ _ => refersTo_of_firstParent) _ _ (hpairwise.1 x hx)
  exact hacyclic _ (TransGen.trans_right ((hclosure.mem x).1 hin) hbelow)

/-- The commits behind a position are found by a walk down to the one there. -/
theorem walks_rest {chain : Chain} {shallow : Finset Hash}
    (hwalks : Walks B store shallow tip chain.commits base) (hpos : 0 < d)
    (hd : d ≤ chain.commits.length) :
    Walks B store shallow tip (chain.commits.drop d) (some (chain.commit d)) := by
  obtain ⟨i, rfl⟩ := Nat.exists_eq_add_one.2 hpos
  have hsplit := List.take_append_drop i chain.commits
  rw [Chain.drop_eq hd] at hsplit
  rw [← hsplit] at hwalks
  exact hwalks.above

/-- **Walking again** from a commit of the chain finds the commits behind it. -/
theorem walkChain_rest (hm : Measured B store c (c.chain.seed :: rest))
    (hacyclic : ∀ a, ¬ TransGen (RefersTo B .history store) a a)
    (hwalks : Walks B store ctl.shallow tip c.chain.commits base) (hpos : 0 < d)
    (hd : d < c.chain.commits.length) (hcancel : ∀ k, ctl'.cancelled k = false)
    (hshallow : ctl'.shallow = ctl.shallow) (hroom : c.chain.commits.length ≤ ctl'.max_chain) :
    walkChain B store ctl' tip (some (c.chain.commit d)) =
      .ok ⟨c.chain.commits.drop d, (c.chain.seed :: rest).getD d ∅⟩ := by
  have hclosure := hm.closure d hpos hd.le
  have hnot := hm.notMem hacyclic hwalks hpos hd.le
  -- The last commit is in the last set and not in this one, so there is room for it.
  have hcard : ((c.chain.seed :: rest).getD d ∅).card < MAX_REACHABLE := by
    have hlast := hm.closure c.chain.commits.length (Nat.zero_lt_of_lt hd) le_rfl
    have htip : c.chain.commit c.chain.commits.length ∈ c.chain.commits.drop d := by
      rw [Chain.commit, List.getD_eq_getElem _ _ (by omega)]
      have hindex : d + (c.chain.commits.length - 1 - d) = c.chain.commits.length - 1 := by omega
      exact List.mem_drop_iff_getElem.2
        ⟨c.chain.commits.length - 1 - d, by omega, by simp only [hindex]⟩
    refine (Finset.card_lt_card ?_).trans_le hlast.small
    exact Finset.ssubset_iff_subset_ne.2 ⟨hm.mono hd.le le_rfl, fun heq =>
      hnot _ htip (heq ▸ hlast.self_mem)⟩
  have hlength : (c.chain.commits.drop d).length ≤ ctl'.max_chain := by
    rw [List.length_drop]
    omega
  have hwalk : walkFrom B store ctl' _ ctl'.max_chain tip [] = _ :=
    walkFrom_of_walks hcancel (hshallow ▸ walks_rest hwalks hpos hd.le) hlength hnot
      fun b hb => Option.some.inj hb ▸ hclosure.self_mem
  rw [List.append_nil] at hwalk
  rw [walkChain]
  refine Wire.bind_eq_ok.2 ⟨_, hclosure.heldClosure hcard, Wire.bind_eq_ok.2 ⟨_, hwalk, ?_⟩⟩
  dsimp only
  rw [if_pos ⟨rfl, rfl⟩]
  rfl

/-- **Weighing again** finds what the weights behind a position add to it. -/
theorem cumulativeWeights_rest (hm : Measured B store c (c.chain.seed :: rest))
    (hsweeps : Sweeps B store ctl c.chain.seed c.chain.commits rest)
    (hd : d ≤ c.chain.commits.length) (hcancel : ∀ k, ctl'.cancelled k = false)
    (hshallow : ctl'.shallow = ctl.shallow) :
    cumulativeWeights B store ctl' ⟨c.chain.commits.drop d, (c.chain.seed :: rest).getD d ∅⟩ =
      .ok ((c.weights.drop d).map (· - c.weights.getD d 0)) := by
  have hlength := hsweeps.length_eq
  have hdrop := hsweeps.drop d (by omega)
  have hlt : d < (c.chain.seed :: rest).length := by
    rw [List.length_cons]
    omega
  have hsets : (c.chain.seed :: rest).drop d =
      (c.chain.seed :: rest).getD d ∅ :: rest.drop d := by
    rw [List.drop_eq_getElem_cons hlt, List.getD_eq_getElem _ _ hlt]
    rfl
  have hweights : (c.weights.drop d).map (· - c.weights.getD d 0) =
      0 :: counts store 0 ((c.chain.seed :: rest).getD d ∅) (rest.drop d) := by
    rw [hm.weight_at, hm.weights_eq, ← List.map_drop, hsets, List.map_cons, List.map_cons,
      Nat.sub_self, List.map_map, counts]
    refine congrArg _ (List.map_congr_left fun T hT => ?_)
    have hsub := hm.mono (Nat.zero_le d) hd
    have hsplit := weight_sdiff_add (s := store) hsub
      ((List.pairwise_cons.1 hdrop.pairwise).1 T hT)
    have hsmall : weight store (T \ (c.chain.seed :: rest).getD d ∅) ≤ U64_MAX :=
      (weight_mono Finset.sdiff_subset).trans
        (hm.small T (List.mem_cons_of_mem _ (List.mem_of_mem_drop hT)))
    rw [Nat.zero_add, min_eq_left hsmall, Function.comp_apply]
    omega
  have hcounted := cumulativeFrom_of_sweeps hshallow hcancel hdrop 0 (Nat.zero_le _)
  rw [cumulativeWeights, hweights]
  exact Wire.bind_eq_ok.2 ⟨_, hcounted, rfl⟩

/-- Down a walk without remixes, what it ends at is an ancestor of everything on it. -/
theorem Walks.isAncestor {shallow : Finset Hash} {commits : List Hash}
    (h : Walks B store shallow tip commits base)
    (hcommits : ∀ a ∈ commits, ∀ r, store.readObject B a ≠ .ok (.remix r)) :
    ∀ b ∈ base, IsAncestor (store.readObject B) b tip ∧
      ∀ a ∈ commits, IsAncestor (store.readObject B) b a := by
  induction h with
  | held x =>
    intro b hb
    obtain rfl := Option.some.inj hb
    exact ⟨.refl, fun a ha => absurd ha List.not_mem_nil⟩
  | ends => rintro b ⟨⟩
  | @up x p commits base hshallow hparent hwalks ih =>
    intro b hb
    obtain ⟨hp, hall⟩ := ih (fun a ha => hcommits a (List.mem_append_left _ ha)) b hb
    have hedge : ParentOf (store.readObject B) x p := by
      obtain ⟨obj, hobj, hfirst⟩ := hparent
      have hne := hcommits x (List.mem_append_right _ (List.mem_singleton_self x))
      rw [ParentOf, parents, hobj]
      cases obj with
      | commit commit => exact List.mem_of_head? hfirst
      | remix r => exact absurd hobj (hne r)
      | _ => cases hfirst
    have hx : IsAncestor (store.readObject B) b x := .head hedge hp
    refine ⟨hx, fun a ha => ?_⟩
    rcases List.mem_append.1 ha with ha | ha
    · exact hall a ha
    · exact List.mem_singleton.1 ha ▸ hx

/-- What must be reached from a commit of the chain is the one behind it. -/
theorem positionsToReach_rest {chain : Chain} {remote : Hash} {shallow : Finset Hash}
    (hwalks : Walks B store shallow tip chain.commits (some remote)) (hne : chain.commits ≠ [])
    (hcontains : store.contains remote = true)
    (hcommits : ∀ a ∈ chain.commits, ∀ r, store.readObject B a ≠ .ok (.remix r))
    (hreads : ∀ a ∈ chain.commits, HistoryReads (store.readObject B) a) :
    positionsToReach B store chain (some remote) = .ok 1 := by
  have hlength : 0 < chain.commits.length := List.length_pos_iff.2 hne
  have hall := (hwalks.isAncestor hcommits remote rfl).2
  have htest : ∀ m, 1 ≤ m → m ≤ chain.commits.length →
      descends B store remote (chain.commit m) = .ok true := by
    intro m hm hle
    have hmem : chain.commit m ∈ chain.commits := by
      rw [Chain.commit, List.getD_eq_getElem _ _ (by omega)]
      exact List.getElem_mem _
    exact descends_of_isAncestor (hreads _ hmem) (hall _ hmem)
  have hroot : (some remote).filter (store.contains ·) = some remote :=
    Option.filter_eq_some_iff.2 ⟨rfl, hcontains⟩
  rw [positionsToReach, hroot]
  refine Wire.bind_eq_ok.2 ⟨true, htest _ hlength le_rfl, ?_⟩
  rw [if_pos rfl]
  exact searchDown_of_forall (le_refl _) hlength fun m hm hlt => htest m hm hlt.le

/-- **Planning again** from a commit of the chain: the chain is the rest of the chain. -/
theorem rests_of_run {c' : Cutter} (hm : Measured B store c (c.chain.seed :: rest)) (hpos : 0 < d)
    (hd : d < c.chain.commits.length)
    (hchain : c'.chain = ⟨c.chain.commits.drop d, (c.chain.seed :: rest).getD d ∅⟩)
    (hweights : c'.weights = (c.weights.drop d).map (· - c.weights.getD d 0))
    (hremote : c'.remote_tip = some (c.chain.commit d)) (hlimits : c'.limits = c.limits)
    (hcap : c'.cap = c.cap) (hbudget : c'.budget = c.budget) (hreach : c'.must_reach ≤ 1) :
    Rests c c' d where
  pos := hpos
  lt := hd
  length_eq := by rw [hm.weights_eq, List.length_map, hm.length_eq]
  ascending := by
    rw [hm.weights_eq, List.pairwise_map]
    exact hm.ascending.imp fun hsub => weight_mono (Finset.sdiff_subset_sdiff hsub subset_rfl)
  small := by
    rw [hm.weights_eq, List.forall_mem_map]
    exact fun T hT => (weight_mono Finset.sdiff_subset).trans (hm.small T hT)
  commits_eq := congrArg Chain.commits hchain
  weights_eq := hweights
  remote_eq := hremote
  limits_eq := hlimits
  cap_eq := hcap
  budget_eq := hbudget
  must_reach_le := hreach

end Replanning

end Mkit.PushSplit
