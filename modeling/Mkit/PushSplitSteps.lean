import Mathlib.Data.List.GetD
import Mkit.PushSealing
import Mkit.PushSplitChain

/-!
# The Steps of a Split

What `cut` and the loop of `planPushSteps` answer, from what the chain weighs (`Measured`). A step
ends where a real plan was estimated within the budget, or where the weight alone says that it is,
or where it was sealed within the tickets; in each case it fits (`Fits`).

## Main results

* `Measured.estimate_le` — a step that is not heavy is estimated within the budget;
* `cut_eq_ok` — a step moves on, reaches what the first one must reach, and fits;
* `stepsFrom_eq_ok` — so do all of them, one after another, up to the tip.
-/

namespace Mkit.PushSplit

open BinarySearch Closure Gathering Pack Relation Transfer

/-! ### Tickets -/

section Tickets

variable {B : Blake3} {Z : Zstd} {fanout : ℕ} {store : ObjectStore} {cap : ℕ}
  {limits : UploadLimits} {sink : PackSink} {cancelled : ℕ → Bool} {st st' : Sealing}

/-- The packs sealed so far take no more tickets than there are. -/
def WithinTickets (B : Blake3) (limits : UploadLimits) (st : Sealing) : Prop :=
  ∃ packs : List Bytes, st.pack_keys = packs.map B.hash ∧
    st.ticketed_count = (packs.filter fun pack => ticketedPack limits pack.length).length ∧
    st.ticketed_count ≤ dataPackBudget limits

theorem WithinTickets.sealPack (h : WithinTickets B limits st)
    (hseal : sealPack B limits sink cancelled st = .ok st') : WithinTickets B limits st' := by
  obtain ⟨packs, hkeys, hcount, hle⟩ := h
  obtain ⟨pack, -, -, -, -, hkeys', hroom, hcount'⟩ := sealPack_eq_ok hseal
  have hone : ([pack].filter fun pack => ticketedPack limits pack.length).length =
      if ticketedPack limits pack.length then 1 else 0 := by
    by_cases hticket : ticketedPack limits pack.length = true
    · rw [List.filter_cons_of_pos (by exact hticket), if_pos hticket]
      rfl
    · rw [List.filter_cons_of_neg (by exact hticket), if_neg hticket]
      rfl
  refine ⟨packs ++ [pack], ?_, ?_, ?_⟩
  · rw [List.map_append, hkeys', hkeys]
    rfl
  · rw [List.filter_append, List.length_append, ← hcount, hone, hcount']
    split <;> rfl
  · rw [hcount']
    split
    · exact hroom (by assumption)
    · exact hle

theorem WithinTickets.stage (h : WithinTickets B limits st) {p : Push}
    (hstage : stage B Z cap limits sink cancelled st p = .ok st') : WithinTickets B limits st' := by
  have hpush : ∀ {st : Sealing}, WithinTickets B limits st → pushEntry Z p st = .ok st' →
      WithinTickets B limits st' := by
    intro st h hentry
    obtain ⟨-, -, rfl⟩ := pushEntry_eq_ok_iff.1 hentry
    exact h
  rw [PushSplit.stage] at hstage
  split at hstage
  · obtain ⟨st₁, hseal, hstage⟩ := Wire.bind_eq_ok.1 hstage
    exact hpush (h.sealPack hseal) hstage
  · exact hpush h hstage

/-- **A plan that is packed takes no more tickets than there are.** -/
theorem tickets_of_build {plan : PackPlan} {pack_keys : List Hash}
    (h : buildAndUploadPacks B Z fanout store cap limits sink cancelled plan = .ok pack_keys) :
    ∃ packs : List Bytes, pack_keys = packs.map B.hash ∧
      (packs.filter fun pack => ticketedPack limits pack.length).length ≤
        dataPackBudget limits := by
  obtain ⟨-, raws, -, st, hst, st', hst', rfl⟩ := buildAndUploadPacks_eq_ok.1 h
  have hall : ∀ {ps : List Push} {st st' : Sealing}, WithinTickets B limits st →
      ps.foldlM (PushSplit.stage B Z cap limits sink cancelled) st = .ok st' →
      WithinTickets B limits st' := by
    intro ps
    induction ps with
    | nil =>
      intro st st' h hfold
      exact Except.ok.inj hfold ▸ h
    | cons p ps ih =>
      intro st st' h hfold
      rw [List.foldlM_cons, Wire.bind_eq_ok] at hfold
      obtain ⟨st₁, hone, hfold⟩ := hfold
      exact ih (h.stage hone) hfold
  have hstart : WithinTickets B limits ⟨.new, [], 0⟩ := ⟨[], rfl, rfl, Nat.zero_le _⟩
  obtain ⟨packs, hkeys, hcount, hle⟩ := (hall hstart hst).sealPack hst'
  exact ⟨packs, hkeys, hcount ▸ hle⟩

end Tickets

/-! ### Measured chains -/

section Measuring

variable {B : Blake3} {Z : Zstd} {fanout : ℕ} {store : ObjectStore} {ctl : PushControl}
  {c : Cutter} {sets : List (Finset Hash)} {start stop : ℕ}

/-- What has been seen with each position of the chain: at the start what the remote holds, and
with every commit its closure. The weights are what has been seen since the start. -/
structure Measured (B : Blake3) (store : ObjectStore) (c : Cutter) (sets : List (Finset Hash)) :
    Prop where
  length_eq : sets.length = c.chain.commits.length + 1
  weights_eq : c.weights = sets.map fun T => weight store (T \ sets.getD 0 ∅)
  ascending : sets.Pairwise (· ⊆ ·)
  closure : ∀ j, 0 < j → j ≤ c.chain.commits.length →
    IsClosure B store (c.chain.commit j) (sets.getD j ∅)
  held : ∀ new T base_map have_old,
    remoteSide B store new c.remote_tip = .ok (T, base_map, have_old) → sets.getD 0 ∅ ⊆ T
  small : ∀ T ∈ sets, weight store T ≤ U64_MAX

theorem Measured.mono (hm : Measured B store c sets) {i j : ℕ} (hij : i ≤ j)
    (hj : j ≤ c.chain.commits.length) : sets.getD i ∅ ⊆ sets.getD j ∅ := by
  have hlt : j < sets.length := hm.length_eq ▸ Nat.lt_succ_of_le hj
  rcases Nat.eq_or_lt_of_le hij with rfl | hlt'
  · exact subset_rfl
  · rw [List.getD_eq_getElem _ _ hlt, List.getD_eq_getElem _ _ (hlt'.trans hlt)]
    exact List.pairwise_iff_getElem.1 hm.ascending i j _ hlt hlt'

theorem Measured.weight_at (hm : Measured B store c sets) (j : ℕ) :
    c.weights.getD j 0 = weight store (sets.getD j ∅ \ sets.getD 0 ∅) := by
  rw [hm.weights_eq]
  by_cases hlt : j < sets.length
  · rw [List.getD_eq_getElem _ _ (by rwa [List.length_map]), List.getElem_map,
      List.getD_eq_getElem _ _ hlt]
  · rw [List.getD_eq_default _ _ (by rw [List.length_map]; omega),
      List.getD_eq_default _ _ (by omega), Finset.empty_sdiff, weight, Finset.sum_empty]

/-- What a step adds. -/
theorem Measured.weight_between (hm : Measured B store c sets) (hle : start ≤ stop)
    (hstop : stop ≤ c.chain.commits.length) :
    c.weights.getD start 0 + weight store (sets.getD stop ∅ \ sets.getD start ∅) =
      c.weights.getD stop 0 := by
  rw [hm.weight_at, hm.weight_at]
  exact weight_sdiff_add (hm.mono (Nat.zero_le _) (hle.trans hstop)) (hm.mono hle hstop)

/-- What the remote holds by a commit whose closure is known. -/
theorem remoteSide_of_closure {new o : Hash} {S T : Finset Hash} {base_map : BaseMap}
    {have_old : Bool} (hS : IsClosure B store o S)
    (h : remoteSide B store new (some o) = .ok (T, base_map, have_old)) : T = S := by
  have hroot : (some o).filter (store.contains ·) = some o :=
    Option.filter_eq_some_iff.2 ⟨rfl, hS.contains hS.self_mem⟩
  rw [remoteSide, hroot] at h
  dsimp only at h
  rw [hS.reachableObjects] at h
  dsimp only at h
  rw [Wire.bind_eq_ok] at h
  obtain ⟨_, -, h⟩ := h
  exact (Prod.mk.inj (Except.ok.inj h)).1.symm

/-- The plan of a step sends no more than what the step adds. -/
theorem Measured.sends (hm : Measured B store c sets) (hlt : start < stop)
    (hstop : stop ≤ c.chain.commits.length) {plan : PackPlan}
    (hplan : planPackWith B store (c.chain.commit stop) (c.base start) = .ok plan) :
    ∃ send, Sends store send plan ∧ send ⊆ sets.getD stop ∅ \ sets.getD start ∅ := by
  obtain ⟨new_set, remote_set, base_map, have_old, hnew, hremote, hsends, -⟩ :=
    planPackWith_eq_ok hplan
  have hclosure := hm.closure stop (Nat.zero_lt_of_lt hlt) hstop
  obtain rfl := Except.ok.inj (hclosure.reachableObjects.symm.trans hnew)
  refine ⟨_, hsends, Finset.sdiff_subset_sdiff subset_rfl ?_⟩
  rcases Nat.eq_zero_or_pos start with rfl | hpos
  · exact hm.held _ _ _ _ hremote
  · rw [Cutter.base, if_neg hpos.ne'] at hremote
    rw [remoteSide_of_closure (hm.closure start hpos (hlt.le.trans hstop)) hremote]

/-- **The floor.** A step that is not heavy is estimated within the budget. -/
theorem Measured.estimate_le (hm : Measured B store c sets) (hlt : start < stop)
    (hstop : stop ≤ c.chain.commits.length) (hlight : ¬ c.Heavy start stop) {plan : PackPlan}
    (hplan : planPackWith B store (c.chain.commit stop) (c.base start) = .ok plan) :
    ∃ sizes, estimatePackSizes c.cap c.limits.max_pack_bytes store plan = .ok sizes ∧
      sizes.length ≤ c.budget := by
  obtain ⟨send, hsends, hsub⟩ := hm.sends hlt hstop hplan
  have hweight : ((plan.sizes store).map (· + ENTRY_FRAME_LEN)).sum ≤
      c.budget / 2 * packWeightCap c.cap c.limits.max_pack_bytes := by
    have hbetween := hm.weight_between hlt.le hstop
    have hfloor := Nat.le_of_not_lt hlight
    calc ((plan.sizes store).map (· + ENTRY_FRAME_LEN)).sum
        ≤ weight store send := hsends.weight_le ENTRY_FRAME_LEN
      _ ≤ weight store (sets.getD stop ∅ \ sets.getD start ∅) := weight_mono hsub
      _ = c.weights.getD stop 0 - c.weights.getD start 0 := by omega
      _ ≤ c.floorWeight := hfloor
      _ ≤ packWeightCap c.cap c.limits.max_pack_bytes * (c.budget / 2) := min_le_left _ _
      _ = _ := Nat.mul_comm _ _
  refine ⟨_, ?_, (length_estimateFrom_le hweight).trans (Nat.mul_div_le c.budget 2)⟩
  rw [estimatePackSizes, hsends.mapM_objectLen]
  rfl

end Measuring

/-! ### Cuts -/

section Cutting

variable {B : Blake3} {Z : Zstd} {fanout : ℕ} {store : ObjectStore} {ctl : PushControl}
  {c : Cutter} {sets : List (Finset Hash)} {start stop : ℕ}

/-- The advance from one head to another fits: it is estimated within the budget, or it can be
packed, and then no more of its packs take a ticket than the budget allows. -/
def Fits (B : Blake3) (Z : Zstd) (fanout : ℕ) (store : ObjectStore) (cap : ℕ)
    (limits : UploadLimits) (old : Option Hash) (new : Hash) : Prop :=
  ∀ plan, planPackWith B store new old = .ok plan →
    (∃ sizes, estimatePackSizes cap limits.max_pack_bytes store plan = .ok sizes ∧
      sizes.length ≤ dataPackBudget limits) ∨
    ∃ packs : List Bytes,
      buildAndUploadPacks B Z fanout store cap limits .count (fun _ => false) plan =
        .ok (packs.map B.hash) ∧
      (packs.filter fun pack => ticketedPack limits pack.length).length ≤ dataPackBudget limits

theorem probe_eq_ok {plan : PackPlan} {packs : ℕ} : probe B store c start stop = .ok (plan, packs) ↔
      planPackWith B store (c.chain.commit stop) (c.base start) = .ok plan ∧
      ∃ sizes, estimatePackSizes c.cap c.limits.max_pack_bytes store plan = .ok sizes ∧
        sizes.length = packs := by
  rw [probe, Wire.bind_eq_ok]
  constructor
  · rintro ⟨plan', hplan, h⟩
    obtain ⟨sizes, hsizes, h⟩ := Wire.bind_eq_ok.1 h
    obtain ⟨rfl, rfl⟩ := Prod.mk.inj (Except.ok.inj h)
    exact ⟨ofStore_eq_ok.1 hplan, sizes, hsizes, rfl⟩
  · rintro ⟨hplan, sizes, hsizes, rfl⟩
    exact ⟨plan, ofStore_eq_ok.2 hplan, Wire.bind_eq_ok.2 ⟨sizes, hsizes, rfl⟩⟩

theorem checkpoint_eq_ok {k : Checkpoint} :
    checkpoint ctl k = .ok () ↔ ctl.cancelled k = false := by
  rw [checkpoint]
  cases ctl.cancelled k with
  | true => exact iff_of_false (by rintro ⟨⟩) (by rintro ⟨⟩)
  | false => exact iff_of_true rfl rfl

/-- What the test of a position answers. -/
theorem fitsAt_eq_ok {b : Bool} :
    fitsAt B store ctl c start stop = .ok b ↔ ctl.cancelled (.search start stop) = false ∧
      ∃ plan packs, probe B store c start stop = .ok (plan, packs) ∧
        decide (packs ≤ c.budget) = b := by
  rw [fitsAt, Wire.bind_eq_ok]
  constructor
  · rintro ⟨_, hcheck, h⟩
    obtain ⟨⟨plan, packs⟩, hprobe, h⟩ := Wire.bind_eq_ok.1 h
    exact ⟨checkpoint_eq_ok.1 hcheck, plan, packs, hprobe, Except.ok.inj h⟩
  · rintro ⟨hcheck, plan, packs, hprobe, h⟩
    exact ⟨(), checkpoint_eq_ok.2 hcheck, Wire.bind_eq_ok.2 ⟨_, hprobe, congrArg Except.ok h⟩⟩

/-- What it takes for a forced step to be accepted. -/
theorem verifyForced_eq_ok {holds_remote_head : Bool} :
    verifyForced B Z fanout store ctl c start stop holds_remote_head = .ok () ↔
      ctl.cancelled (.verify start stop) = false ∧
      ∃ plan packs, probe B store c start stop = .ok (plan, packs) ∧
        (packs ≤ c.budget ∨ ∃ keys, buildAndUploadPacks B Z fanout store c.cap c.limits .count
          (fun n => ctl.cancelled (.seal start stop n)) plan = .ok keys) := by
  rw [verifyForced, Wire.bind_eq_ok]
  constructor
  · rintro ⟨_, hcheck, h⟩
    obtain ⟨⟨plan, packs⟩, hprobe, h⟩ := Wire.bind_eq_ok.1 h
    refine ⟨checkpoint_eq_ok.1 hcheck, plan, packs, hprobe, ?_⟩
    dsimp only at h
    by_cases hle : packs ≤ c.budget
    · exact .inl hle
    · rw [if_neg hle] at h
      obtain ⟨keys, hkeys, -⟩ := Wire.bind_eq_ok.1 h
      exact .inr ⟨keys, Wire.mapError_eq_ok.1 hkeys⟩
  · rintro ⟨hcheck, plan, packs, hprobe, h⟩
    refine ⟨(), checkpoint_eq_ok.2 hcheck, Wire.bind_eq_ok.2 ⟨_, hprobe, ?_⟩⟩
    dsimp only
    by_cases hle : packs ≤ c.budget
    · rw [if_pos hle]
      rfl
    · obtain ⟨keys, hkeys⟩ := h.resolve_left hle
      rw [if_neg hle]
      exact Wire.bind_eq_ok.2 ⟨keys, Wire.mapError_eq_ok.2 hkeys, rfl⟩

/-- How a step is found. -/
theorem cut_eq_ok_iff {next : ℕ} : cut B Z fanout store ctl c start = .ok next ↔
      searchUp (fitsAt B store ctl c start) (c.ceiling start - c.floor start) (c.floor start)
        (c.ceiling start) = .ok next ∧
      (next = c.floor start → c.Heavy start next →
        verifyForced B Z fanout store ctl c start next
          (start = 0 ∧ c.natural start < c.floor start) = .ok ()) := by
  rw [cut, Wire.bind_eq_ok]
  constructor
  · rintro ⟨fits, hsearch, h⟩
    by_cases hforced : fits = c.floor start ∧ c.Heavy start fits
    · rw [if_pos hforced] at h
      obtain ⟨_, hverify, h⟩ := Wire.bind_eq_ok.1 h
      obtain rfl := Except.ok.inj h
      exact ⟨hsearch, fun _ _ => hverify⟩
    · rw [if_neg hforced] at h
      obtain rfl := Except.ok.inj h
      exact ⟨hsearch, fun hfloor hheavy => absurd ⟨hfloor, hheavy⟩ hforced⟩
  · rintro ⟨hsearch, hverify⟩
    refine ⟨next, hsearch, ?_⟩
    by_cases hforced : next = c.floor start ∧ c.Heavy start next
    · rw [if_pos hforced]
      exact Wire.bind_eq_ok.2 ⟨(), hverify hforced.1 hforced.2, rfl⟩
    · rw [if_neg hforced]
      rfl

/-- Where a weight ends: behind the start, and on the chain. -/
theorem furthest_bounds (hlength : c.weights.length = c.chain.commits.length + 1)
    (hstart : start < c.chain.commits.length) (limit : ℕ) :
    start < c.furthest start limit ∧ c.furthest start limit ≤ c.chain.commits.length := by
  rw [Cutter.furthest]
  omega

theorem floor_bounds (hlength : c.weights.length = c.chain.commits.length + 1)
    (hstart : start < c.chain.commits.length) (hreach : c.must_reach ≤ c.chain.commits.length) :
    start < c.floor start ∧ c.floor start ≤ c.chain.commits.length ∧
      (start = 0 → c.must_reach ≤ c.floor start) := by
  obtain ⟨hlt, hle⟩ := furthest_bounds hlength hstart c.floorWeight
  rw [Cutter.floor, Cutter.natural]
  split <;> omega

/-- **A step moves on**, as far as the first one must go, whatever the store holds. -/
theorem lt_of_cut (hlength : c.weights.length = c.chain.commits.length + 1)
    (hstart : start < c.chain.commits.length) (hreach : c.must_reach ≤ c.chain.commits.length)
    {next : ℕ} (h : cut B Z fanout store ctl c start = .ok next) :
    start < next ∧ next ≤ c.chain.commits.length ∧ (start = 0 → c.must_reach ≤ next) := by
  obtain ⟨hfloor, hfloor_le, hmust⟩ := floor_bounds hlength hstart hreach
  obtain ⟨-, hceiling⟩ := furthest_bounds hlength hstart
    (saturatingMul (packWeightCap c.cap c.limits.max_pack_bytes) c.budget)
  obtain ⟨hle, hmax, -⟩ := searchUp_eq_ok (cut_eq_ok_iff.1 h).1
  rw [Cutter.ceiling] at hmax
  exact ⟨hfloor.trans_le hle, by omega, fun hzero => (hmust hzero).trans hle⟩

/-- **A step fits.** -/
theorem fits_of_cut (hm : Measured B store c sets) (hbudget : c.budget = dataPackBudget c.limits)
    (hstart : start < c.chain.commits.length) (hreach : c.must_reach ≤ c.chain.commits.length)
    {next : ℕ} (h : cut B Z fanout store ctl c start = .ok next) :
    Fits B Z fanout store c.cap c.limits (c.base start) (c.chain.commit next) := by
  have hlength : c.weights.length = c.chain.commits.length + 1 := by
    rw [hm.weights_eq, List.length_map, hm.length_eq]
  obtain ⟨hlt, hle, -⟩ := lt_of_cut hlength hstart hreach h
  obtain ⟨hsearch, hverify⟩ := cut_eq_ok_iff.1 h
  intro plan hplan
  have hestimated : ∀ {plan' packs}, probe B store c start next = .ok (plan', packs) →
      packs ≤ c.budget → ∃ sizes,
        estimatePackSizes c.cap c.limits.max_pack_bytes store plan = .ok sizes ∧
          sizes.length ≤ dataPackBudget c.limits := by
    intro plan' packs hprobe hpacks
    obtain ⟨hplan', sizes, hsizes, rfl⟩ := probe_eq_ok.1 hprobe
    obtain rfl := Except.ok.inj (hplan.symm.trans hplan')
    exact ⟨sizes, hsizes, hbudget ▸ hpacks⟩
  obtain ⟨-, -, hfloor | hpass⟩ := searchUp_eq_ok hsearch
  · by_cases hheavy : c.Heavy start next
    · obtain ⟨-, plan', packs, hprobe, hpacks | ⟨keys, hkeys⟩⟩ :=
        verifyForced_eq_ok.1 (hverify hfloor hheavy)
      · exact .inl (hestimated hprobe hpacks)
      · obtain rfl := Except.ok.inj (hplan.symm.trans (probe_eq_ok.1 hprobe).1)
        obtain ⟨packs, rfl, hpacks⟩ := tickets_of_build hkeys
        exact .inr ⟨packs, follows_buildAndUploadPacks plan _ hkeys, hpacks⟩
    · exact .inl (hbudget ▸ hm.estimate_le hlt hle hheavy hplan)
  · obtain ⟨-, plan', packs, hprobe, hpacks⟩ := fitsAt_eq_ok.1 hpass
    exact .inl (hestimated hprobe (of_decide_eq_true hpacks))

end Cutting

/-! ### All steps -/

section Stepping

variable {B : Blake3} {Z : Zstd} {fanout : ℕ} {store : ObjectStore} {ctl : PushControl}
  {c : Cutter} {sets : List (Finset Hash)} {start : ℕ}

/-- A step from one position to another. -/
structure Advance (B : Blake3) (Z : Zstd) (fanout : ℕ) (store : ObjectStore) (c : Cutter)
    (start stop : ℕ) : Prop where
  lt : start < stop
  le : stop ≤ c.chain.commits.length
  reaches : start = 0 → c.must_reach ≤ stop
  fits : Fits B Z fanout store c.cap c.limits (c.base start) (c.chain.commit stop)

/-- **What the steps are**: advances, one after another, up to the end of the chain. -/
theorem stepsFrom_eq_ok (hm : Measured B store c sets)
    (hbudget : c.budget = dataPackBudget c.limits)
    (hreach : c.must_reach ≤ c.chain.commits.length) {room : ℕ} {steps : List Hash}
    (hstart : start ≤ c.chain.commits.length)
    (h : stepsFrom B Z fanout store ctl c room start = .ok steps) :
    ∃ ps, steps = ps.map c.chain.commit ∧ (start :: ps).IsChain (Advance B Z fanout store c) ∧
      (start :: ps).getLast? = some c.chain.commits.length := by
  have hlength : c.weights.length = c.chain.commits.length + 1 := by
    rw [hm.weights_eq, List.length_map, hm.length_eq]
  have hend : ¬ start < c.chain.commits.length →
      [start].getLast? = some c.chain.commits.length :=
    fun hge => congrArg some (hstart.antisymm (not_lt.1 hge))
  induction room generalizing start steps with
  | zero =>
    rw [stepsFrom] at h
    by_cases hlt : start < c.chain.commits.length
    · rw [if_pos hlt] at h
      exact nomatch h
    · rw [if_neg hlt] at h
      exact ⟨[], (Except.ok.inj h).symm, .singleton _, hend hlt⟩
  | succ room ih =>
    rw [stepsFrom] at h
    by_cases hlt : start < c.chain.commits.length
    · rw [if_pos hlt] at h
      obtain ⟨next, hcut, h⟩ := Wire.bind_eq_ok.1 h
      obtain ⟨rest, hrest, h⟩ := Wire.bind_eq_ok.1 h
      obtain rfl := Except.ok.inj h
      obtain ⟨hnext, hle, hmust⟩ := lt_of_cut hlength hlt hreach hcut
      obtain ⟨ps, rfl, hchain, hlast⟩ := ih hle hrest fun hge =>
        congrArg some (hle.antisymm (not_lt.1 hge))
      exact ⟨next :: ps, rfl,
        .cons_cons ⟨hnext, hle, hmust, fits_of_cut hm hbudget hlt hreach hcut⟩ hchain, hlast⟩
    · rw [if_neg hlt] at h
      exact ⟨[], (Except.ok.inj h).symm, .singleton _, hend hlt⟩

theorem stepsFrom_of_ge (h : ¬ start < c.chain.commits.length) (room : ℕ) :
    stepsFrom B Z fanout store ctl c room start = .ok [] := by
  cases room <;> rw [stepsFrom, if_neg h]

/-- **The loop ends**: it makes no more rounds than there are commits. -/
theorem stepsFrom_of_le (hlength : c.weights.length = c.chain.commits.length + 1)
    (hreach : c.must_reach ≤ c.chain.commits.length) {room room' : ℕ}
    (hroom : c.chain.commits.length - start ≤ room)
    (hroom' : c.chain.commits.length - start ≤ room') :
    stepsFrom B Z fanout store ctl c room start = stepsFrom B Z fanout store ctl c room' start := by
  induction room generalizing room' start with
  | zero =>
    have hge : ¬ start < c.chain.commits.length := by omega
    rw [stepsFrom_of_ge hge, stepsFrom_of_ge hge]
  | succ room ih =>
    by_cases hlt : start < c.chain.commits.length
    · obtain ⟨room', rfl⟩ := Nat.exists_eq_add_one.2 (show 0 < room' by omega)
      rw [stepsFrom, stepsFrom, if_pos hlt, if_pos hlt]
      rcases hcut : cut B Z fanout store ctl c start with e | next
      · rfl
      · obtain ⟨hnext, -, -⟩ := lt_of_cut hlength hlt hreach hcut
        have hrest : stepsFrom B Z fanout store ctl c room next =
            stepsFrom B Z fanout store ctl c room' next := ih (by omega) (by omega)
        change (stepsFrom B Z fanout store ctl c room next >>= _) = _
        rw [hrest]
        rfl
    · rw [stepsFrom_of_ge hlt, stepsFrom_of_ge hlt]

theorem Chain.drop_eq {chain : Chain} {j : ℕ} (hj : j < chain.commits.length) :
    chain.commits.drop j = chain.commit (j + 1) :: chain.commits.drop (j + 1) := by
  rw [List.drop_eq_getElem_cons hj, Chain.commit, Nat.add_sub_cancel,
    List.getD_eq_getElem _ _ hj]

/-- The commits of the steps are on the chain, in its order. -/
theorem sublist_of_advances {ps : List ℕ} (h : (start :: ps).IsChain (Advance B Z fanout store c)) :
    (ps.map c.chain.commit).Sublist (c.chain.commits.drop start) := by
  induction ps generalizing start with
  | nil => exact List.nil_sublist _
  | cons p ps ih =>
    obtain ⟨hadvance, hrest⟩ := List.isChain_cons_cons.1 h
    obtain ⟨q, rfl⟩ := Nat.exists_eq_add_one.2 (Nat.zero_lt_of_lt hadvance.lt)
    have hdrop := Chain.drop_eq hadvance.le
    have hcons : (((q + 1) :: ps).map c.chain.commit).Sublist (c.chain.commits.drop q) := by
      rw [hdrop, List.map_cons]
      exact (ih hrest).cons_cons _
    exact hcons.trans (List.drop_sublist_drop_left _ (Nat.le_of_lt_succ hadvance.lt))

end Stepping

end Mkit.PushSplit
