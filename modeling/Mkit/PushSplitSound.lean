import Mkit.PushSplitResume

/-!
# Split Pushes Are Sound

What holds of `planPushSteps` as a whole (`planPushSteps_sound`): its steps lie on the line of
first parents and end at the tip, each advance fits, and planning again from a step gives the
steps that were left. `PlanFailure` lists the ways it can fail when nobody cancels.
-/

namespace Mkit.PushSplit

open BinarySearch Closure Gathering Pack Relation Transfer

/-! ### Failures -/

/-- The ways planning can fail when nobody cancels. -/
inductive PlanFailure : PushError → Prop
  | splitLimit (text : String) : PlanFailure (.pushSplitLimit text)
  | notAuthorized (text : String) : PlanFailure (.pushNotAuthorized text)
  | tooLarge (packs limit : ℕ) (commit : Option String) (holds_remote_head : Bool) :
      PlanFailure (.pushTooLarge packs limit commit holds_remote_head)
  | store (e : StoreError) : PlanFailure (.sync (.store e))
  | payloadTooLarge (len : ℕ) : PlanFailure (.sync (.source (.payloadTooLarge len)))

section Failing

variable {α β : Type} {B : Blake3} {Z : Zstd} {fanout : ℕ} {store : ObjectStore}
  {ctl : PushControl} {c : Cutter} {start stop : ℕ}

/-- If it fails, it is in one of these ways. -/
def Planned (x : Except PushError α) : Prop :=
  Ends (fun _ => True) PlanFailure x

theorem planned_ok (a : α) : Planned (.ok a : Except PushError α) :=
  trivial

theorem Planned.bind {x : Except PushError α} {k : α → Except PushError β} (h : Planned x)
    (hk : ∀ a, x = .ok a → Planned (k a)) : Planned (x >>= k) := by
  cases x with
  | ok a => exact hk a rfl
  | error e => exact h

theorem planned_ofStore (x : Except StoreError α) : Planned (ofStore x) :=
  ends_ofStore (fun _ _ => trivial) .store

theorem planned_checkpoint (hcancel : ∀ k, ctl.cancelled k = false) (k : Checkpoint) :
    Planned (checkpoint ctl k) := by
  rw [checkpoint_of_not (hcancel k)]
  exact planned_ok ()

theorem planned_heldClosure (root : Option Hash) : Planned (heldClosure B store root) := by
  rw [heldClosure]
  split
  · exact planned_ok _
  · split
    · exact planned_ok _
    · exact .splitLimit _
    · exact planned_ok _
    · exact .store _

theorem planned_walkFrom (hcancel : ∀ k, ctl.cancelled k = false) (held : Finset Hash)
    (room : ℕ) (cursor : Hash) (commits : List Hash) :
    Planned (walkFrom B store ctl held room cursor commits) := by
  induction room generalizing cursor commits with
  | zero =>
    rw [walkFrom]
    split
    · exact planned_ok _
    · exact .splitLimit _
  | succ room ih =>
    rw [walkFrom]
    split
    · exact planned_ok _
    · refine (planned_checkpoint hcancel _).bind fun _ _ => ?_
      split
      · exact planned_ok _
      · refine (planned_ofStore _).bind fun obj _ => ?_
        split
        · exact ih _ _
        · exact planned_ok _

theorem planned_walkChain (hcancel : ∀ k, ctl.cancelled k = false) (tip : Hash)
    (remote_tip : Option Hash) : Planned (walkChain B store ctl tip remote_tip) := by
  refine (planned_heldClosure _).bind fun held _ => (planned_walkFrom hcancel _ _ _ _).bind ?_
  rintro ⟨commits, base⟩ -
  dsimp only
  split
  · exact planned_ok _
  · exact (planned_heldClosure _).bind fun seed _ => planned_ok _

theorem planned_sweep (room : ℕ) (stack : List Hash) (seen : Finset Hash) (total : ℕ) :
    Planned (sweep B store ctl room stack seen total) := by
  induction room generalizing stack seen total with
  | zero =>
    rw [sweep]
    split
    · exact planned_ok _
    · exact .splitLimit _
  | succ room ih =>
    rw [sweep]
    split
    · exact planned_ok _
    · exact (planned_ofStore _).bind fun len _ => (planned_ofStore _).bind fun next _ => ih _ _ _

theorem planned_cumulativeWeights (hcancel : ∀ k, ctl.cancelled k = false) (chain : Chain) :
    Planned (cumulativeWeights B store ctl chain) := by
  have hfrom : ∀ (commits : List Hash) (j : ℕ) (seen : Finset Hash) (total : ℕ),
      Planned (cumulativeFrom B store ctl commits j seen total) := by
    intro commits
    induction commits with
    | nil => exact fun _ _ _ => planned_ok _
    | cons commit commits ih =>
      intro j seen total
      rw [cumulativeFrom]
      exact (planned_checkpoint hcancel _).bind fun _ _ => (planned_sweep _ _ _ _).bind
        fun swept _ => (ih _ _ _).bind fun rest _ => planned_ok _
  exact (hfrom _ _ _ _).bind fun weights _ => planned_ok _

theorem planned_estimate (cap : ℕ) (limit : Option ℕ) (plan : PackPlan) :
    Planned (estimatePackSizes cap limit store plan) :=
  (planned_ofStore _).bind fun _ _ => planned_ok _

theorem planned_probe (start stop : ℕ) : Planned (probe B store c start stop) :=
  (planned_ofStore _).bind fun plan _ =>
    (planned_estimate _ _ plan).bind fun _ _ => planned_ok _

/-- A plan has no more entries than a pack may have. -/
theorem card_le_of_planPackWith {new : Hash} {old : Option Hash} {plan : PackPlan}
    (h : planPackWith B store new old = .ok plan) :
    ∃ send, Sends store send plan ∧ send.card ≤ MAX_ENTRIES := by
  obtain ⟨new_set, remote_set, base_map, have_old, hnew, -, hsends, -⟩ := planPackWith_eq_ok h
  obtain ⟨⟨out, cut⟩, hrun, hout⟩ := Wire.bind_eq_ok.1 hnew
  obtain rfl := Except.ok.inj hout
  have hcard := (card_of_walk hrun).1
  rw [Finset.card_empty, Nat.zero_add] at hcard
  exact ⟨_, hsends, (Finset.card_le_card Finset.sdiff_subset).trans hcard⟩

theorem planned_verifyForced (hcancel : ∀ k, ctl.cancelled k = false)
    (hcap : c.cap ≤ MAX_TOTAL_PAYLOAD) (start stop : ℕ) (holds_remote_head : Bool) :
    Planned (verifyForced B Z fanout store ctl c start stop holds_remote_head) := by
  refine (planned_checkpoint hcancel _).bind fun _ _ => (planned_probe _ _).bind ?_
  rintro ⟨plan, packs⟩ hprobe
  dsimp only
  split
  · exact planned_ok _
  · obtain ⟨send, hsends, hcard⟩ := card_le_of_planPackWith (probe_eq_ok.1 hprobe).1
    have hends := @ends_buildAndUploadPacks B Z fanout store c.cap c.limits .count
      (fun n => ctl.cancelled (.seal start stop n)) send plan hcap hsends hcard
    refine Planned.bind ?_ fun keys _ => planned_ok _
    rcases hbuild : buildAndUploadPacks B Z fanout store c.cap c.limits .count
      (fun n => ctl.cancelled (.seal start stop n)) plan with e | keys
    · rw [hbuild] at hends
      rcases hends with ⟨err, rfl⟩ | hseal
      · exact .store err
      · cases hseal with
        | interrupted hn => exact absurd hn (by rw [hcancel]; exact Bool.false_ne_true)
        | payloadTooLarge => exact .payloadTooLarge _
        | tooLarge => exact .tooLarge _ _ _ _
        | rejected haccept => exact nomatch haccept
    · exact planned_ok keys

theorem planned_cut (hcancel : ∀ k, ctl.cancelled k = false) (hcap : c.cap ≤ MAX_TOTAL_PAYLOAD)
    (start : ℕ) : Planned (cut B Z fanout store ctl c start) := by
  have hfits : ∀ stop, Planned (fitsAt B store ctl c start stop) := fun stop =>
    (planned_checkpoint hcancel _).bind fun _ _ => (planned_probe _ _).bind fun _ _ => planned_ok _
  refine Planned.bind ?_ fun fits _ => ?_
  · refine ends_iff.2 ⟨fun _ _ => trivial, fun e he => ?_⟩
    obtain ⟨stop, -, -, hstop⟩ := searchUp_eq_error he
    exact (ends_iff.1 (hfits stop)).2 e hstop
  · split
    · exact (planned_verifyForced hcancel hcap _ _ _).bind fun _ _ => planned_ok _
    · exact planned_ok _

theorem planned_positionsToReach (chain : Chain) (remote_tip : Option Hash) :
    Planned (positionsToReach B store chain remote_tip) := by
  rw [positionsToReach]
  split
  · exact planned_ok _
  · refine Planned.bind (planned_ofStore _) fun found _ => ?_
    split
    · refine ends_iff.2 ⟨fun _ _ => trivial, fun e he => ?_⟩
      obtain ⟨mid, -, -, hmid⟩ := searchDown_eq_error he
      exact (ends_iff.1 (planned_ofStore _)).2 e hmid
    · exact planned_ok _

theorem planned_stepsFrom (hcancel : ∀ k, ctl.cancelled k = false)
    (hcap : c.cap ≤ MAX_TOTAL_PAYLOAD) (room start : ℕ) :
    Planned (stepsFrom B Z fanout store ctl c room start) := by
  induction room generalizing start with
  | zero =>
    rw [stepsFrom]
    split
    · exact .splitLimit _
    · exact planned_ok _
  | succ room ih =>
    rw [stepsFrom]
    split
    · exact (planned_cut hcancel hcap _).bind fun next _ => (ih _).bind fun rest _ => planned_ok _
    · exact planned_ok _

theorem effectivePayloadCap_le {requested cap : ℕ} {advertised : Option ℕ}
    (h : effectivePayloadCap requested advertised = .ok cap) : cap ≤ MAX_TOTAL_PAYLOAD := by
  rw [effectivePayloadCap] at h
  split at h
  · exact nomatch h
  · obtain rfl := Except.ok.inj h
    exact (min_le_left _ _).trans (min_le_right _ _)

/-- **How planning fails** when nobody cancels. -/
theorem planFailure_of_error (hcancel : ∀ k, ctl.cancelled k = false) {tip : Hash}
    {remote_tip : Option Hash} {limits : UploadLimits} {pack_payload_cap : ℕ}
    {condition : RefWriteCondition} {branch : String} {e : PushError}
    (h : planPushSteps B Z fanout store ctl tip remote_tip limits pack_payload_cap condition
      branch = .error e) : PlanFailure e := by
  have hplanned : Planned (planPushSteps B Z fanout store ctl tip remote_tip limits
      pack_payload_cap condition branch) := by
    refine Planned.bind ?_ fun cap hcap => (planned_walkChain hcancel _ _).bind fun chain _ => ?_
    · rw [effectivePayloadCap]
      split
      · exact .payloadTooLarge 0
      · exact planned_ok _
    · have hsteps : ∀ c : Cutter, c.cap = cap →
          Planned (stepsFrom B Z fanout store ctl c ctl.max_steps 0) := fun c hc =>
        planned_stepsFrom hcancel (hc ▸ effectivePayloadCap_le hcap) _ _
      have hrest : Planned (do
          let weights ← cumulativeWeights B store ctl chain
          let must_reach ← positionsToReach B store chain remote_tip
          stepsFrom B Z fanout store ctl
            { chain := chain, weights := weights, remote_tip := remote_tip, limits := limits
              cap := cap, budget := dataPackBudget limits, must_reach := must_reach }
            ctl.max_steps 0) :=
        (planned_cumulativeWeights hcancel _).bind fun weights _ =>
          (planned_positionsToReach _ _).bind fun must_reach _ => hsteps _ rfl
      split
      · exact planned_ok _
      · split
        · refine Planned.bind ?_ fun _ _ => hrest
          cases hauthorize : StepAuthority.authorize _ branch condition _ with
          | ok => exact planned_ok ()
          | error text => exact .notAuthorized text
        · exact hrest
  exact (ends_iff.1 hplanned).2 e h

end Failing

/-! ### A run taken apart -/

section Running

variable {B : Blake3} {Z : Zstd} {fanout : ℕ} {store : ObjectStore} {ctl : PushControl}
  {tip : Hash} {remote_tip : Option Hash} {limits : UploadLimits} {pack_payload_cap : ℕ}
  {condition : RefWriteCondition} {branch : String} {c : Cutter} {start : ℕ}

/-- What it takes for planning to succeed. -/
theorem planPushSteps_eq_ok {steps : List Hash} :
    planPushSteps B Z fanout store ctl tip remote_tip limits pack_payload_cap condition branch =
        .ok steps ↔
      ∃ cap chain, effectivePayloadCap pack_payload_cap limits.max_pack_bytes = .ok cap ∧
        walkChain B store ctl tip remote_tip = .ok chain ∧
        (chain.commits = [] ∧ steps = [tip] ∨ chain.commits ≠ [] ∧
          (∀ authority ∈ ctl.authority,
            authority.authorize branch condition (1 < chain.commits.length) = .ok ()) ∧
          ∃ weights must_reach, cumulativeWeights B store ctl chain = .ok weights ∧
            positionsToReach B store chain remote_tip = .ok must_reach ∧
            stepsFrom B Z fanout store ctl
              ⟨chain, weights, remote_tip, limits, cap, dataPackBudget limits, must_reach⟩
              ctl.max_steps 0 = .ok steps) := by
  have hrest : ∀ chain cap, (do
        let weights ← cumulativeWeights B store ctl chain
        let must_reach ← positionsToReach B store chain remote_tip
        stepsFrom B Z fanout store ctl
          ⟨chain, weights, remote_tip, limits, cap, dataPackBudget limits, must_reach⟩
          ctl.max_steps 0) = .ok steps ↔
      ∃ weights must_reach, cumulativeWeights B store ctl chain = .ok weights ∧
        positionsToReach B store chain remote_tip = .ok must_reach ∧
        stepsFrom B Z fanout store ctl
          ⟨chain, weights, remote_tip, limits, cap, dataPackBudget limits, must_reach⟩
          ctl.max_steps 0 = .ok steps := by
    intro chain cap
    rw [Wire.bind_eq_ok]
    refine exists_congr fun weights => ?_
    rw [Wire.bind_eq_ok, exists_and_left]
  rw [planPushSteps, Wire.bind_eq_ok]
  refine exists_congr fun cap => ?_
  rw [exists_and_left, Wire.bind_eq_ok]
  refine and_congr_right fun _ => exists_congr fun chain => and_congr_right fun _ => ?_
  cases hcommits : chain.commits with
  | nil =>
    rw [List.isEmpty_nil, if_pos rfl]
    refine ⟨fun h => .inl ⟨rfl, (Except.ok.inj h).symm⟩, ?_⟩
    rintro (⟨-, rfl⟩ | ⟨hne, -⟩)
    · rfl
    · exact absurd rfl hne
  | cons commit commits =>
    rw [List.isEmpty_cons, if_neg Bool.false_ne_true, ← hcommits]
    have hne : chain.commits ≠ [] := hcommits ▸ List.cons_ne_nil _ _
    rw [or_iff_right fun h => hne h.1, and_iff_right hne, ← hrest]
    cases ctl.authority with
    | none => exact (and_iff_right fun _ h => nomatch h).symm
    | some authority =>
      dsimp only
      rw [Wire.bind_eq_ok]
      constructor
      · rintro ⟨_, hauthorize, h⟩
        exact ⟨fun a ha => Option.some.inj ha ▸ Wire.mapError_eq_ok.1 hauthorize, h⟩
      · rintro ⟨hauthorize, h⟩
        exact ⟨(), Wire.mapError_eq_ok.2 (hauthorize authority rfl), h⟩

/-- Behind each of its steps the loop has made the others. -/
theorem stepsFrom_suffix (hlength : c.weights.length = c.chain.commits.length + 1)
    (hreach : c.must_reach ≤ c.chain.commits.length) {room : ℕ} {pre post : List Hash} {head : Hash}
    (h : stepsFrom B Z fanout store ctl c room start = .ok (pre ++ head :: post)) :
    ∃ d room', start < d ∧ d ≤ c.chain.commits.length ∧ room' ≤ room ∧
      head = c.chain.commit d ∧ stepsFrom B Z fanout store ctl c room' d = .ok post := by
  induction room generalizing start pre with
  | zero =>
    rw [stepsFrom] at h
    split at h
    · cases h
    · exact absurd (Except.ok.inj h) (by simp)
  | succ room ih =>
    rw [stepsFrom] at h
    split at h
    · rename_i hlt
      obtain ⟨next, hcut, h⟩ := Wire.bind_eq_ok.1 h
      obtain ⟨rest, hrest, h⟩ := Wire.bind_eq_ok.1 h
      obtain ⟨hnext, hle, -⟩ := lt_of_cut hlength hlt hreach hcut
      cases pre with
      | nil =>
        obtain ⟨rfl, rfl⟩ := List.cons.inj (Except.ok.inj h)
        exact ⟨next, room, hnext, hle, Nat.le_succ _, rfl, hrest⟩
      | cons first pre =>
        obtain ⟨-, rfl⟩ := List.cons.inj (Except.ok.inj h)
        obtain ⟨d, room', hd, hd_le, hroom, hhead, hpost⟩ := ih hrest
        exact ⟨d, room', hnext.trans hd, hd_le, hroom.trans (Nat.le_succ _), hhead, hpost⟩
    · exact absurd (Except.ok.inj h) (by simp)

/-- A later commit of the chain reaches an earlier one. -/
theorem reaches_earlier {base : Option Hash} {chain : Chain}
    (hwalks : Walks B store ctl.shallow tip chain.commits base) {i j : ℕ} (hi : 0 < i)
    (hij : i ≤ j) (hj : j ≤ chain.commits.length) :
    ReflTransGen (FirstParentOf B store) (chain.commit j) (chain.commit i) := by
  rcases Nat.eq_or_lt_of_le hij with rfl | hlt
  · exact .refl
  · rw [Chain.commit, Chain.commit, List.getD_eq_getElem _ _ (by omega),
      List.getD_eq_getElem _ _ (by omega)]
    exact (List.pairwise_iff_getElem.1 hwalks.pairwise (i - 1) (j - 1) _ _
      (by omega)).to_reflTransGen

/-- What must be reached holds the remote head, if the tip does. -/
theorem positionsToReach_eq_ok {chain : Chain} {must_reach : ℕ} (hne : chain.commits ≠ [])
    (h : positionsToReach B store chain remote_tip = .ok must_reach) :
    must_reach ≤ chain.commits.length ∧ ∀ remote ∈ remote_tip, store.contains remote = true →
      IsAncestor (store.readObject B) remote (chain.commit chain.commits.length) →
      0 < must_reach ∧ IsAncestor (store.readObject B) remote (chain.commit must_reach) := by
  have hlength : 0 < chain.commits.length := List.length_pos_iff.2 hne
  rw [positionsToReach] at h
  split at h
  · rename_i hnone
    obtain rfl := Except.ok.inj h
    refine ⟨Nat.zero_le _, fun remote hremote hcontains => ?_⟩
    exact absurd hcontains (Option.filter_eq_none_iff.1 hnone remote hremote)
  · rename_i r hr
    obtain ⟨found, hfound, h⟩ := Wire.bind_eq_ok.1 h
    have hsame : ∀ remote ∈ remote_tip, remote = r := fun remote hremote =>
      Option.some.inj (hremote.symm.trans (Option.filter_eq_some_iff.1 hr).1)
    by_cases htrue : found = true
    · rw [if_pos htrue] at h
      obtain ⟨hlow, hhigh, hpass⟩ := searchDown_eq_ok h le_rfl hlength
      refine ⟨hhigh, fun remote hremote _ hancestor => ⟨hlow, ?_⟩⟩
      rw [hsame remote hremote] at hancestor ⊢
      rcases hpass with rfl | hpass
      · exact hancestor
      · exact (descends_eq_ok hpass).1 rfl
    · rw [if_neg htrue] at h
      obtain rfl := Except.ok.inj h
      refine ⟨Nat.zero_le _, fun remote hremote _ hancestor => absurd ?_ htrue⟩
      rw [hsame remote hremote] at hancestor
      exact (descends_eq_ok hfound).2 hancestor

/-- The last commit of the chain is the tip. -/
theorem commit_length {base : Option Hash} {chain : Chain}
    (hwalks : Walks B store ctl.shallow tip chain.commits base) (hne : chain.commits ≠ []) :
    chain.commit chain.commits.length = tip := by
  have hlast := hwalks.getLast?_eq hne
  rw [List.getLast?_eq_getElem?] at hlast
  rw [Chain.commit, List.getD_eq_getElem?_getD, hlast, Option.getD_some]

/-- An empty chain says that the remote holds the tip. -/
theorem closure_of_held {chain : Chain} (hwalk : walkChain B store ctl tip remote_tip = .ok chain)
    (hempty : chain.commits = []) : ∃ r held T, remote_tip = some r ∧ IsClosure B store r held ∧
      T ⊆ held ∧ IsClosure B store tip T := by
  obtain ⟨held, base, hheld, hwalks, -, -, hbase, -⟩ := walkChain_eq_ok hwalk
  rw [hempty] at hwalks
  have htip := hbase tip hwalks.base_eq
  rcases heldClosure_eq_ok hheld with ⟨rfl, -⟩ | ⟨r, hr, hclosure⟩
  · exact absurd htip (Finset.notMem_empty tip)
  · obtain ⟨T, hsub, hT⟩ := hclosure.of_mem htip
    exact ⟨r, held, T, hr, hclosure, hsub, hT⟩

/-- Nothing is sent to a remote that holds the tip. -/
theorem fits_of_held {chain : Chain} {cap : ℕ}
    (hwalk : walkChain B store ctl tip remote_tip = .ok chain) (hempty : chain.commits = []) :
    Fits B Z fanout store cap limits remote_tip tip := by
  obtain ⟨r, held, T, rfl, hclosure, hsub, hT⟩ := closure_of_held hwalk hempty
  refine fun plan hplan => .inl ⟨[], ?_, Nat.zero_le _⟩
  obtain ⟨new_set, remote_set, base_map, have_old, hnew, hremote, hsends, -⟩ :=
    planPackWith_eq_ok hplan
  obtain rfl := Except.ok.inj (hT.reachableObjects.symm.trans hnew)
  rw [remoteSide_of_closure hclosure hremote, Finset.sdiff_eq_empty_iff_subset.2 hsub] at hsends
  have hsizes : plan.sizes store = [] := List.length_eq_zero_iff.1 hsends.length_sizes
  rw [estimatePackSizes, hsends.mapM_objectLen]
  exact congrArg (fun sizes => Except.ok (estimateFrom _ _ sizes 0 0)) hsizes

/-- Planning again from the tip finds nothing left to do. -/
theorem planPushSteps_tip {T : Finset Hash} (hT : IsClosure B store tip T) {cap : ℕ}
    (hcap : effectivePayloadCap pack_payload_cap limits.max_pack_bytes = .ok cap) :
    planPushSteps B Z fanout store ctl tip (some tip) limits pack_payload_cap condition branch =
        .ok [tip] ∨
      planPushSteps B Z fanout store ctl tip (some tip) limits pack_payload_cap condition branch =
        .error tooLargeToSplit := by
  obtain ⟨cut, hchecked, -⟩ := hT.checked
  have hroot : (some tip).filter (store.contains ·) = some tip :=
    Option.filter_eq_some_iff.2 ⟨rfl, hT.contains hT.self_mem⟩
  cases cut with
  | false =>
    have hheld : heldClosure B store (some tip) = .ok T := by
      rw [heldClosure, hroot]
      dsimp only
      rw [hchecked]
    refine .inl (planPushSteps_eq_ok.2 ⟨cap, ⟨[], T⟩, hcap, ?_, .inl ⟨rfl, rfl⟩⟩)
    refine Wire.bind_eq_ok.2 ⟨T, hheld, Wire.bind_eq_ok.2
      ⟨_, walkFrom_of_mem hT.self_mem, ?_⟩⟩
    dsimp only
    rw [if_pos ⟨rfl, rfl⟩]
    rfl
  | true =>
    have hheld : heldClosure B store (some tip) = .error tooLargeToSplit := by
      rw [heldClosure, hroot]
      dsimp only
      rw [hchecked]
    right
    rw [planPushSteps, hcap]
    change (walkChain B store ctl tip (some tip) >>= _) = _
    rw [walkChain, hheld]
    rfl

end Running

/-! ### The main result -/

section Main

variable {B : Blake3} {Z : Zstd} {fanout : ℕ} {store : ObjectStore} {ctl : PushControl}
  {tip : Hash} {remote_tip : Option Hash} {limits : UploadLimits} {pack_payload_cap : ℕ}
  {condition : RefWriteCondition} {branch : String}

/-- What the steps of a push are good for. -/
structure SoundSteps (B : Blake3) (Z : Zstd) (fanout : ℕ) (store : ObjectStore) (tip : Hash)
    (remote_tip : Option Hash) (limits : UploadLimits) (cap : ℕ) (steps : List Hash) : Prop where
  /-- They are some of the first parents below the tip, in their order. -/
  on_chain : ∃ chain : List Hash, chain.IsChain (fun a b => FirstParentOf B store b a) ∧
    chain.getLast? = some tip ∧ steps.Sublist chain
  ascending : steps.Pairwise fun a b => TransGen (FirstParentOf B store) b a
  last : steps.getLast? = some tip
  /-- A remote head that the tip descends from is not left behind by the first one. -/
  descends : ∀ remote ∈ remote_tip, IsAncestor (store.readObject B) remote tip →
    ∀ first ∈ steps.head?, ReflTransGen (HistoryParent B store) first remote
  fits : (remote_tip :: steps.map some).IsChain fun old new =>
    ∀ head ∈ new, Fits B Z fanout store cap limits old head

/-- Planning again with a step as the remote head gives the steps behind it, if no first parent
is a remix. With the last step, which is the tip, there is nothing to split. -/
def Resumable (B : Blake3) (Z : Zstd) (fanout : ℕ) (store : ObjectStore) (ctl : PushControl)
    (tip : Hash) (limits : UploadLimits) (pack_payload_cap : ℕ) (branch : String)
    (steps : List Hash) : Prop :=
  ∀ (pre : List Hash) (head : Hash) (post : List Hash), steps = pre ++ head :: post →
    ∀ (ctl' : PushControl) (condition : RefWriteCondition), ctl'.shallow = ctl.shallow →
      ctl'.max_chain = ctl.max_chain → ctl'.max_steps = ctl.max_steps →
      (∀ k, ctl'.cancelled k = false) →
      (∀ authority ∈ ctl'.authority, ∀ later_steps,
        authority.authorize branch condition later_steps = .ok ()) →
      (post ≠ [] →
        (∀ a, ReflTransGen (FirstParentOf B store) tip a →
          ∀ r, store.readObject B a ≠ .ok (.remix r)) →
        planPushSteps B Z fanout store ctl' tip (some head) limits pack_payload_cap condition
          branch = .ok post) ∧
      (post = [] → head = tip ∧
        (planPushSteps B Z fanout store ctl' tip (some head) limits pack_payload_cap condition
            branch = .ok [tip] ∨
          planPushSteps B Z fanout store ctl' tip (some head) limits pack_payload_cap condition
            branch = .error tooLargeToSplit))

/-- A history that is present has the files of its ancestors, and reads wherever it is walked. -/
theorem historyReads_of_present (hhistory : ∀ a, ReflTransGen (HistoryParent B store) tip a →
      ∃ obj, store.readObject B a = .ok obj) {a : Hash}
    (ha : ReflTransGen (HistoryParent B store) tip a) : HistoryReads (store.readObject B) a := by
  intro h hh e he
  obtain ⟨obj, hobj⟩ := hhistory h (ha.trans
    (ReflTransGen.mono (fun _ _ hab => historyParent_of_parentOf hab) _ _ hh))
  exact nomatch hobj.symm.trans he

theorem historyParents_of_firstParents {a b : Hash}
    (h : ReflTransGen (FirstParentOf B store) a b) : ReflTransGen (HistoryParent B store) a b :=
  ReflTransGen.mono (fun _ _ hab => FirstParentOf.historyParent hab) _ _ h

/-- The advances of a run, as heads of the branch. -/
theorem isChain_fits {c : Cutter} {ps : List ℕ} {start : ℕ}
    (h : (start :: ps).IsChain (Advance B Z fanout store c)) :
    (c.base start :: (ps.map c.chain.commit).map some).IsChain fun old new =>
      ∀ head ∈ new, Fits B Z fanout store c.cap c.limits old head := by
  induction ps generalizing start with
  | nil => exact .singleton _
  | cons p ps ih =>
    obtain ⟨hadvance, hrest⟩ := List.isChain_cons_cons.1 h
    have hbase : c.base p = some (c.chain.commit p) :=
      if_neg (Nat.ne_of_gt (Nat.zero_lt_of_lt hadvance.lt))
    rw [List.map_cons, List.map_cons, List.isChain_cons_cons]
    exact ⟨fun head hhead => Option.some.inj hhead ▸ hadvance.fits, hbase ▸ ih hrest⟩

theorem soundSteps_of_split (hsize : ∀ h, store.fileLen h ≤ MAX_RAW_OBJECT_SIZE)
    (hshallow : ∀ a ∈ ctl.shallow, Reaches B store tip a → ∀ p, ¬ HistoryParent B store a p)
    {c : Cutter} (hwalk : walkChain B store ctl tip c.remote_tip = .ok c.chain)
    (hne : c.chain.commits ≠ []) (hweights : cumulativeWeights B store ctl c.chain = .ok c.weights)
    (hpositions : positionsToReach B store c.chain c.remote_tip = .ok c.must_reach)
    (hbudget : c.budget = dataPackBudget c.limits) {room : ℕ} {steps : List Hash}
    (hsteps : stepsFrom B Z fanout store ctl c room 0 = .ok steps) :
    SoundSteps B Z fanout store tip c.remote_tip c.limits c.cap steps := by
  obtain ⟨rest, -, hm⟩ := measured_of_run hsize hshallow hwalk hweights
  obtain ⟨held, base, -, hwalks, -⟩ := walkChain_eq_ok hwalk
  obtain ⟨hreach, hdescends⟩ := positionsToReach_eq_ok hne hpositions
  obtain ⟨ps, rfl, hchain, hlast⟩ := stepsFrom_eq_ok hm hbudget hreach (Nat.zero_le _) hsteps
  have hlength : 0 < c.chain.commits.length := List.length_pos_iff.2 hne
  have htip := commit_length hwalks hne
  have hsub := sublist_of_advances hchain
  rw [List.drop_zero] at hsub
  refine ⟨⟨c.chain.commits, hwalks.isChain, hwalks.getLast?_eq hne, hsub⟩,
    hwalks.pairwise.sublist hsub, ?_, fun remote hremote hancestor first hfirst => ?_,
    isChain_fits hchain⟩
  · cases ps with
    | nil => exact absurd (Option.some.inj hlast) hlength.ne
    | cons p ps =>
      rw [List.getLast?_cons_cons] at hlast
      rw [List.getLast?_map, hlast, Option.map_some, htip]
  · cases ps with
    | nil => exact nomatch hfirst
    | cons p ps =>
      obtain rfl := Option.some.inj hfirst
      have hadvance := (List.isChain_cons_cons.1 hchain).1
      have hheld := hm.closure _ hlength le_rfl
      rw [htip] at hheld
      have hmem := (hheld.mem remote).2 (ReflTransGen.mono
        (fun _ _ hab => refersTo_of_historyParent (historyParent_of_parentOf hab)) _ _ hancestor)
      obtain ⟨hpos, hreached⟩ :=
        hdescends remote hremote (hheld.contains hmem) (htip.symm ▸ hancestor)
      exact (historyParents_of_firstParents
        (reaches_earlier hwalks hpos (hadvance.reaches rfl) hadvance.le)).trans
          (ReflTransGen.mono (fun _ _ => historyParent_of_parentOf) _ _ hreached)

theorem soundSteps_of_held {chain : Chain} {cap : ℕ}
    (hwalk : walkChain B store ctl tip remote_tip = .ok chain) (hempty : chain.commits = []) :
    SoundSteps B Z fanout store tip remote_tip limits cap [tip] where
  on_chain := ⟨[tip], .singleton tip, rfl, List.Sublist.refl _⟩
  ascending := List.pairwise_singleton _ _
  last := rfl
  descends := fun remote _ hancestor first hfirst => Option.some.inj hfirst ▸
    ReflTransGen.mono (fun _ _ => historyParent_of_parentOf) _ _ hancestor
  fits := by
    rw [List.map_singleton, List.isChain_pair]
    exact fun head hhead => Option.some.inj hhead ▸ fits_of_held hwalk hempty

theorem resumable_of_split (hsize : ∀ h, store.fileLen h ≤ MAX_RAW_OBJECT_SIZE)
    (hhistory : ∀ a, ReflTransGen (HistoryParent B store) tip a →
      ∃ obj, store.readObject B a = .ok obj)
    (hshallow : ∀ a ∈ ctl.shallow, Reaches B store tip a → ∀ p, ¬ HistoryParent B store a p)
    (hacyclic : ∀ a, ¬ TransGen (RefersTo B .history store) a a)
    {c : Cutter} (hcap : effectivePayloadCap pack_payload_cap c.limits.max_pack_bytes = .ok c.cap)
    (hwalk : walkChain B store ctl tip c.remote_tip = .ok c.chain)
    (hne : c.chain.commits ≠ []) (hweights : cumulativeWeights B store ctl c.chain = .ok c.weights)
    (hpositions : positionsToReach B store c.chain c.remote_tip = .ok c.must_reach)
    (hbudget : c.budget = dataPackBudget c.limits) {steps : List Hash}
    (hsteps : stepsFrom B Z fanout store ctl c ctl.max_steps 0 = .ok steps) :
    Resumable B Z fanout store ctl tip c.limits pack_payload_cap branch steps := by
  intro pre head post hsplit ctl' condition hsame hmax_chain hmax_steps hcancel hauthority
  obtain ⟨rest, hsweeps, hm⟩ := measured_of_run hsize hshallow hwalk hweights
  obtain ⟨held, base, -, hwalks, hroom, -⟩ := walkChain_eq_ok hwalk
  obtain ⟨hreach, -⟩ := positionsToReach_eq_ok hne hpositions
  have hlength : c.weights.length = c.chain.commits.length + 1 := by
    rw [hm.weights_eq, List.length_map, hm.length_eq]
  obtain ⟨d, room, hd, hd_le, hroom_le, rfl, hpost⟩ :=
    stepsFrom_suffix hlength hreach (hsplit ▸ hsteps)
  refine ⟨fun hleft hcommits => ?_, fun hnone => ?_⟩
  · have hlt : d < c.chain.commits.length := by
      refine lt_of_not_ge fun hge => hleft ?_
      rw [stepsFrom_of_ge (not_lt.2 hge)] at hpost
      exact (Except.ok.inj hpost).symm
    have hbelow : ∀ a ∈ c.chain.commits.drop d, ReflTransGen (FirstParentOf B store) tip a :=
      fun a ha => firstParents_of_walks hwalks (List.mem_of_mem_drop ha)
    have hdrop : c.chain.commits.drop d ≠ [] := fun hnil =>
      absurd (List.drop_eq_nil_iff.1 hnil) (not_le.2 hlt)
    have hclosure := hm.closure d hd hd_le
    have hreached : positionsToReach B store
        ⟨c.chain.commits.drop d, (c.chain.seed :: rest).getD d ∅⟩ (some (c.chain.commit d)) =
          .ok 1 :=
      positionsToReach_rest (walks_rest hwalks hd hd_le) hdrop
        (hclosure.contains hclosure.self_mem) (fun a ha => hcommits a (hbelow a ha))
        fun a ha => historyReads_of_present hhistory (historyParents_of_firstParents (hbelow a ha))
    have hrests : Rests c ⟨_, _, _, c.limits, c.cap, dataPackBudget c.limits, 1⟩ d :=
      rests_of_run hm hd hlt rfl rfl rfl rfl rfl hbudget.symm le_rfl
    exact planPushSteps_eq_ok.2 ⟨c.cap, _, hcap,
      walkChain_rest hm hacyclic hwalks hd hlt hcancel hsame (hmax_chain.symm ▸ hroom),
      .inr ⟨hdrop, fun authority ha => hauthority authority ha _, _, 1,
        cumulativeWeights_rest hm hsweeps hd_le hcancel hsame, hreached,
        hrests.stepsFrom hcancel (hroom_le.trans_eq hmax_steps.symm) hpost⟩⟩
  · have hend : d = c.chain.commits.length := by
      refine hd_le.antisymm (not_lt.1 fun hlt => ?_)
      subst hnone
      cases room with
      | zero =>
        rw [stepsFrom, if_pos hlt] at hpost
        cases hpost
      | succ room =>
        rw [stepsFrom, if_pos hlt] at hpost
        obtain ⟨next, -, hpost⟩ := Wire.bind_eq_ok.1 hpost
        obtain ⟨more, -, hpost⟩ := Wire.bind_eq_ok.1 hpost
        cases Except.ok.inj hpost
    have htip : c.chain.commit d = tip := hend ▸ commit_length hwalks hne
    rw [htip]
    exact ⟨rfl, planPushSteps_tip (htip ▸ hm.closure d hd hd_le) hcap⟩

theorem resumable_of_held {chain : Chain} {cap : ℕ}
    (hcap : effectivePayloadCap pack_payload_cap limits.max_pack_bytes = .ok cap)
    (hwalk : walkChain B store ctl tip remote_tip = .ok chain) (hempty : chain.commits = []) :
    Resumable B Z fanout store ctl tip limits pack_payload_cap branch [tip] := by
  intro pre head post hsplit ctl' condition _ _ _ _ _
  obtain ⟨-, -, T, -, -, -, hT⟩ := closure_of_held hwalk hempty
  obtain ⟨rfl, rfl, rfl⟩ : pre = [] ∧ head = tip ∧ post = [] := by
    cases pre with
    | nil =>
      obtain ⟨hhead, hpost⟩ := List.cons.inj hsplit
      exact ⟨rfl, hhead.symm, hpost.symm⟩
    | cons first pre => exact absurd (List.cons.inj hsplit).2 (by simp)
  exact ⟨fun hleft => absurd rfl hleft, fun _ => ⟨rfl, planPushSteps_tip hT hcap⟩⟩

/-- **Split pushes are sound and resumable.** Take a store that keeps its size limit, with an
acyclic history that is present below the tip and nowhere cut off by a shallow boundary. The steps
of a plan are sound and resumable. If nobody cancels, planning fails only in the ways listed. The
loops end: the ancestry test within its fuel, and the loop over the steps with one round for each
commit at most. -/
theorem planPushSteps_sound (hsize : ∀ h, store.fileLen h ≤ MAX_RAW_OBJECT_SIZE)
    (hhistory : ∀ a, ReflTransGen (HistoryParent B store) tip a →
      ∃ obj, store.readObject B a = .ok obj)
    (hshallow : ∀ a ∈ ctl.shallow, Reaches B store tip a → ∀ p, ¬ HistoryParent B store a p)
    (hacyclic : ∀ a, ¬ TransGen (RefersTo B .history store) a a) :
    (∀ steps, planPushSteps B Z fanout store ctl tip remote_tip limits pack_payload_cap condition
        branch = .ok steps →
      ∃ cap, effectivePayloadCap pack_payload_cap limits.max_pack_bytes = .ok cap ∧
        SoundSteps B Z fanout store tip remote_tip limits cap steps ∧
        Resumable B Z fanout store ctl tip limits pack_payload_cap branch steps) ∧
    (∀ e, (∀ k, ctl.cancelled k = false) →
      planPushSteps B Z fanout store ctl tip remote_tip limits pack_payload_cap condition branch =
        .error e → PlanFailure e) ∧
    (∀ a d, (isAncestor (store.readObject B) (walkFuel B store) a d).isSome) ∧
    ∀ (c : Cutter) (start room : ℕ), c.weights.length = c.chain.commits.length + 1 →
      c.must_reach ≤ c.chain.commits.length → c.chain.commits.length - start ≤ room →
      stepsFrom B Z fanout store ctl c room start =
        stepsFrom B Z fanout store ctl c (c.chain.commits.length - start) start := by
  refine ⟨fun steps hsteps => ?_, fun e hcancel => planFailure_of_error hcancel,
    isSome_isAncestor_walkFuel B store, fun c start room hlength hreach hroom =>
      stepsFrom_of_le hlength hreach hroom le_rfl⟩
  obtain ⟨cap, chain, hcap, hwalk, h⟩ := planPushSteps_eq_ok.1 hsteps
  refine ⟨cap, hcap, ?_⟩
  rcases h with ⟨hempty, rfl⟩ | ⟨hne, -, weights, must_reach, hweights, hpositions, hrun⟩
  · exact ⟨soundSteps_of_held hwalk hempty, resumable_of_held hcap hwalk hempty⟩
  · let c : Cutter :=
      ⟨chain, weights, remote_tip, limits, cap, dataPackBudget limits, must_reach⟩
    have hsound : SoundSteps B Z fanout store tip c.remote_tip c.limits c.cap steps :=
      soundSteps_of_split hsize hshallow hwalk hne hweights hpositions rfl hrun
    have hresumable : Resumable B Z fanout store ctl tip c.limits pack_payload_cap branch steps :=
      resumable_of_split hsize hhistory hshallow hacyclic hcap hwalk hne hweights hpositions rfl
        hrun
    exact ⟨hsound, hresumable⟩

end Main

/-! A tree and three commits of it in a line. -/

def pushFiles : List (Hash × Bytes) :=
  let tree := bisectFile (.tree ⟨[]⟩)
  let commit (parents : List Hash) (timestamp : UInt64) := bisectFile (.commit ⟨tree.1, parents,
    ⟨.opaqueBytes, [1]⟩, ByteArr.fill 32 0, [], timestamp, ZERO, ZERO, ByteArr.fill 64 0⟩)
  let first := commit [] 1
  let second := commit [first.1] 2
  [tree, first, second, commit [second.1] 3]

/-- An object of the history, by its place. -/
def pushId (i : ℕ) : Hash := (pushFiles.map Prod.fst).getD i ZERO

def pushStore : ObjectStore := bisectStore pushFiles

/-- Two tickets, one of them for the packmap node. -/
def pushLimits : UploadLimits := ⟨none, some 2, none⟩

def pushControl : PushControl := ⟨fun _ => false, none, 1000, 1000000, ∅⟩

/-- The steps to the last commit, with a payload that holds one commit but not two. -/
def pushSteps (remote_tip : Option Hash) : Except PushError (List Hash) :=
  planPushSteps toyBlake3 .unavailable 1 pushStore pushControl (pushId 3) remote_tip pushLimits 250
    .any "main"

/-- How old an object is. -/
def pushRank (h : Hash) : ℕ :=
  match pushStore.readObject toyBlake3 h with
  | .ok (.commit c) => c.timestamp.toNat
  | _ => 0

theorem push_objects : ∀ h ∈ pushStore.keys, pushStore.fileLen h ≤ MAX_RAW_OBJECT_SIZE ∧
    ∃ obj, pushStore.readObject toyBlake3 h = .ok obj ∧
      ∀ a ∈ children obj .history, a ∈ pushStore.keys ∧ pushRank a < pushRank h := by
  have hall : ∀ h ∈ pushStore.keys, pushStore.fileLen h ≤ MAX_RAW_OBJECT_SIZE ∧
      ((pushStore.readObject toyBlake3 h).toOption.any fun obj =>
        (children obj .history).all fun a => a ∈ pushStore.keys ∧ pushRank a < pushRank h) := by
    decide +kernel
  intro h hh
  obtain ⟨hsize, hread⟩ := hall h hh
  obtain ⟨obj, hobj, hchildren⟩ := (Option.any_eq_true _ _).1 hread
  refine ⟨hsize, obj, ?_, fun a ha => of_decide_eq_true (List.all_eq_true.1 hchildren a ha)⟩
  cases hcase : pushStore.readObject toyBlake3 h with
  | ok o =>
    rw [hcase] at hobj
    exact congrArg Except.ok (Option.some.inj hobj)
  | error e =>
    rw [hcase] at hobj
    exact nomatch hobj

theorem push_refersTo {a b : Hash} (h : RefersTo toyBlake3 .history pushStore a b) :
    b ∈ pushStore.keys ∧ pushRank b < pushRank a := by
  obtain ⟨obj, hobj, hb⟩ := h
  have ha : a ∈ pushStore.keys := by
    have hcontains := ObjectStore.contains_of_objectType
      (ObjectStore.objectType_of_readObject _ hobj)
    rwa [ObjectStore.contains, AList.lookup_isSome, AList.mem_keys] at hcontains
  obtain ⟨-, obj', hobj', hchildren⟩ := push_objects a ha
  obtain rfl := Except.ok.inj (hobj.symm.trans hobj')
  exact hchildren b hb

theorem pushSteps_first : pushSteps (some (pushId 1)) = .ok [pushId 2, pushId 3] := by
  decide +kernel

theorem pushSteps_last : pushSteps (some (pushId 3)) = .ok [pushId 3] := by
  decide +kernel

/-- The two commits that the remote lacks take an advance each. -/
theorem planPushSteps_sound_sample : ∃ cap, effectivePayloadCap 250 none = .ok cap ∧
    SoundSteps toyBlake3 .unavailable 1 pushStore (pushId 3) (some (pushId 1)) pushLimits cap
      [pushId 2, pushId 3] ∧
    Resumable toyBlake3 .unavailable 1 pushStore pushControl (pushId 3) pushLimits 250 "main"
      [pushId 2, pushId 3] := by
  have hsize : ∀ h, pushStore.fileLen h ≤ MAX_RAW_OBJECT_SIZE := by
    intro h
    by_cases hh : h ∈ pushStore.keys
    · exact (push_objects h hh).1
    · have hlookup : pushStore.lookup h = none := AList.lookup_eq_none.2 (mt AList.mem_keys.1 hh)
      rw [ObjectStore.fileLen, ObjectStore.objectLen, hlookup]
      exact Nat.zero_le _
  have hhistory : ∀ a, ReflTransGen (HistoryParent toyBlake3 pushStore) (pushId 3) a →
      ∃ obj, pushStore.readObject toyBlake3 a = .ok obj := by
    intro a ha
    have hmem : a ∈ pushStore.keys := by
      cases ha with
      | refl => decide +kernel
      | tail _ hstep => exact (push_refersTo (refersTo_of_historyParent hstep)).1
    obtain ⟨-, obj, hobj, -⟩ := push_objects a hmem
    exact ⟨obj, hobj⟩
  have hacyclic : ∀ a, ¬ TransGen (RefersTo toyBlake3 .history pushStore) a a := by
    have hlt : ∀ a b, TransGen (RefersTo toyBlake3 .history pushStore) a b →
        pushRank b < pushRank a := by
      intro a b hab
      induction hab with
      | single hab => exact (push_refersTo hab).2
      | tail _ hbc ih => exact (push_refersTo hbc).2.trans ih
    exact fun a ha => lt_irrefl _ (hlt a a ha)
  exact (planPushSteps_sound hsize hhistory
    (fun a ha => absurd ha (Finset.notMem_empty a)) hacyclic).1 _ pushSteps_first

/-- With the last of them as the remote head the tip is planned again, where no step is left. -/
theorem planPushSteps_not_resumed : pushSteps (some (pushId 1)) = .ok [pushId 2, pushId 3] ∧
    ¬ ∀ (pre : List Hash) (head : Hash) (post : List Hash),
      [pushId 2, pushId 3] = pre ++ head :: post → pushSteps (some head) = .ok post := by
  refine ⟨pushSteps_first, fun h => ?_⟩
  exact nomatch Except.ok.inj (pushSteps_last.symm.trans (h [pushId 2] (pushId 3) [] rfl))

end Mkit.PushSplit
