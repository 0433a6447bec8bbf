import Mkit.PackRoundTrip
import Mkit.PushSplitSound

/-!
# What a Plan Carries

A plan takes a remote that holds what is reachable from the old tip to one that also holds what is
reachable from the new one (`transfer.rs`). The main result is `plan_reconstructs`: the plan has an
entry for each object that the remote lacks, and however the entries are ordered and cut into packs,
what they stand for are these objects, byte for byte.
-/

namespace Mkit.PushSplit

open Closure Gathering NextFit Pack Relation Transfer

variable {B : Blake3} {s : ObjectStore}

/-- The remote is taken to hold what was enumerated from the old tip, or nothing, and nothing only
if the closure of the old tip is not here. -/
theorem remoteSide_eq_ok {new_tip : Hash} {old_tip : Option Hash} {remote : Finset Hash}
    {base_map : BaseMap} {have_old : Bool}
    (h : remoteSide B s new_tip old_tip = .ok (remote, base_map, have_old)) :
    (remote = ∅ ∧ have_old = false ∧ ∀ o ∈ old_tip, ∀ R, ¬ IsClosure B s o R) ∨
      ∃ o ∈ old_tip, reachableObjects B s o = .ok remote ∧ have_old = true := by
  rw [remoteSide] at h
  cases hold : old_tip.filter (s.contains ·) with
  | none =>
    rw [hold] at h
    have hside := Except.ok.inj h
    simp only [Prod.mk.injEq] at hside
    exact .inl ⟨hside.1.symm, hside.2.2.symm, fun o ho R hR =>
      Option.filter_eq_none_iff.1 hold o ho (hR.contains hR.self_mem)⟩
  | some o =>
    rw [hold] at h
    have ho := (Option.filter_eq_some_iff.1 hold).1
    dsimp only at h
    cases hreach : reachableObjects B s o with
    | ok out =>
      rw [hreach] at h
      dsimp only at h
      obtain ⟨base_map, -, h⟩ := Wire.bind_eq_ok.1 h
      have hside := Except.ok.inj h
      simp only [Prod.mk.injEq] at hside
      exact .inr ⟨o, ho, hside.1 ▸ hreach, hside.2.2.symm⟩
    | error e =>
      rw [hreach] at h
      cases e with
      | objectNotFound hex =>
        have hside := Except.ok.inj h
        simp only [Prod.mk.injEq] at hside
        refine .inl ⟨hside.1.symm, hside.2.2.symm, fun o' ho' R hR => ?_⟩
        obtain rfl := Option.some.inj (ho.symm.trans ho')
        cases hreach.symm.trans hR.reachableObjects
      | _ => cases h

/-! ### The estimate of a plan -/

/-- **The estimate is safe.** A plan with something to send that is estimated within the budget is
packed into no more packs than estimated, and never refused as too large. -/
theorem build_of_estimate (B : Blake3) (Z : Zstd) (fanout : ℕ) (s : ObjectStore)
    (new_tip : Hash) (old_tip : Option Hash) (plan : PackPlan) (payload_cap : ℕ)
    (limits : UploadLimits) (sink : PackSink) (cancelled : ℕ → Bool) (sizes : List ℕ)
    (h : planPackWith B s new_tip old_tip = .ok plan) (hne : plan.isEmpty = false)
    (hcap : payload_cap ≤ MAX_TOTAL_PAYLOAD)
    (hcard : plan.raw.length + plan.deltas.length ≤ MAX_ENTRIES)
    (hsizes : estimatePackSizes payload_cap limits.max_pack_bytes s plan = .ok sizes)
    (hbudget : sizes.length ≤ dataPackBudget limits)
    (hsink : ∀ n pack packs limit commit held,
      sink.accept n pack ≠ .error (.pushTooLarge packs limit commit held)) :
    Ends (fun pack_keys => pack_keys.length ≤ sizes.length)
      (fun e => ∀ packs limit commit held, e ≠ .pushTooLarge packs limit commit held)
      (buildAndUploadPacks B Z fanout s payload_cap limits sink cancelled plan) := by
  obtain ⟨new_set, remote, -, -, -, -, hsends, -, -⟩ := planPackWith_eq_ok h
  have hlen := hsends.perm.length_eq
  rw [List.length_append, List.length_map, Finset.length_sort] at hlen
  have hbins : sizes.length = (planFill payload_cap limits s plan).closed + 1 := by
    rw [estimatePackSizes, hsends.mapM_objectLen] at hsizes
    obtain rfl := Except.ok.inj hsizes
    have hlength : _ + (estimateFrom payload_cap limits.max_pack_bytes _ _ _).length = _ :=
      length_estimateFrom (plan.sizes s) .empty
    have hcount : 0 < (planFill payload_cap limits s plan).count := by
      refine Fill.count_putAll (.inl fun hnil => ?_)
      rw [PackPlan.sizes, List.append_eq_nil_iff, List.map_eq_nil_iff, List.map_eq_nil_iff] at hnil
      rw [PackPlan.isEmpty, hnil.1, hnil.2] at hne
      cases hne
    rw [Fill.bins, if_pos hcount] at hlength
    exact (Nat.zero_add _).symm.trans hlength
  refine (ends_buildAndUploadPacks hcap hsends (hlen ▸ hcard)).imp (fun _ hkeys => hbins ▸ hkeys) ?_
  rintro e (⟨err, rfl⟩ | he) packs limit commit held heq
  · cases heq
  · subst heq
    cases he with
    | tooLarge hle => omega
    | rejected h => exact hsink _ _ _ _ _ _ h

theorem build_of_estimate_last :
    Ends (fun pack_keys => pack_keys.length ≤ 1)
      (fun e => ∀ packs limit commit held, e ≠ .pushTooLarge packs limit commit held)
      (buildAndUploadPacks toyBlake3 .unavailable 1 pushStore 1000 pushLimits .count
        (fun _ => false) ⟨[pushId 3], [], false⟩) :=
  build_of_estimate toyBlake3 .unavailable 1 pushStore (pushId 3) (some (pushId 2)) _ 1000
    pushLimits .count _ [299] (by decide +kernel) rfl (by decide) (by decide) (by decide +kernel)
    (by decide) nofun

/-! ### The entries -/

/-- An entry carries an object of the store to a remote that holds `remote`. -/
inductive Carries (B : Blake3) (s : ObjectStore) (remote : Finset Hash) : Push → Hash → Prop
  | raw {a : Hash} {bytes : Bytes} (h : s.read B a = .ok bytes) :
      Carries B s remote (.raw a bytes) a
  | delta {d : PlannedDelta} (hbase : d.base ∈ remote) (h : Rebuilds B s d) :
      Carries B s remote (.delta d.base d.stream) d.target

/-- What a pack of such entries stands for, after objects that the remote lacked. -/
theorem Carries.objects {remote : Finset Hash} {src : DeltaBaseSource} {ps : List Push}
    {ids : List Hash} (h : List.Forall₂ (Carries B s remote) ps ids)
    (hsrc : ∀ a ∈ remote, ∀ bytes, s.read B a = .ok bytes → src.provides B a = .ok bytes)
    (hids : ∀ a ∈ ids, a ∉ remote ∧
      ∀ bytes, s.read B a = .ok bytes → ∃ o, identify B bytes = .ok (o, a))
    {made : List (Hash × Bytes)} (hmade : ∀ r ∈ remote, Tally.latest made r = none) :
    ∃ objs, Objects B src made ps objs ∧ objs.map Prod.fst = ids ∧
      ∀ q ∈ objs, s.read B q.1 = .ok q.2 := by
  induction h generalizing made with
  | nil => exact ⟨[], .nil, rfl, fun _ hq => absurd hq List.not_mem_nil⟩
  | @cons p a ps ids hp _ ih =>
    obtain ⟨ha, hstored⟩ := hids a List.mem_cons_self
    have hrest : ∀ bytes : Bytes, s.read B a = .ok bytes →
        ∃ objs, Objects B src (made ++ [(a, bytes)]) ps objs ∧ objs.map Prod.fst = ids ∧
          ∀ q ∈ objs, s.read B q.1 = .ok q.2 := fun bytes _ => by
      refine ih (fun b hb => hids b (List.mem_cons_of_mem _ hb)) fun r hr => ?_
      have hne : a ≠ r := fun heq => ha (heq ▸ hr)
      rw [Tally.latest_snoc, if_neg hne]
      exact hmade r hr
    have hall : ∀ {bytes : Bytes} {objs : List (Hash × Bytes)}, s.read B a = .ok bytes →
        (∀ q ∈ objs, s.read B q.1 = .ok q.2) → ∀ q ∈ (a, bytes) :: objs, s.read B q.1 = .ok q.2 :=
      fun hread hobjs q hq => by
        rcases List.mem_cons.1 hq with rfl | hq
        · exact hread
        · exact hobjs q hq
    cases hp with
    | raw hread =>
      obtain ⟨o, hid⟩ := hstored _ hread
      obtain ⟨objs, hobjs, rfl, hreads⟩ := hrest _ hread
      exact ⟨_, .raw hid hobjs, rfl, hall hread hreads⟩
    | delta hbase hd =>
      obtain ⟨v, bytes, hv, hread, hdecode⟩ := hd
      obtain ⟨o, hid⟩ := hstored _ hread
      obtain ⟨objs, hobjs, rfl, hreads⟩ := hrest _ hread
      refine ⟨_, .delta ?_ hdecode hid hobjs, rfl, hall hread hreads⟩
      -- The base is not among the objects made, which the remote lacked.
      rw [baseOf, hmade _ hbase]
      exact hsrc _ hbase v hv

/-- However the entries are cut into packs, each pack can be read on its own. -/
theorem Carries.packs {remote : Finset Hash} {src : DeltaBaseSource} {packs : List (List Push)}
    {ids : List Hash} (h : List.Forall₂ (Carries B s remote) packs.flatten ids)
    (hsrc : ∀ a ∈ remote, ∀ bytes, s.read B a = .ok bytes → src.provides B a = .ok bytes)
    (hids : ∀ a ∈ ids, a ∉ remote ∧
      ∀ bytes, s.read B a = .ok bytes → ∃ o, identify B bytes = .ok (o, a)) :
    ∃ objs, List.Forall₂ (Objects B src []) packs objs ∧ objs.flatten.map Prod.fst = ids ∧
      ∀ q ∈ objs.flatten, s.read B q.1 = .ok q.2 := by
  induction packs generalizing ids with
  | nil =>
    cases h
    exact ⟨[], .nil, rfl, fun _ hq => absurd hq List.not_mem_nil⟩
  | cons ps packs ih =>
    rw [List.flatten_cons] at h
    obtain ⟨objs, hobjs, hfst, hreads⟩ := Carries.objects
      (List.forall₂_take_append ids _ _ h.flip).flip hsrc
      (fun a ha => hids a (List.mem_of_mem_take ha)) fun _ _ => Tally.latest_nil _
    obtain ⟨rest, hrest, hfst', hreads'⟩ := ih (List.forall₂_drop_append ids _ _ h.flip).flip
      fun a ha => hids a (List.mem_of_mem_drop ha)
    refine ⟨objs :: rest, .cons hobjs hrest, ?_, fun q hq => ?_⟩
    · rw [List.flatten_cons, List.map_append, hfst, hfst', List.take_append_drop]
    · rcases List.mem_append.1 hq with hq | hq
      · exact hreads q hq
      · exact hreads' q hq

/-- **A plan reconstructs.** With the closure of the new tip here, readable and storable, the plan
sends each object of it that the remote is not taken to hold once; the remote is taken to hold the
closure of the old tip, if that is here, and in any case nothing else. A delta is smaller than its
target, its base is held, and however the entries are ordered and cut into packs, each pack can be
read on its own over what the remote holds, and together they give the missing objects, byte for
byte. -/
theorem plan_reconstructs (B : Blake3) (s : ObjectStore) (new_tip : Hash) (old_tip : Option Hash)
    (plan : PackPlan) (T : Finset Hash) (raws : List Push)
    (h : planPackWith B s new_tip old_tip = .ok plan) (hT : IsClosure B s new_tip T)
    (hraws : prepareRawBatch B s plan.raw = .ok raws)
    (hstored : ∀ a ∈ T, ∀ bytes, s.read B a = .ok bytes → ∃ o, identify B bytes = .ok (o, a)) :
    ∃ remote : Finset Hash,
      (∀ a ∈ remote, ∃ o ∈ old_tip, Reaches B s o a) ∧
      (∀ o ∈ old_tip, ∀ R, IsClosure B s o R → remote = R ∧ plan.self_contained = false) ∧
      (plan.self_contained = true → remote = ∅ ∧ plan.deltas = []) ∧
      (plan.raw ++ plan.deltas.map (·.target)).Perm ((T \ remote).sort (· ≤ ·)) ∧
      (∀ d ∈ plan.deltas, d.base ∈ remote ∧ deltaSize d < s.fileLen d.target) ∧
      ∀ src : DeltaBaseSource,
        (∀ a ∈ remote, ∀ bytes, s.read B a = .ok bytes → src.provides B a = .ok bytes) →
        ∀ packs : List (List Push),
          packs.flatten.Perm (raws ++ prepareDeltaBatch plan.deltas) →
          ∃ objs, List.Forall₂ (Objects B src []) packs objs ∧
            (objs.flatten.map Prod.fst).Perm ((T \ remote).sort (· ≤ ·)) ∧
            ∀ q ∈ objs.flatten, s.read B q.1 = .ok q.2 := by
  obtain ⟨new_set, remote, base_map, have_old, hnew, hremote, hsends, hself, hdeltas⟩ :=
    planPackWith_eq_ok h
  obtain rfl : T = new_set := Except.ok.inj (hT.reachableObjects.symm.trans hnew)
  refine ⟨remote, fun a ha => ?_, fun o ho R hR => ?_, fun hcontained => ?_, hsends.perm,
    fun d hd => ⟨(hdeltas d hd).1, (hsends.smaller d hd).1⟩, fun src hsrc packs hpacks => ?_⟩
  · rcases remoteSide_eq_ok hremote with ⟨rfl, -⟩ | ⟨o, ho, hreach, -⟩
    · exact absurd ha (Finset.notMem_empty a)
    · obtain ⟨⟨out, cut⟩, hrun, hout⟩ := Wire.bind_eq_ok.1 hreach
      obtain rfl : out = remote := Except.ok.inj hout
      exact ⟨o, ho, reach_singleton.1 (reachable_of_mem hrun a ha).1⟩
  · rcases remoteSide_eq_ok hremote with ⟨-, -, hnone⟩ | ⟨o', ho', hreach, rfl⟩
    · exact absurd hR (hnone o ho R)
    · obtain rfl := Option.some.inj (ho.symm.trans ho')
      exact ⟨Except.ok.inj (hreach.symm.trans hR.reachableObjects), hself⟩
  · rcases remoteSide_eq_ok hremote with ⟨rfl, -⟩ | ⟨-, -, -, rfl⟩
    · exact ⟨rfl, List.eq_nil_iff_forall_not_mem.2 fun d hd =>
        Finset.notMem_empty d.base (hdeltas d hd).1⟩
    · rw [hself] at hcontained
      exact nomatch hcontained
  · have hcarries : List.Forall₂ (Carries B s remote) (raws ++ prepareDeltaBatch plan.deltas)
        (plan.raw ++ plan.deltas.map (·.target)) := by
      refine List.rel_append ((prepareRawBatch_eq_ok_iff.1 hraws).flip.imp ?_) ?_
      · rintro p a ⟨bytes, hread, rfl⟩
        exact .raw hread
      · rw [prepareDeltaBatch, List.forall₂_map_left_iff, List.forall₂_map_right_iff,
          List.forall₂_same]
        exact fun d hd => .delta (hdeltas d hd).1 (hdeltas d hd).2
    obtain ⟨ids, hids, hperm⟩ := List.perm_comp_forall₂ hpacks hcarries
    have hmem : ∀ a ∈ ids, a ∈ T \ remote := fun a ha => hsends.mem_send (hperm.mem_iff.1 ha)
    obtain ⟨objs, hobjs, rfl, hreads⟩ := Carries.packs hids hsrc fun a ha =>
      ⟨(Finset.mem_sdiff.1 (hmem a ha)).2, hstored a (Finset.mem_sdiff.1 (hmem a ha)).1⟩
    exact ⟨objs, hobjs, hperm.trans hsends.perm, hreads⟩

/-- The last commit is sent to a remote that has the rest. -/
theorem plan_reconstructs_last :
    planPackWith toyBlake3 pushStore (pushId 3) (some (pushId 2)) = .ok ⟨[pushId 3], [], false⟩ ∧
    ∃ objs, List.Forall₂ (Objects toyBlake3 (storeBases toyBlake3 pushStore) [])
        [[.raw (pushId 3) ((pushFiles.map Prod.snd).getD 3 [])]] objs ∧
      (objs.flatten.map Prod.fst).Perm [pushId 3] := by
  have hplan : planPackWith toyBlake3 pushStore (pushId 3) (some (pushId 2)) =
      .ok ⟨[pushId 3], [], false⟩ := by
    decide +kernel
  have hraws : prepareRawBatch toyBlake3 pushStore [pushId 3] =
      .ok [.raw (pushId 3) ((pushFiles.map Prod.snd).getD 3 [])] := by
    decide +kernel
  -- The members stand in the order in which the walks find them.
  have hT : IsClosure toyBlake3 pushStore (pushId 3) {pushId 1, pushId 2, pushId 0, pushId 3} :=
    isClosure_of_checked (by decide +kernel)
  have hR : IsClosure toyBlake3 pushStore (pushId 2) {pushId 1, pushId 0, pushId 2} :=
    isClosure_of_checked (by decide +kernel)
  have hstored : ∀ a ∈ ({pushId 1, pushId 2, pushId 0, pushId 3} : Finset Hash),
      (pushStore.read toyBlake3 a).toOption.all fun bytes =>
        (identify toyBlake3 bytes).toOption.any (·.2 = a) ∧
          (storeBases toyBlake3 pushStore).provides toyBlake3 a = .ok bytes := by
    decide +kernel
  have hread : ∀ a ∈ ({pushId 1, pushId 2, pushId 0, pushId 3} : Finset Hash), ∀ bytes : Bytes,
      pushStore.read toyBlake3 a = .ok bytes → (∃ o, identify toyBlake3 bytes = .ok (o, a)) ∧
        (storeBases toyBlake3 pushStore).provides toyBlake3 a = .ok bytes := by
    intro a ha bytes hread
    have hall := hstored a ha
    rw [hread] at hall
    obtain ⟨hid, hprovides⟩ := of_decide_eq_true hall
    refine ⟨?_, hprovides⟩
    cases hcase : identify toyBlake3 bytes with
    | error e =>
      rw [hcase] at hid
      exact nomatch hid
    | ok x =>
      rw [hcase] at hid
      exact ⟨x.1, congrArg Except.ok (Prod.ext rfl (of_decide_eq_true hid))⟩
  obtain ⟨remote, -, hheld, -, hsends, -, hpacks⟩ := plan_reconstructs toyBlake3 pushStore _ _ _ _ _
    hplan hT hraws fun a ha bytes h => (hread a ha bytes h).1
  obtain ⟨rfl, -⟩ := hheld _ rfl _ hR
  obtain ⟨objs, hobjs, hfst, -⟩ := hpacks (storeBases toyBlake3 pushStore)
    (fun a ha bytes h => (hread a ((by decide +kernel : ({pushId 1, pushId 0, pushId 2} :
      Finset Hash) ⊆ {pushId 1, pushId 2, pushId 0, pushId 3}) ha) bytes h).2)
    [[.raw (pushId 3) ((pushFiles.map Prod.snd).getD 3 [])]] (.refl _)
  exact ⟨hplan, objs, hobjs, hfst.trans hsends.symm⟩

end Mkit.PushSplit
