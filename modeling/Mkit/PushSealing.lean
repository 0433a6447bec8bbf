import Mkit.MergeBase
import Mkit.PushPacks

/-!
# Sealed Packs

What the packs of a push hold (`push/mod.rs`). `estimatePackSizes` packs the entries of a plan by
their sizes before compression. `buildAndUploadPacks` judges each entry by that size too, but what
is in the pack already by what it takes up. Both work through the entries in order, so they are two
next-fit packings of one list: `estimatedPacks`, and the packs that are sealed.

`Building` ties the state of the loop to the second packing: the writer holds the frames of the
open bin, and the keys are those of the closed ones.

## Main results

* `estimatePackSizes_eq_ok` — the estimate is the bounds of the estimated packs;
* `buildAndUploadPacks_eq_ok` — a plan is packed exactly when its objects can be read, and staging
  them and the deltas one after another and sealing the rest succeeds, whatever the fan-out;
* `buildAndUploadPacks_spec` — the entries stand in the packs in order, within the limits, and no
  pack ends before the estimated one.
-/

namespace Mkit.PushSplit

open Effect Gathering NextFit Pack Transfer

/-! ### Packs -/

section Packs

variable (B : Blake3) (Z : Zstd)

/-- The frames of these entries. -/
def packFrames (g : List Push) : List Frame :=
  g.map (Push.frame Z false)

/-- The pack of these entries. -/
def sealedPack (g : List Push) : Bytes :=
  packBytes B (versionOf (packFrames Z g)) (packFrames Z g)

/-- What an entry takes up. -/
def storedLen (p : Push) : ℕ :=
  (p.frame Z false).payload.length

variable {B Z}

theorem payloadSum_packFrames (g : List Push) :
    payloadSum (packFrames Z g) = (g.map (storedLen Z)).sum := by
  rw [packFrames, payloadSum, List.map_map]
  rfl

/-- The size of the pack of these entries, if nothing is compressed. -/
def packBound (g : List Push) : ℕ :=
  serializedBound (min (g.map conservativeLen).sum U64_MAX) g.length

end Packs

/-! ### The estimated packs -/

section Estimated

variable (payload_cap : ℕ) (max_pack_bytes : Option ℕ)

/-- Entries packed by their sizes before compression. -/
def estimatedBins (ps : List Push) : Bins Push :=
  Bins.empty.placeAll (Overfull payload_cap max_pack_bytes) conservativeLen conservativeLen ps

/-- The packs that the estimate counts. -/
def estimatedPacks (ps : List Push) : List (List Push) :=
  (estimatedBins payload_cap max_pack_bytes ps).all

variable {payload_cap max_pack_bytes}

theorem estimateFrom_placeAll (b : Bins Push) (ps : List Push) :
    b.closed.map packBound ++ estimateFrom payload_cap max_pack_bytes (ps.map conservativeLen)
        (min (b.current.map conservativeLen).sum U64_MAX) b.current.length =
      (b.placeAll (Overfull payload_cap max_pack_bytes) conservativeLen conservativeLen
        ps).all.map packBound := by
  induction ps generalizing b with
  | nil =>
    rw [List.map_nil, estimateFrom, Bins.placeAll, List.foldl_nil, Bins.all]
    by_cases h : b.current = []
    · rw [h]
      simp
    · rw [if_pos (List.length_pos_iff.2 h), if_neg (by rwa [List.isEmpty_iff]), List.map_append]
      rfl
  | cons p ps ih =>
    rw [List.map_cons, estimateFrom, Bins.placeAll, List.foldl_cons]
    refine Eq.trans ?_ (ih _)
    rw [Bins.place, saturatingAdd_min]
    by_cases hfull : 0 < b.current.length ∧ Overfull payload_cap max_pack_bytes
        ((b.current.map conservativeLen).sum + conservativeLen p) (b.current.length + 1)
    · rw [if_pos hfull, if_pos hfull]
      simp [packBound, saturatingAdd]
    · rw [if_neg hfull, if_neg hfull]
      simp

/-- **The estimate.** -/
theorem estimateFrom_eq (ps : List Push) :
    estimateFrom payload_cap max_pack_bytes (ps.map conservativeLen) 0 0 =
      (estimatedPacks payload_cap max_pack_bytes ps).map packBound :=
  estimateFrom_placeAll .empty ps

end Estimated

section Sealing

variable {B : Blake3} {Z : Zstd} {fanout : ℕ} {s : ObjectStore} {payload_cap : ℕ}
  {limits : UploadLimits} {sink : PackSink} {cancelled : ℕ → Bool} {plan : PackPlan}
  {st st' : Sealing} {b : Bins Push}

/-- The entries of a plan have the sizes that are estimated. -/
theorem map_conservativeLen_entries {raws : List Push}
    (h : List.Forall₂ (ReadsAs B s) plan.raw raws) :
    (raws ++ prepareDeltaBatch plan.deltas).map conservativeLen = plan.sizes s := by
  rw [List.map_append, (sizes_of_readsAs h).1, map_conservativeLen_prepareDeltaBatch]
  rfl

/-- **The estimate of a plan** whose objects can be read: the bounds of the estimated packs. -/
theorem estimatePackSizes_eq_ok {raws : List Push} {max_pack_bytes : Option ℕ}
    (h : List.Forall₂ (ReadsAs B s) plan.raw raws) {raw_sizes : List ℕ}
    (hsizes : plan.raw.mapM s.objectLen = .ok raw_sizes) :
    estimatePackSizes payload_cap max_pack_bytes s plan =
      .ok ((estimatedPacks payload_cap max_pack_bytes
        (raws ++ prepareDeltaBatch plan.deltas)).map packBound) := by
  have hraw : raw_sizes = plan.raw.map s.fileLen := by
    have hlens : List.Forall₂ (fun h len => s.fileLen h = id len) plan.raw raw_sizes := by
      refine (mapM_eq_ok.1 hsizes).imp fun h len hlen => ?_
      rw [ObjectStore.fileLen, hlen]
      rfl
    rw [map_eq_map_of_forall₂ hlens, List.map_id]
  rw [estimatePackSizes, hsizes, ← estimateFrom_eq, map_conservativeLen_entries h, hraw]
  rfl

/-! ### One entry -/

/-- What sealing does: the pack is finished, kept within the limit and the tickets, and handed
over. -/
theorem sealPack_eq_ok (h : sealPack B limits sink cancelled st = .ok st') :
    ∃ pack, st.w.finish B = .ok pack ∧ (∀ limit ∈ limits.max_pack_bytes, pack.length ≤ limit) ∧
      sink.accept st.pack_keys.length pack = .ok () ∧ st'.w = .new ∧
      st'.pack_keys = st.pack_keys ++ [B.hash pack] ∧
      (ticketedPack limits pack.length = true → st.ticketed_count < dataPackBudget limits) ∧
      st'.ticketed_count = if ticketedPack limits pack.length then st.ticketed_count + 1
        else st.ticketed_count := by
  unfold sealPack at h
  by_cases hcancel : cancelled st.pack_keys.length = true
  · rw [if_pos hcancel] at h
    cases h
  · rw [if_neg hcancel] at h
    obtain ⟨pack, hpack, h⟩ := Wire.bind_eq_ok.1 h
    refine ⟨pack, ?_, ?_⟩
    · rw [ofPack] at hpack
      cases hfinish : st.w.finish B with
      | ok p =>
        rw [hfinish] at hpack
        rw [Except.ok.inj hpack]
      | error e =>
        rw [hfinish] at hpack
        cases hpack
    · dsimp only at h
      by_cases hbudget : ticketedPack limits pack.length = true ∧
          dataPackBudget limits ≤ st.ticketed_count
      · rw [if_pos hbudget] at h
        cases h
      · rw [if_neg hbudget] at h
        by_cases hlimit : limits.max_pack_bytes.any (· < pack.length) = true
        · rw [if_pos hlimit] at h
          cases h
        · rw [if_neg hlimit] at h
          obtain ⟨_, haccept, h⟩ := Wire.bind_eq_ok.1 h
          obtain rfl := Except.ok.inj h
          refine ⟨fun limit hmem => not_lt.1 fun hlt => hlimit ?_, haccept, rfl, rfl,
            fun hticket => not_le.1 fun hle => hbudget ⟨hticket, hle⟩, rfl⟩
          exact (Option.any_eq_true _ _).2 ⟨limit, hmem, decide_eq_true hlt⟩

/-- What adding an entry does. -/
theorem pushEntry_eq_ok_iff {p : Push} : pushEntry Z p st = .ok st' ↔ p.Accepted st.w.raw_only ∧
      st.w.HasRoom (p.frame Z st.w.raw_only) ∧
      st' = { st with w := st.w.append (p.frame Z st.w.raw_only) } := by
  rw [pushEntry, Push.runPrepared_eq]
  constructor
  · intro h
    split at h
    · rename_i w hexec
      obtain ⟨haccepted, hroom, rfl⟩ := (Push.yields_run Z).1 hexec
      exact ⟨haccepted, hroom, (Except.ok.inj h).symm⟩
    · cases h
  · rintro ⟨haccepted, hroom, rfl⟩
    have hyields : Yields (p.run Z) st.w () (st.w.append (p.frame Z st.w.raw_only)) :=
      (Push.yields_run Z).2 ⟨haccepted, hroom, rfl⟩
    rw [hyields]

/-- The writer holds the entries of the open bin; the closed bins were sealed within the limits,
handed over in order, and their keys noted. -/
structure Building (B : Blake3) (Z : Zstd) (limits : UploadLimits) (sink : PackSink)
    (st : Sealing) (b : Bins Push) : Prop where
  holds : st.w.Holds (packFrames Z b.current)
  total_eq : st.w.total_payload = payloadSum (packFrames Z b.current)
  deltas : st.w.raw_only = false
  keys_eq : st.pack_keys = b.closed.map fun g => B.hash (sealedPack B Z g)
  payload_le : ∀ g ∈ b.closed, payloadSum (packFrames Z g) ≤ MAX_TOTAL_PAYLOAD
  length_le : ∀ g ∈ b.closed, ∀ limit ∈ limits.max_pack_bytes, (sealedPack B Z g).length ≤ limit
  accepted : ∀ i g, b.closed[i]? = some g → sink.accept i (sealedPack B Z g) = .ok ()

theorem building_start : Building B Z limits sink ⟨.new, [], 0⟩ .empty where
  holds := PackWriter.holds_new
  total_eq := rfl
  deltas := rfl
  keys_eq := rfl
  payload_le := fun _ hg => absurd hg List.not_mem_nil
  length_le := fun _ hg => absurd hg List.not_mem_nil
  accepted := fun i g hg => by
    rw [Bins.empty, List.getElem?_nil] at hg
    exact nomatch hg

/-- Sealing closes the open bin. -/
theorem Building.sealPack (h : Building B Z limits sink st b)
    (hseal : PushSplit.sealPack B limits sink cancelled st = .ok st') :
    Building B Z limits sink st' ⟨b.closed ++ [b.current], []⟩ := by
  obtain ⟨pack, hpack, hlimit, haccept, hw, hkeys, -, -⟩ := sealPack_eq_ok hseal
  obtain rfl : sealedPack B Z b.current = pack := by
    rw [(h.holds.finish B).1] at hpack
    exact Except.ok.inj hpack
  refine ⟨?_, ?_, ?_, ?_, fun g hg => ?_, fun g hg => ?_, fun i g hg => ?_⟩
  · rw [hw]
    exact PackWriter.holds_new
  · rw [hw]
    rfl
  · rw [hw]
    rfl
  · rw [hkeys, h.keys_eq, List.map_append, List.map_singleton]
  · rcases List.mem_append.1 hg with hg | hg
    · exact h.payload_le g hg
    · obtain rfl := List.mem_singleton.1 hg
      exact h.holds.payload_le.trans h.holds.total_le
  · rcases List.mem_append.1 hg with hg | hg
    · exact h.length_le g hg
    · obtain rfl := List.mem_singleton.1 hg
      exact hlimit
  · dsimp only at hg
    rcases Nat.lt_or_ge i b.closed.length with hi | hi
    · rw [List.getElem?_append_left hi] at hg
      exact h.accepted i g hg
    · rw [List.getElem?_append_right hi, List.getElem?_singleton] at hg
      split at hg
      · rename_i hzero
        obtain rfl : i = b.closed.length := by omega
        obtain rfl := Option.some.inj hg
        rw [h.keys_eq, List.length_map] at haccept
        exact haccept
      · exact nomatch hg

/-- Adding an entry adds it to the open bin. -/
theorem Building.pushEntry (h : Building B Z limits sink st b) {p : Push}
    (hpush : PushSplit.pushEntry Z p st = .ok st') :
    Building B Z limits sink st' ⟨b.closed, b.current ++ [p]⟩ := by
  obtain ⟨-, hroom, rfl⟩ := pushEntry_eq_ok_iff.1 hpush
  have hframes : packFrames Z (b.current ++ [p]) = packFrames Z b.current ++ [p.frame Z false] := by
    rw [packFrames, List.map_append, List.map_singleton]
    rfl
  rw [h.deltas] at hroom ⊢
  refine ⟨?_, ?_, h.deltas, h.keys_eq, h.payload_le, h.length_le, h.accepted⟩
  · rw [hframes]
    exact h.holds.append hroom (p.checkEntryType_frame Z false)
  · rw [hframes, payloadSum_append, payloadSum_cons, payloadSum_nil, ← h.total_eq]
    rfl

/-- An entry is judged by its size before compression, and takes up what is stored of it. -/
theorem Building.stage (h : Building B Z limits sink st b) {p : Push}
    (hstage : PushSplit.stage B Z payload_cap limits sink cancelled st p = .ok st') :
    Building B Z limits sink st'
      (b.place (Overfull payload_cap limits.max_pack_bytes) conservativeLen (storedLen Z) p) := by
  have hseal : shouldSeal payload_cap limits st.w (conservativeLen p) = true ↔
      0 < b.current.length ∧ Overfull payload_cap limits.max_pack_bytes
        ((b.current.map (storedLen Z)).sum + conservativeLen p) (b.current.length + 1) := by
    have hcount : st.w.entry_count = b.current.length := by
      rw [h.holds.count_eq, packFrames, List.length_map]
    rw [shouldSeal, decide_eq_true_iff, hcount, h.total_eq, payloadSum_packFrames]
    rfl
  rw [PushSplit.stage] at hstage
  rw [Bins.place]
  by_cases hfull : shouldSeal payload_cap limits st.w (conservativeLen p) = true
  · rw [if_pos hfull, Wire.bind_eq_ok] at hstage
    obtain ⟨st₁, hst₁, hpush⟩ := hstage
    rw [if_pos (hseal.1 hfull)]
    exact (h.sealPack hst₁).pushEntry hpush
  · rw [if_neg hfull] at hstage
    rw [if_neg fun hover => hfull (hseal.2 hover)]
    exact h.pushEntry hstage

theorem Building.stageAll (h : Building B Z limits sink st b) {ps : List Push}
    (hstage : ps.foldlM (PushSplit.stage B Z payload_cap limits sink cancelled) st = .ok st') :
    Building B Z limits sink st' (b.placeAll (Overfull payload_cap limits.max_pack_bytes)
      conservativeLen (storedLen Z) ps) := by
  induction ps generalizing st b with
  | nil =>
    obtain rfl := Except.ok.inj hstage
    exact h
  | cons p ps ih =>
    rw [List.foldlM_cons, Wire.bind_eq_ok] at hstage
    obtain ⟨st₁, hst₁, hstage⟩ := hstage
    exact ih (h.stage hst₁) hstage

/-! ### A whole plan -/

/-- **What packing a plan comes to.** The batches cover the entries once and in order, so it makes
no difference how they are cut. -/
theorem buildAndUploadPacks_eq_ok {pack_keys : List Hash} :
    buildAndUploadPacks B Z fanout s payload_cap limits sink cancelled plan = .ok pack_keys ↔
      (∃ raw_sizes, plan.raw.mapM s.objectLen = .ok raw_sizes) ∧
      ∃ raws, List.Forall₂ (ReadsAs B s) plan.raw raws ∧
      ∃ st, (raws ++ prepareDeltaBatch plan.deltas).foldlM
          (stage B Z payload_cap limits sink cancelled) ⟨.new, [], 0⟩ = .ok st ∧
      ∃ st', sealPack B limits sink cancelled st = .ok st' ∧ st'.pack_keys = pack_keys := by
  rw [buildAndUploadPacks, Wire.bind_eq_ok, exists_and_right.symm]
  refine exists_congr fun raw_sizes => ?_
  rw [ofStore_eq_ok]
  refine and_congr_right fun hsizes => ?_
  have hflat : (cut (sizeCappedBatchLens payload_cap raw_sizes (max fanout 1)) plan.raw).flatten =
      plan.raw := flatten_batches _ (mapM_eq_ok.1 hsizes).length_eq.symm
  rw [Wire.bind_eq_ok]
  constructor
  · rintro ⟨st₁, hraw, h⟩
    rw [foldlM_gather (fun _ _ => prepareRawBatch_eq_ok_iff), hflat] at hraw
    obtain ⟨raws, hraws, hraw⟩ := hraw
    dsimp only at h
    rw [foldlM_deltaBatches, Wire.bind_eq_ok] at h
    obtain ⟨st, hst, h⟩ := h
    obtain ⟨st', hst', h⟩ := Wire.bind_eq_ok.1 h
    refine ⟨raws, hraws, st, ?_, st', hst', Except.ok.inj h⟩
    rw [List.foldlM_append, Wire.bind_eq_ok]
    exact ⟨st₁, hraw, hst⟩
  · rintro ⟨raws, hraws, st, hst, st', hst', rfl⟩
    rw [List.foldlM_append, Wire.bind_eq_ok] at hst
    obtain ⟨st₁, hraw, hst⟩ := hst
    refine ⟨st₁, ?_, ?_⟩
    · rw [foldlM_gather (fun _ _ => prepareRawBatch_eq_ok_iff), hflat]
      exact ⟨raws, hraws, hraw⟩
    · dsimp only
      rw [foldlM_deltaBatches, Wire.bind_eq_ok]
      exact ⟨st, hst, Wire.bind_eq_ok.2 ⟨st', hst', rfl⟩⟩

/-- The fan-out threshold makes no difference to a plan that is packed. -/
theorem buildAndUploadPacks_fanout {pack_keys : List Hash} (fanout' : ℕ)
    (h : buildAndUploadPacks B Z fanout s payload_cap limits sink cancelled plan = .ok pack_keys) :
    buildAndUploadPacks B Z fanout' s payload_cap limits sink cancelled plan = .ok pack_keys :=
  buildAndUploadPacks_eq_ok.2 (buildAndUploadPacks_eq_ok.1 h)

/-- A pack of several entries that is not overfull is within the payload cap. -/
theorem payloadSum_le_of_not_overfull {g : List Push}
    (htotal : payloadSum (packFrames Z g) ≤ MAX_TOTAL_PAYLOAD)
    (h : ¬ Overfull payload_cap limits.max_pack_bytes (g.map (storedLen Z)).sum g.length) :
    payloadSum (packFrames Z g) ≤ payload_cap := by
  have hle : MAX_TOTAL_PAYLOAD ≤ U64_MAX := by decide
  rw [payloadSum_packFrames] at htotal ⊢
  refine not_lt.1 fun hlt => h (.inl ?_)
  rwa [min_eq_left (htotal.trans hle)]

theorem entries_ne_nil {raws : List Push} (h : List.Forall₂ (ReadsAs B s) plan.raw raws)
    (hne : plan.isEmpty = false) : raws ++ prepareDeltaBatch plan.deltas ≠ [] := by
  intro hnil
  rw [List.append_eq_nil_iff, prepareDeltaBatch, List.map_eq_nil_iff] at hnil
  obtain ⟨rfl, hdeltas⟩ := hnil
  rw [PackPlan.isEmpty, List.forall₂_nil_right_iff.1 h, hdeltas] at hne
  cases hne

/-- **Sealing a plan.** A plan with an entry that is packed has each entry once and in order, in
packs that are not empty. All packs are within the limit of the server, and those with more than
one entry within the payload cap. No pack ends before the estimated one, so there are no more of
them than estimated. The fan-out threshold makes no difference. -/
theorem buildAndUploadPacks_spec (hne : plan.isEmpty = false) {pack_keys : List Hash}
    (h : buildAndUploadPacks B Z fanout s payload_cap limits sink cancelled plan = .ok pack_keys) :
    ∃ (raws : List Push) (packs : List (List Push)),
      List.Forall₂ (ReadsAs B s) plan.raw raws ∧
      packs.flatten = raws ++ prepareDeltaBatch plan.deltas ∧
      (∀ g ∈ packs, g ≠ []) ∧
      pack_keys = packs.map (fun g => B.hash (sealedPack B Z g)) ∧
      (∀ i g, packs[i]? = some g → sink.accept i (sealedPack B Z g) = .ok ()) ∧
      (∀ g ∈ packs, 1 < g.length → payloadSum (packFrames Z g) ≤ payload_cap) ∧
      (∀ g ∈ packs, ∀ limit ∈ limits.max_pack_bytes, (sealedPack B Z g).length ≤ limit) ∧
      (∃ sizes, estimatePackSizes payload_cap limits.max_pack_bytes s plan = .ok sizes ∧
        sizes = (estimatedPacks payload_cap limits.max_pack_bytes packs.flatten).map packBound ∧
        (∀ i, ((estimatedPacks payload_cap limits.max_pack_bytes packs.flatten).take
            (i + 1)).flatten.length ≤ (packs.take (i + 1)).flatten.length) ∧
        pack_keys.length ≤ sizes.length) ∧
      ∀ fanout',
        (∀ sizes, plan.raw.mapM s.objectLen = .ok sizes →
          (cut (sizeCappedBatchLens payload_cap sizes (max fanout' 1)) plan.raw).flatten =
            plan.raw) ∧
        (cut (sizeCappedBatchLens payload_cap (plan.deltas.map deltaSize) (max fanout' 1))
          plan.deltas).flatten = plan.deltas ∧
        buildAndUploadPacks B Z fanout' s payload_cap limits sink cancelled plan =
          .ok pack_keys := by
  obtain ⟨⟨raw_sizes, hsizes⟩, raws, hraws, st, hst, st', hst', rfl⟩ :=
    buildAndUploadPacks_eq_ok.1 h
  obtain ⟨b, hb⟩ : ∃ b, Bins.empty.placeAll (Overfull payload_cap limits.max_pack_bytes)
    conservativeLen (storedLen Z) (raws ++ prepareDeltaBatch plan.deltas) = b := ⟨_, rfl⟩
  have hbuilding := (building_start.stageAll hst).sealPack hst'
  rw [hb] at hbuilding
  have hcurrent : b.current ≠ [] :=
    hb ▸ Bins.current_placeAll_ne_nil (.inr (entries_ne_nil hraws hne))
  have hall := Bins.all_eq hcurrent
  have hflat : b.all.flatten = raws ++ prepareDeltaBatch plan.deltas := by
    rw [Bins.flatten_all, ← hb, Bins.content_placeAll]
    rfl
  have hover : ∀ {l l' n n' : ℕ}, l ≤ l' → n ≤ n' → Overfull payload_cap limits.max_pack_bytes l n →
      Overfull payload_cap limits.max_pack_bytes l' n' := overfull_mono
  have hsound : b.Sound (Overfull payload_cap limits.max_pack_bytes) (storedLen Z) :=
    hb ▸ (Bins.sound_empty (storedLen Z)).placeAll hover
      fun p _ => length_frame_le_conservativeLen p
  have hbehind : Bins.Behind (storedLen Z) conservativeLen b
      (estimatedBins payload_cap limits.max_pack_bytes b.all.flatten) := by
    rw [hflat, ← hb]
    exact (Bins.behind_empty _ _).placeAll hover fun p _ => length_frame_le_conservativeLen p
  have hestimate : estimatePackSizes payload_cap limits.max_pack_bytes s plan = _ :=
    estimatePackSizes_eq_ok hraws hsizes
  rw [← hflat] at hestimate
  rw [← hall] at hbuilding
  refine ⟨raws, b.all, hraws, hflat, hsound.all_ne_nil, hbuilding.keys_eq, hbuilding.accepted,
    fun g hg hone => ?_, hbuilding.length_le, ⟨_, hestimate, rfl, hbehind.take_all_le, ?_⟩,
    fun fanout' => ⟨fun sizes hsizes => ?_, ?_, buildAndUploadPacks_fanout fanout' h⟩⟩
  · exact payloadSum_le_of_not_overfull (hbuilding.payload_le g hg) (hsound.not_over hg hone)
  · rw [hbuilding.keys_eq, List.length_map, List.length_map]
    exact hbehind.length_all_le
  · exact flatten_batches _ (mapM_eq_ok.1 hsizes).length_eq.symm
  · exact flatten_batches _ (List.length_map _)

end Sealing

/-! Two objects of 200 bytes or so and a delta, with a limit that two objects exceed. -/

def sampleLimits : UploadLimits :=
  ⟨some 400, none, none⟩

def samplePlan : PackPlan :=
  ⟨[shortcutId 0, shortcutId 1], [⟨shortcutId 2, shortcutId 1, [1, 2, 3]⟩], true⟩

/-- The plan packed, with so many entries read together. -/
def sampleSealed (fanout : ℕ) : Except PushError (List Hash) :=
  buildAndUploadPacks toyBlake3 .unavailable fanout shortcutStore 1000 sampleLimits .count
    (fun _ => false) samplePlan

def sampleKeys : List Hash := (sampleSealed 2).toOption.getD []

theorem sampleSealed_two : sampleKeys.length = 2 ∧ sampleSealed 2 = .ok sampleKeys := by
  decide +kernel

/-- The two objects and the delta take two packs, and are estimated at least two. -/
theorem sealed_sample : sampleKeys.length = 2 ∧
    (∃ sizes, estimatePackSizes 1000 (some 400) shortcutStore samplePlan = .ok sizes ∧
      2 ≤ sizes.length) ∧ ∀ fanout, sampleSealed fanout = .ok sampleKeys := by
  obtain ⟨_, _, _, _, _, _, _, _, _, ⟨sizes, hsizes, _, _, hle⟩, hfanout⟩ :=
    buildAndUploadPacks_spec (by decide : samplePlan.isEmpty = false) sampleSealed_two.2
  rw [sampleSealed_two.1] at hle
  exact ⟨sampleSealed_two.1, ⟨sizes, hsizes, hle⟩, fun fanout => (hfanout fanout).2.2⟩

/-- A plan with nothing in it is sealed as one empty pack, and estimated at none. -/
theorem sealed_empty_plan :
    ¬ ∀ (B : Blake3) (Z : Zstd) (fanout : ℕ) (s : ObjectStore) (payload_cap : ℕ)
        (limits : UploadLimits) (sink : PackSink) (cancelled : ℕ → Bool) (plan : PackPlan)
        (pack_keys : List Hash), 1 ≤ payload_cap →
      buildAndUploadPacks B Z fanout s payload_cap limits sink cancelled plan = .ok pack_keys →
      ∃ sizes, estimatePackSizes payload_cap limits.max_pack_bytes s plan = .ok sizes ∧
        pack_keys.length ≤ sizes.length := by
  intro hall
  obtain ⟨sizes, hsizes, hle⟩ := hall toyBlake3 .unavailable 1 ∅ 1 ⟨none, none, none⟩ .count
    (fun _ => false) ⟨[], [], true⟩ [toyBlake3.hash (packBytes toyBlake3 VERSION [])]
    le_rfl (by decide +kernel)
  obtain rfl : [] = sizes := Except.ok.inj hsizes
  exact absurd hle (by decide)

end Mkit.PushSplit
