import Mkit.Lib.NextFit
import Mkit.PackRewrite
import Mkit.Refs
import Mkit.Transfer

/-!
# The Packs of an Advance

How many packs a push needs (`push/mod.rs`). `estimatePackSizes` counts them from the sizes of the
objects, before compression; `buildAndUploadPacks` packs and compresses them, and uploads each pack
or, as the split does to check a step, does not. Both are next-fit packings of the same entries, the
second with smaller ones, so it needs no more packs than the first says.

## Main results

* `length_estimateFrom_le` — what weighs at most `k` packs is estimated at most `2 * k` packs;
* `ends_buildAndUploadPacks` — packing ends as the filling that is estimated says.
-/

namespace Mkit.PushSplit

open Effect Gathering NextFit Pack Transfer

/-! ### Limits and failures -/

/-- What the server says about uploads. -/
structure UploadLimits where
  max_pack_bytes : Option ℕ
  tickets_per_advance : Option ℕ
  ticket_threshold_bytes : Option ℕ
deriving DecidableEq

/-- Of the failures of a transport, the one that planning a push uses. -/
inductive SourceError where
  | payloadTooLarge (bytes : ℕ)
deriving DecidableEq

/-- Of the failures of a transfer, those that planning a push meets. -/
inductive SyncError where
  | interrupted
  | source (e : SourceError)
  | store (e : StoreError)
  | pack (e : PackError)
deriving DecidableEq

/-- Why an advance was planned again. -/
inductive RetryReason where
  | lostDeltaBase
  | replanned
  | packmapChanged
deriving DecidableEq

/-- The failures of a push. -/
inductive PushError where
  | sync (e : SyncError)
  | forceCapabilityUnknown
  | nonFastForwardPush (branch : String)
  | packmapContended (branch : String)
  | pushTooLarge (packs limit : ℕ) (commit : Option String) (holds_remote_head : Bool)
  | retryTooLarge (reason : RetryReason) (packs limit : ℕ)
  | pushSplitLimit (text : String)
  | pushNotAuthorized (text : String)
  | splitInterrupted (branch head : String) (published total : ℕ) (cause : PushError)
  | ticketRejected
  | deltaBaseUnavailable
  | packlistNotInRepository
deriving DecidableEq

/-- A failure of the store, as one of the push. -/
def ofStore {α : Type} (x : Except StoreError α) : Except PushError α :=
  x.mapError fun e => .sync (.store e)

theorem ofStore_eq_ok {α : Type} {x : Except StoreError α} {a : α} :
    ofStore x = .ok a ↔ x = .ok a := by
  cases x with
  | ok b => rw [ofStore, Except.mapError, Except.ok.injEq, Except.ok.injEq]
  | error e => exact iff_of_false (fun h => nomatch h) fun h => nomatch h

/-- A failure of the pack writer, as one of the push. -/
def ofPack {α : Type} (x : Except PackError α) : Except PushError α :=
  x.mapError fun e => .sync (.pack e)

/-- `u64::saturating_add`. -/
def saturatingAdd (a b : ℕ) : ℕ :=
  min (a + b) U64_MAX

/-- `u64::saturating_mul`. -/
def saturatingMul (a b : ℕ) : ℕ :=
  min (a * b) U64_MAX

/-- Data packs one advance may carry: the tickets but the one for the packmap node. -/
def dataPackBudget (limits : UploadLimits) : ℕ :=
  match limits.tickets_per_advance with
  | some tickets => min tickets 7 - 1
  | none => 6

/-- The payload a pack may have. -/
def effectivePayloadCap (requested : ℕ) (advertised : Option ℕ) : Except PushError ℕ :=
  let cap := min (min requested MAX_TOTAL_PAYLOAD) (advertised.getD MAX_TOTAL_PAYLOAD)
  if cap = 0 then .error (.sync (.source (.payloadTooLarge 0))) else .ok cap

/-- The size of a pack with so much payload in so many entries. -/
def serializedBound (payload entries : ℕ) : ℕ :=
  saturatingAdd (saturatingAdd payload (saturatingMul entries ENTRY_FRAME_LEN))
    (HEADER_LEN + TRAILER_LEN)

/-- Does a pack of this size take a ticket? -/
def ticketedPack (limits : UploadLimits) (serialized_size : ℕ) : Bool :=
  limits.tickets_per_advance.isSome && limits.ticket_threshold_bytes.getD 0 ≤ serialized_size

/-! ### Estimating -/

section Estimate

variable (payload_cap : ℕ) (max_pack_bytes : Option ℕ)

/-- A pack with so much payload in so many entries is over one of the limits. -/
def Exceeds (payload entries : ℕ) : Prop :=
  payload_cap < payload ∨ max_pack_bytes.any (· < serializedBound payload entries)

instance (payload entries : ℕ) : Decidable (Exceeds payload_cap max_pack_bytes payload entries) :=
  inferInstanceAs (Decidable (_ ∨ _))

/-- The sizes of the packs for entries of these sizes, with a pack under way. -/
def estimateFrom : List ℕ → ℕ → ℕ → List ℕ
  | [], payload, entries => if 0 < entries then [serializedBound payload entries] else []
  | size :: sizes, payload, entries =>
    let next_payload := saturatingAdd payload size
    if 0 < entries ∧ Exceeds payload_cap max_pack_bytes next_payload (entries + 1) then
      serializedBound payload entries :: estimateFrom sizes (saturatingAdd 0 size) 1
    else estimateFrom sizes next_payload (entries + 1)

/-- The weight, frames included, after which a pack must have been sealed. -/
def packWeightCap : ℕ :=
  let serialized := (max_pack_bytes.map (· - (HEADER_LEN + TRAILER_LEN))).getD U64_MAX
  max (min payload_cap serialized) 1

/-- The sizes of the packs a plan needs, if nothing is compressed. -/
def estimatePackSizes (s : ObjectStore) (plan : PackPlan) : Except PushError (List ℕ) := do
  let sizes ← ofStore (plan.raw.mapM s.objectLen)
  pure (estimateFrom payload_cap max_pack_bytes (sizes ++ plan.deltas.map deltaSize) 0 0)

end Estimate

/-! ### Sealing -/

/-- Where sealed packs go: to the remote, or nowhere. What the remote answers may depend on the
packs before. -/
inductive PackSink where
  | upload (send : ℕ → Bytes → Except PushError Unit)
  | count

/-- Hand over a pack, after so many. -/
def PackSink.accept : PackSink → ℕ → Bytes → Except PushError Unit
  | .upload send, n, pack => send n pack
  | .count, _, _ => .ok ()

section Seal

variable (B : Blake3) (Z : Zstd) (fanout : ℕ) (s : ObjectStore) (payload_cap : ℕ)
  (limits : UploadLimits) (sink : PackSink) (cancelled : ℕ → Bool)

/-- The lengths of the batches that are read and compressed together. -/
def batchLensFrom (max_entries : ℕ) : List ℕ → ℕ → ℕ → List ℕ
  | [], _, count => if 0 < count then [count] else []
  | size :: sizes, running, count =>
    if 0 < count ∧ (payload_cap < saturatingAdd running size ∨ max_entries ≤ count) then
      count :: batchLensFrom max_entries sizes size 1
    else batchLensFrom max_entries sizes (running + size) (count + 1)

def sizeCappedBatchLens (sizes : List ℕ) (max_entries : ℕ) : List ℕ :=
  batchLensFrom payload_cap max_entries sizes 0 0

/-- The size of an entry before compression. -/
def conservativeLen : Push → ℕ
  | .raw _ bytes => bytes.length
  | .delta _ stream => HASH_LEN + stream.length

/-- Would an entry of this size overfill the pack? An empty pack takes anything. -/
def shouldSeal (w : PackWriter) (add_bound : ℕ) : Bool :=
  0 < w.entry_count ∧ Exceeds payload_cap limits.max_pack_bytes
    (saturatingAdd w.total_payload add_bound) (w.entry_count + 1)

/-- The packs sealed so far, and the one under way. -/
structure Sealing where
  w : PackWriter
  pack_keys : List Hash
  ticketed_count : ℕ

/-- Seal the pack under way. -/
def sealPack (st : Sealing) : Except PushError Sealing := do
  if cancelled st.pack_keys.length then
    throw (.sync .interrupted)
  let pack ← ofPack (st.w.finish B)
  let is_ticketed := ticketedPack limits pack.length
  let budget := dataPackBudget limits
  if is_ticketed ∧ budget ≤ st.ticketed_count then
    throw (.pushTooLarge (st.ticketed_count + 1) budget none false)
  if limits.max_pack_bytes.any (· < pack.length) then
    throw (.sync (.source (.payloadTooLarge pack.length)))
  sink.accept st.pack_keys.length pack
  pure
    { w := .new
      pack_keys := st.pack_keys ++ [B.hash pack]
      ticketed_count := if is_ticketed then st.ticketed_count + 1 else st.ticketed_count }

/-- Add an entry to the pack under way. -/
def pushEntry (p : Push) (st : Sealing) : Except PushError Sealing :=
  match exec (p.runPrepared Z) st.w with
  | (.ok _, w) => .ok { st with w := w }
  | (.error e, _) => .error (.sync (.pack e))

/-- Add an entry, after sealing the pack under way if it would be overfull. -/
def stage (st : Sealing) (p : Push) : Except PushError Sealing := do
  let st ← if shouldSeal payload_cap limits st.w (conservativeLen p) then
      sealPack B limits sink cancelled st
    else pure st
  pushEntry Z p st

/-- Read a batch of objects. -/
def prepareRawBatch (chunk : List Hash) : Except PushError (List Push) :=
  ofStore (chunk.mapM fun h => do
    let bytes ← s.read B h
    pure (.raw h bytes))

/-- Take a batch of deltas, which are in memory. -/
def prepareDeltaBatch (chunk : List PlannedDelta) : List Push :=
  chunk.map fun d => .delta d.base d.stream

/-- Pack a plan. Compressing the entries of a batch beforehand is left to `pushEntry`, where it
makes no difference. -/
def buildAndUploadPacks (plan : PackPlan) : Except PushError (List Hash) := do
  let raw_sizes ← ofStore (plan.raw.mapM s.objectLen)
  let lens := sizeCappedBatchLens payload_cap raw_sizes (max fanout 1)
  let st ← (cut lens plan.raw).foldlM
    (fun st chunk => do
      let entries ← prepareRawBatch B s chunk
      entries.foldlM (stage B Z payload_cap limits sink cancelled) st)
    (⟨.new, [], 0⟩ : Sealing)
  let delta_lens := sizeCappedBatchLens payload_cap (plan.deltas.map deltaSize) (max fanout 1)
  let st ← (cut delta_lens plan.deltas).foldlM
    (fun st chunk =>
      (prepareDeltaBatch chunk).foldlM (stage B Z payload_cap limits sink cancelled) st)
    st
  let st ← sealPack B limits sink cancelled st
  pure st.pack_keys

end Seal

/-! ### The estimate is a next-fit packing -/

section Bound

variable {payload_cap : ℕ} {max_pack_bytes : Option ℕ}

theorem serializedBound_le (payload entries : ℕ) : serializedBound payload entries ≤
      payload + ENTRY_FRAME_LEN * entries + (HEADER_LEN + TRAILER_LEN) := by
  rw [serializedBound, saturatingAdd, saturatingAdd, saturatingMul, Nat.mul_comm entries]
  omega

theorem serializedBound_mono {payload payload' entries entries' : ℕ} (hp : payload ≤ payload')
    (hn : entries ≤ entries') :
    serializedBound payload entries ≤ serializedBound payload' entries' := by
  have hmul : entries * ENTRY_FRAME_LEN ≤ entries' * ENTRY_FRAME_LEN := Nat.mul_le_mul_right _ hn
  rw [serializedBound, serializedBound, saturatingAdd, saturatingAdd, saturatingAdd, saturatingAdd,
    saturatingMul, saturatingMul]
  omega

theorem exceeds_mono {payload payload' entries entries' : ℕ} (hp : payload ≤ payload')
    (hn : entries ≤ entries') (h : Exceeds payload_cap max_pack_bytes payload entries) :
    Exceeds payload_cap max_pack_bytes payload' entries' := by
  rcases h with h | h
  · exact .inl (h.trans_le hp)
  · refine .inr ?_
    rw [Option.any_eq_true] at h ⊢
    obtain ⟨limit, hlimit, hlt⟩ := h
    exact ⟨limit, hlimit, decide_eq_true
      ((of_decide_eq_true hlt).trans_le (serializedBound_mono hp hn))⟩

variable (payload_cap max_pack_bytes) in
/-- A bin is overfull when its pack, counted with saturation, is over one of the limits. -/
abbrev Overfull (payload entries : ℕ) : Prop :=
  Exceeds payload_cap max_pack_bytes (min payload U64_MAX) entries

theorem overfull_mono {payload payload' entries entries' : ℕ} (hp : payload ≤ payload')
    (hn : entries ≤ entries') (h : Overfull payload_cap max_pack_bytes payload entries) :
    Overfull payload_cap max_pack_bytes payload' entries' :=
  exceeds_mono (min_le_min_right _ hp) hn h

theorem saturatingAdd_min (load size : ℕ) :
    saturatingAdd (min load U64_MAX) size = min (load + size) U64_MAX := by
  rw [saturatingAdd]
  omega

/-- The estimate counts the bins of the packing. -/
theorem length_estimateFrom (sizes : List ℕ) (f : Fill) : f.closed +
        (estimateFrom payload_cap max_pack_bytes sizes (min f.load U64_MAX) f.count).length =
      (f.putAll (Overfull payload_cap max_pack_bytes) sizes).bins := by
  induction sizes generalizing f with
  | nil =>
    rw [estimateFrom, Fill.putAll, List.foldl_nil, Fill.bins]
    split <;> rfl
  | cons size sizes ih =>
    have hput : f.putAll (Overfull payload_cap max_pack_bytes) (size :: sizes) =
        (f.put (Overfull payload_cap max_pack_bytes) size size).putAll
          (Overfull payload_cap max_pack_bytes) sizes := rfl
    rw [estimateFrom, hput, Fill.put]
    simp only [saturatingAdd_min]
    by_cases hfull : 0 < f.count ∧
        Overfull payload_cap max_pack_bytes (f.load + size) (f.count + 1)
    · rw [if_pos hfull, if_pos hfull, ← ih, saturatingAdd, List.length_cons, Nat.zero_add]
      dsimp only
      omega
    · rw [if_neg hfull, if_neg hfull, ← ih]

/-- An overfull bin weighs more than the weight cap. -/
theorem weight_of_overfull {payload entries : ℕ} (hn : 0 < entries)
    (h : Overfull payload_cap max_pack_bytes payload entries) :
    packWeightCap payload_cap max_pack_bytes < payload + ENTRY_FRAME_LEN * entries := by
  have hframe : 4 < ENTRY_FRAME_LEN * entries := by
    have : ENTRY_FRAME_LEN * 1 ≤ ENTRY_FRAME_LEN * entries := Nat.mul_le_mul_left _ hn
    exact Nat.lt_of_lt_of_le (by decide) this
  rcases h with h | h
  · rw [packWeightCap]
    omega
  · rw [Option.any_eq_true] at h
    obtain ⟨limit, rfl, hlt⟩ := h
    have hbound := serializedBound_le (min payload U64_MAX) entries
    have hlt := of_decide_eq_true hlt
    rw [packWeightCap, Option.map_some, Option.getD_some]
    omega

/-- **The floor.** What weighs at most `k` packs is estimated at most `2 * k` packs. -/
theorem length_estimateFrom_le {sizes : List ℕ} {k : ℕ}
    (h : (sizes.map (· + ENTRY_FRAME_LEN)).sum ≤ k * packWeightCap payload_cap max_pack_bytes) :
    (estimateFrom payload_cap max_pack_bytes sizes 0 0).length ≤ 2 * k := by
  have hbins : _ + (estimateFrom payload_cap max_pack_bytes sizes _ _).length = _ :=
    length_estimateFrom sizes .empty
  have hloaded : Loaded (packWeightCap payload_cap max_pack_bytes) ENTRY_FRAME_LEN _ _ :=
    loaded_empty.putAll (fun _ _ => weight_of_overfull) sizes
  have hle := hloaded.bins_le (by decide) ((Nat.zero_add _).trans_le h)
  rw [← hbins] at hle
  exact (Nat.le_add_left _ _).trans hle

end Bound

/-! ### Packing lags behind the estimate -/

section Packing

variable {B : Blake3} {Z : Zstd} {fanout : ℕ} {s : ObjectStore} {payload_cap : ℕ}
  {limits : UploadLimits} {sink : PackSink} {cancelled : ℕ → Bool} {st : Sealing} {g : Fill}
  {staged : ℕ}

/-- The ways sealing can fail; as too large only when the packs before are as many as allowed. -/
inductive SealFailure (limits : UploadLimits) (sink : PackSink) (cancelled : ℕ → Bool)
    (closed : ℕ) : PushError → Prop
  | interrupted {n : ℕ} : cancelled n = true →
      SealFailure limits sink cancelled closed (.sync .interrupted)
  | payloadTooLarge {limit len : ℕ} : limit ∈ limits.max_pack_bytes → limit < len →
      SealFailure limits sink cancelled closed (.sync (.source (.payloadTooLarge len)))
  | tooLarge {packs : ℕ} : dataPackBudget limits ≤ closed →
      SealFailure limits sink cancelled closed
        (.pushTooLarge packs (dataPackBudget limits) none false)
  | rejected {n : ℕ} {pack : Bytes} {e : PushError} : sink.accept n pack = .error e →
      SealFailure limits sink cancelled closed e

theorem SealFailure.mono {closed closed' : ℕ} (hle : closed ≤ closed') {e : PushError}
    (h : SealFailure limits sink cancelled closed e) :
    SealFailure limits sink cancelled closed' e := by
  cases h with
  | interrupted h => exact .interrupted h
  | payloadTooLarge hlimit hlt => exact .payloadTooLarge hlimit hlt
  | tooLarge h => exact .tooLarge (h.trans hle)
  | rejected h => exact .rejected h

/-- How far the packs are. -/
def Sealing.fill (st : Sealing) : Fill :=
  ⟨st.pack_keys.length, st.w.total_payload, st.w.entry_count⟩

/-- The packs are behind a packing of as many entries whose sizes are taken before compression. -/
structure Lagging (st : Sealing) (g : Fill) (staged : ℕ) : Prop where
  lags : Lags st.fill g
  ticketed_le : st.ticketed_count ≤ st.pack_keys.length
  entries_le : st.w.entry_count ≤ staged
  empty : st.w.entry_count = 0 → st.w.total_payload = 0
  deltas : st.w.raw_only = false

theorem ends_sealPack (h : st.w.entry_count ≤ MAX_ENTRIES) :
    Ends (fun st' => st'.w = .new ∧ st'.pack_keys.length = st.pack_keys.length + 1 ∧
        st'.ticketed_count ≤ st.ticketed_count + 1)
      (SealFailure limits sink cancelled st.ticketed_count)
      (sealPack B limits sink cancelled st) := by
  unfold sealPack
  by_cases hcancel : cancelled st.pack_keys.length = true
  · rw [if_pos hcancel]
    exact .interrupted hcancel
  · obtain ⟨pack, hpack⟩ : ∃ pack, st.w.finish B = .ok pack := by
      rw [PackWriter.finish, if_neg (by omega)]
      exact ⟨_, rfl⟩
    rw [if_neg hcancel, ofPack, hpack, Except.mapError]
    dsimp only
    refine Ends.bind (P := fun p => p = pack) rfl ?_
    rintro pack rfl
    by_cases hbudget : ticketedPack limits pack.length = true ∧
        dataPackBudget limits ≤ st.ticketed_count
    · rw [if_pos hbudget]
      exact .tooLarge hbudget.2
    · rw [if_neg hbudget]
      by_cases hlimit : limits.max_pack_bytes.any (· < pack.length) = true
      · rw [if_pos hlimit]
        obtain ⟨limit, hmem, hlt⟩ := (Option.any_eq_true _ _).1 hlimit
        exact .payloadTooLarge hmem (of_decide_eq_true hlt)
      · rw [if_neg hlimit]
        refine Ends.bind (P := fun _ => True) (ends_iff.2 ⟨fun _ _ => trivial,
          fun e he => .rejected he⟩) fun _ _ => ?_
        refine ⟨rfl, ?_, ?_⟩
        · rw [List.length_append, List.length_singleton]
        · dsimp only
          split <;> omega

theorem length_frame_le_conservativeLen (p : Push) :
    (p.frame Z false).payload.length ≤ conservativeLen p := by
  have h := p.length_frame_le Z false
  cases p with
  | raw id bytes => exact h
  | delta base stream => exact h

/-- With room for an entry before compression, it is added. -/
theorem pushEntry_eq_ok {p : Push} (hdeltas : st.w.raw_only = false)
    (hcount : st.w.entry_count + 1 ≤ MAX_ENTRIES)
    (htotal : st.w.total_payload + conservativeLen p ≤ MAX_TOTAL_PAYLOAD)
    (hp : conservativeLen p ≤ MAX_RAW_OBJECT_SIZE) :
    pushEntry Z p st = .ok { st with w := st.w.append (p.frame Z false) } := by
  have hframe := length_frame_le_conservativeLen (Z := Z) p
  have hmax : MAX_RAW_OBJECT_SIZE < 2 ^ 32 := by decide
  have haccepted : p.Accepted st.w.raw_only := by
    cases p with
    | raw id bytes => trivial
    | delta base stream => exact hdeltas
  have hyields : Yields (p.run Z) st.w () (st.w.append (p.frame Z false)) := by
    rw [Push.yields_run, hdeltas]
    exact ⟨hdeltas ▸ haccepted, ⟨hcount, by omega, by omega⟩, rfl⟩
  have hexec : exec (p.runPrepared Z) st.w = (.ok (), st.w.append (p.frame Z false)) := by
    rw [Push.runPrepared_eq]
    exact hyields
  rw [pushEntry, hexec]

/-- One entry keeps the packs behind. -/
theorem ends_stage (hcap : payload_cap ≤ MAX_TOTAL_PAYLOAD) (h : Lagging st g staged)
    (hstaged : staged + 1 ≤ MAX_ENTRIES) {p : Push} (hp : conservativeLen p ≤ MAX_RAW_OBJECT_SIZE) :
    Ends (fun st' => Lagging st' (g.put (Overfull payload_cap limits.max_pack_bytes)
          (conservativeLen p) (conservativeLen p)) (staged + 1))
      (SealFailure limits sink cancelled (g.put (Overfull payload_cap limits.max_pack_bytes)
        (conservativeLen p) (conservativeLen p)).closed)
      (stage B Z payload_cap limits sink cancelled st p) := by
  have hput : Lags (st.fill.put (Overfull payload_cap limits.max_pack_bytes) (conservativeLen p)
        (p.frame Z false).payload.length)
      (g.put (Overfull payload_cap limits.max_pack_bytes) (conservativeLen p)
        (conservativeLen p)) :=
    h.lags.put overfull_mono le_rfl (length_frame_le_conservativeLen p)
  have hentries := h.entries_le
  have hraw : MAX_RAW_OBJECT_SIZE ≤ MAX_TOTAL_PAYLOAD := by decide
  have hmax : MAX_TOTAL_PAYLOAD < U64_MAX := by decide
  rw [stage]
  by_cases hseal : shouldSeal payload_cap limits st.w (conservativeLen p) = true
  · rw [if_pos hseal]
    have hfull : 0 < st.fill.count ∧ Overfull payload_cap limits.max_pack_bytes
        (st.fill.load + conservativeLen p) (st.fill.count + 1) := of_decide_eq_true hseal
    rw [Fill.put, if_pos hfull] at hput
    have hticketed := h.ticketed_le
    have hclosed := hput.closed_le
    dsimp only [Sealing.fill] at hclosed
    refine ((ends_sealPack (by omega)).imp (fun _ => id) fun e he =>
      SealFailure.mono (by omega) he).bind ?_
    rintro st' ⟨hw, hkeys, hticketed'⟩
    have hnew : pushEntry Z p st' = .ok { st' with w := st'.w.append (p.frame Z false) } := by
      refine pushEntry_eq_ok ?_ ?_ ?_ hp
      · rw [hw]
        rfl
      · rw [hw]
        exact (Nat.le_add_left _ _).trans hstaged
      · rw [hw]
        exact (Nat.zero_add _).trans_le (hp.trans hraw)
    dsimp only
    rw [hnew]
    have hfill : Sealing.fill { st' with w := st'.w.append (p.frame Z false) } =
        ⟨st.fill.closed + 1, (p.frame Z false).payload.length, 1⟩ := by
      rw [Sealing.fill, hw, hkeys]
      simp [PackWriter.append, PackWriter.new, Sealing.fill]
    exact ⟨hfill ▸ hput, by dsimp only; omega, by rw [hw]; exact Nat.le_add_left _ _,
      fun h0 => absurd h0 (Nat.succ_ne_zero _), by rw [hw]; rfl⟩
  · rw [if_neg hseal]
    have hfull : ¬ (0 < st.fill.count ∧ Overfull payload_cap limits.max_pack_bytes
        (st.fill.load + conservativeLen p) (st.fill.count + 1)) := fun hfull =>
      hseal (decide_eq_true hfull)
    rw [Fill.put, if_neg hfull] at hput
    have htotal : st.w.total_payload + conservativeLen p ≤ MAX_TOTAL_PAYLOAD := by
      rcases Nat.eq_zero_or_pos st.w.entry_count with hzero | hpos
      · rw [h.empty hzero, Nat.zero_add]
        exact hp.trans hraw
      · have hnot : ¬ payload_cap < min (st.w.total_payload + conservativeLen p) U64_MAX :=
          fun hlt => hfull ⟨hpos, .inl hlt⟩
        omega
    have hok := pushEntry_eq_ok (Z := Z) h.deltas (by omega) htotal hp
    change Ends _ _ (pushEntry Z p st)
    rw [hok]
    exact ⟨hput, h.ticketed_le, Nat.succ_le_succ hentries, fun h0 => absurd h0 (Nat.succ_ne_zero _),
      h.deltas⟩

theorem ends_stageAll (hcap : payload_cap ≤ MAX_TOTAL_PAYLOAD) {ps : List Push}
    (h : Lagging st g staged) (hstaged : staged + ps.length ≤ MAX_ENTRIES)
    (hps : ∀ p ∈ ps, conservativeLen p ≤ MAX_RAW_OBJECT_SIZE) :
    Ends (fun st' => Lagging st' (g.putAll (Overfull payload_cap limits.max_pack_bytes)
          (ps.map conservativeLen)) (staged + ps.length))
      (SealFailure limits sink cancelled (g.putAll (Overfull payload_cap limits.max_pack_bytes)
        (ps.map conservativeLen)).closed)
      (ps.foldlM (stage B Z payload_cap limits sink cancelled) st) := by
  induction ps generalizing st g staged with
  | nil => exact h
  | cons p ps ih =>
    rw [List.length_cons] at hstaged
    rw [List.forall_mem_cons] at hps
    rw [List.foldlM_cons]
    refine ((ends_stage hcap h (by omega) hps.1).imp (fun _ => id) fun e he =>
      SealFailure.mono (Fill.closed_le_putAll (ps.map conservativeLen)) he).bind ?_
    intro st' hst'
    rw [List.length_cons, Nat.add_comm ps.length, ← Nat.add_assoc]
    exact ih hst' (by omega) hps.2

/-- The entry of an object that goes as it is. -/
def ReadsAs (B : Blake3) (s : ObjectStore) (h : Hash) (p : Push) : Prop :=
  ∃ bytes, s.read B h = .ok bytes ∧ p = .raw h bytes

theorem prepareRawBatch_eq_ok_iff {chunk : List Hash} {entries : List Push} :
    prepareRawBatch B s chunk = .ok entries ↔ List.Forall₂ (ReadsAs B s) chunk entries := by
  rw [prepareRawBatch, ofStore_eq_ok, mapM_eq_ok]
  refine iff_of_eq (congrArg (List.Forall₂ · chunk entries) (funext₂ fun h p => propext ?_))
  rw [Wire.bind_eq_ok]
  exact exists_congr fun bytes => and_congr_right fun _ =>
    ⟨fun hp => (Except.ok.inj hp).symm, fun hp => congrArg _ hp.symm⟩

/-- Objects that go as they are have the sizes of their files. -/
theorem sizes_of_readsAs {chunk : List Hash} {entries : List Push}
    (h : List.Forall₂ (ReadsAs B s) chunk entries) :
    entries.map conservativeLen = chunk.map s.fileLen ∧
      ∀ p ∈ entries, conservativeLen p ≤ MAX_RAW_OBJECT_SIZE := by
  have hread : List.Forall₂ (fun h p => conservativeLen p ≤ MAX_RAW_OBJECT_SIZE ∧
      s.fileLen h = conservativeLen p) chunk entries := by
    refine h.imp ?_
    rintro h p ⟨bytes, hbytes, rfl⟩
    obtain ⟨hlen, hmax⟩ := ObjectStore.fileLen_of_read hbytes
    exact ⟨hmax, hlen⟩
  exact ⟨(map_eq_map_of_forall₂ (hread.imp fun _ _ h => h.2)).symm,
    forall_mem_of_forall₂ (hread.imp fun _ _ h => h.1)⟩

/-- A failure of the store, or of sealing. -/
def BuildFailure (limits : UploadLimits) (sink : PackSink) (cancelled : ℕ → Bool) (closed : ℕ)
    (e : PushError) : Prop :=
  (∃ err, e = .sync (.store err)) ∨ SealFailure limits sink cancelled closed e

theorem ends_ofStore {α : Type} {x : Except StoreError α} {P : α → Prop} {E : PushError → Prop}
    (hP : ∀ a, x = .ok a → P a) (hE : ∀ err, E (.sync (.store err))) : Ends P E (ofStore x) := by
  cases x with
  | ok a => exact hP a rfl
  | error err => exact hE err

theorem ends_rawBatches (hcap : payload_cap ≤ MAX_TOTAL_PAYLOAD) {batches : List (List Hash)}
    (h : Lagging st g staged) (hstaged : staged + batches.flatten.length ≤ MAX_ENTRIES) :
    Ends (fun st' => Lagging st' (g.putAll (Overfull payload_cap limits.max_pack_bytes)
          (batches.flatten.map s.fileLen)) (staged + batches.flatten.length))
      (BuildFailure limits sink cancelled (g.putAll (Overfull payload_cap limits.max_pack_bytes)
        (batches.flatten.map s.fileLen)).closed)
      (batches.foldlM (fun st chunk => do
        let entries ← prepareRawBatch B s chunk
        entries.foldlM (stage B Z payload_cap limits sink cancelled) st) st) := by
  induction batches generalizing st g staged with
  | nil => exact h
  | cons chunk batches ih =>
    rw [List.flatten_cons, List.length_append] at hstaged
    rw [List.foldlM_cons, List.flatten_cons, List.map_append, Fill.putAll, List.foldl_append,
      List.length_append, ← Nat.add_assoc]
    refine Ends.bind (P := fun st' => Lagging st' (g.putAll (Overfull payload_cap
      limits.max_pack_bytes) (chunk.map s.fileLen)) (staged + chunk.length)) ?_
      fun st' hst' => ih hst' (by omega)
    refine Ends.bind (P := fun entries => entries.map conservativeLen = chunk.map s.fileLen ∧
      ∀ p ∈ entries, conservativeLen p ≤ MAX_RAW_OBJECT_SIZE)
      (ends_iff.2 ⟨fun entries hentries =>
        sizes_of_readsAs (prepareRawBatch_eq_ok_iff.1 hentries), fun e he => ?_⟩) ?_
    · rw [prepareRawBatch] at he
      exact (ends_iff.1 (ends_ofStore (P := fun _ => True) (fun _ _ => trivial)
        fun err => .inl ⟨err, rfl⟩)).2 e he
    · rintro entries ⟨hsizes, hmax⟩
      have hlength : entries.length = chunk.length := by
        simpa using congrArg List.length hsizes
      have hends : Ends _ _ (entries.foldlM (stage B Z payload_cap limits sink cancelled) st) :=
        ends_stageAll hcap h (by omega) hmax
      rw [hsizes, hlength] at hends
      exact hends.imp (fun _ => id) fun e he =>
        .inr (he.mono (Fill.closed_le_putAll (batches.flatten.map s.fileLen)))

/-- What a pack limit makes of a plan before compression. -/
abbrev planFill (payload_cap : ℕ) (limits : UploadLimits) (s : ObjectStore) (plan : PackPlan) :
    Fill :=
  Fill.empty.putAll (Overfull payload_cap limits.max_pack_bytes) (plan.sizes s)

theorem length_batchLensFrom_sum (max_entries : ℕ) (sizes : List ℕ) (running count : ℕ) :
    (batchLensFrom payload_cap max_entries sizes running count).sum = count + sizes.length := by
  induction sizes generalizing running count with
  | nil =>
    rw [batchLensFrom]
    split
    · rfl
    · rw [List.length_nil, List.sum_nil]
      omega
  | cons size sizes ih =>
    rw [batchLensFrom, List.length_cons]
    split
    · rw [List.sum_cons, ih]
      omega
    · rw [ih]
      omega

theorem map_conservativeLen_prepareDeltaBatch (deltas : List PlannedDelta) :
    (prepareDeltaBatch deltas).map conservativeLen = deltas.map deltaSize := by
  rw [prepareDeltaBatch, List.map_map]
  rfl

/-- The batches cover every entry once. -/
theorem flatten_batches {α : Type} {sizes : List ℕ} {l : List α} (max_entries : ℕ)
    (h : sizes.length = l.length) :
    (cut (sizeCappedBatchLens payload_cap sizes max_entries) l).flatten = l := by
  refine flatten_cut ?_
  rw [sizeCappedBatchLens, length_batchLensFrom_sum, Nat.zero_add, h]

/-- However the deltas are batched, they are staged one after another. -/
theorem foldlM_deltaBatches (max_entries : ℕ) (deltas : List PlannedDelta) (st : Sealing) :
    (cut (sizeCappedBatchLens payload_cap (deltas.map deltaSize) max_entries) deltas).foldlM
        (fun st chunk =>
          (prepareDeltaBatch chunk).foldlM (stage B Z payload_cap limits sink cancelled) st) st =
      (prepareDeltaBatch deltas).foldlM (stage B Z payload_cap limits sink cancelled) st := by
  have hflat := @flatten_batches payload_cap _ _ deltas max_entries (List.length_map deltaSize)
  have hmap : prepareDeltaBatch deltas = ((cut (sizeCappedBatchLens payload_cap
      (deltas.map deltaSize) max_entries) deltas).map prepareDeltaBatch).flatten := by
    conv_lhs => rw [← hflat]
    exact List.map_flatten
  rw [hmap, ← foldlM_flatten, List.foldlM_map]

variable {send : Finset Hash} {plan : PackPlan}

/-- **Packing a plan.** It ends with at most as many packs as the plan needs before compression,
the last one included, and is refused as too large only if these are more than allowed. -/
theorem ends_buildAndUploadPacks (hcap : payload_cap ≤ MAX_TOTAL_PAYLOAD)
    (hsends : Sends s send plan) (hcard : send.card ≤ MAX_ENTRIES) :
    Ends (fun pack_keys => pack_keys.length ≤ (planFill payload_cap limits s plan).closed + 1)
      (BuildFailure limits sink cancelled (planFill payload_cap limits s plan).closed)
      (buildAndUploadPacks B Z fanout s payload_cap limits sink cancelled plan) := by
  have hlength := hsends.length_sizes
  rw [PackPlan.sizes, List.length_append, List.length_map, List.length_map] at hlength
  rw [buildAndUploadPacks, hsends.mapM_objectLen]
  have hflat : (cut (sizeCappedBatchLens payload_cap (plan.raw.map s.fileLen) (max fanout 1))
      plan.raw).flatten = plan.raw := flatten_batches _ (List.length_map _)
  have hstart : Lagging ⟨.new, [], 0⟩ .empty 0 :=
    ⟨.refl _, le_rfl, le_rfl, fun _ => rfl, rfl⟩
  have hdeltas := map_conservativeLen_prepareDeltaBatch plan.deltas
  have hsmall : ∀ p ∈ prepareDeltaBatch plan.deltas, conservativeLen p ≤ MAX_RAW_OBJECT_SIZE := by
    rw [prepareDeltaBatch, List.forall_mem_map]
    intro d hd
    obtain ⟨hlt, hmax⟩ := hsends.smaller d hd
    exact hlt.le.trans hmax
  have hraws := @ends_rawBatches B Z s payload_cap limits sink cancelled _ _ _ hcap
    (cut (sizeCappedBatchLens payload_cap (plan.raw.map s.fileLen) (max fanout 1)) plan.raw)
    hstart (by rw [hflat]; omega)
  rw [hflat] at hraws
  refine Ends.bind (P := fun sizes => sizes = plan.raw.map s.fileLen) rfl ?_
  rintro _ rfl
  refine (hraws.imp (fun _ => id) fun e he => ?_).bind fun st hst => ?_
  · refine he.imp_right fun he => he.mono ?_
    rw [planFill, PackPlan.sizes, Fill.putAll, Fill.putAll, List.foldl_append]
    exact Fill.closed_le_putAll (plan.deltas.map deltaSize)
  · have hcount : (prepareDeltaBatch plan.deltas).length = plan.deltas.length :=
      List.length_map _
    have hrest : Ends _ _ ((prepareDeltaBatch plan.deltas).foldlM
        (stage B Z payload_cap limits sink cancelled) st) :=
      ends_stageAll hcap hst (by omega) hsmall
    have hall : (Fill.empty.putAll (Overfull payload_cap limits.max_pack_bytes)
          (plan.raw.map s.fileLen)).putAll (Overfull payload_cap limits.max_pack_bytes)
        (plan.deltas.map deltaSize) = planFill payload_cap limits s plan := by
      rw [planFill, PackPlan.sizes, Fill.putAll, Fill.putAll, Fill.putAll, List.foldl_append]
    rw [hdeltas, hall] at hrest
    dsimp only
    rw [foldlM_deltaBatches]
    refine (hrest.imp (fun _ => id) fun e he => .inr he).bind fun st' hst' => ?_
    have hentries := hst'.entries_le
    have hclosed : st'.pack_keys.length ≤ (planFill payload_cap limits s plan).closed :=
      hst'.lags.closed_le
    refine ((ends_sealPack (by omega)).imp (fun _ => id) fun e he =>
      .inr (he.mono (hst'.ticketed_le.trans hclosed))).bind ?_
    rintro st'' ⟨-, hkeys, -⟩
    exact hkeys.trans_le (Nat.succ_le_succ hclosed)

/-! ### Cancelling -/

theorem follows_sealPack (st : Sealing) : Gathering.Follows (sealPack B limits sink cancelled st)
      (sealPack B limits sink (fun _ => false) st) := by
  intro st' h
  rw [sealPack] at h
  rw [sealPack]
  by_cases hcancel : cancelled st.pack_keys.length = true
  · rw [if_pos hcancel] at h
    exact nomatch h
  · rw [if_neg hcancel] at h
    exact h

theorem follows_stage (st : Sealing) (p : Push) :
    Gathering.Follows (stage B Z payload_cap limits sink cancelled st p)
      (stage B Z payload_cap limits sink (fun _ => false) st p) := by
  rw [stage, stage]
  split
  · exact (follows_sealPack st).bind fun st' => .refl _
  · exact .refl _

/-- A plan that is packed is packed the same way when nobody cancels. -/
theorem follows_buildAndUploadPacks (plan : PackPlan) :
    Gathering.Follows (buildAndUploadPacks B Z fanout s payload_cap limits sink cancelled plan)
      (buildAndUploadPacks B Z fanout s payload_cap limits sink (fun _ => false) plan) := by
  rw [buildAndUploadPacks, buildAndUploadPacks]
  refine (Gathering.Follows.refl _).bind fun raw_sizes => ?_
  refine (Gathering.Follows.foldlM (fun st chunk => (Gathering.Follows.refl _).bind fun entries =>
    .foldlM follows_stage entries st) _ _).bind fun st => ?_
  dsimp only
  rw [foldlM_deltaBatches, foldlM_deltaBatches]
  exact (Gathering.Follows.foldlM follows_stage _ st).bind fun st' => (follows_sealPack st').bind
    fun st'' => .refl _

end Packing

end Mkit.PushSplit
