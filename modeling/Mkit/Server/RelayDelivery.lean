import Mkit.Server.RelayCounts

/-!
# Delivery of Accepted Rows

What a finished builder writes for the relay can be delivered, row by row: every operation that
was collected is in one row, every row is within its estimate and fits a target batch by itself
(`tryFinish_deliverable`). At a coordinator this leaves one condition. A row of markers is counted
where it is delivered, and the operations of the counting must fit beside its own; the seven packs
a source batch may consume are far below that, but a row of fourteen repositories' markers is
accepted and never delivered (`Crowded.crowded_row_stalls`).
-/

namespace Mkit.Server

open Effect

variable {S : Serde} {e : Emission}

/-- The row by itself has a target batch, and this is valid. -/
def Delivered (S : Serde) (B : Blake3) (caps : StoreCapabilities) (rh : Key)
    (observed : Option Value) (observations : List (Key × Option Value)) (e : Emission) : Prop :=
  ∃ batch, prepareTargetBatch S B NoHook caps e.row.target rh observed observations
      [(e.seq, e.row)] 0 = some (batch, 1) ∧
    batch.validate (targetCaps NoHook caps e.row.target [(e.seq, e.row)]) = .ok ()

/-- The operations of a row under its watermark. -/
def rowOps (e : Emission) : ℕ :=
  e.row.puts.length + e.row.deletes.length + 2

/-- When a row by itself is delivered, for every kind of target. -/
structure Deliverable (S : Serde) (e : Emission) : Prop where
  /-- It is a fitting prefix. -/
  fitting : ∀ (source : Partition) (rh : Key) (observed : Option Value),
    keys.relayHighWater source = .ok rh → IsWatermark observed →
      fittingPrefix (bumped e.row.target ⟨[guardOf rh observed], []⟩) rh [(e.seq, e.row)] = 1
  /-- Where nothing is counted it is delivered. -/
  uncounted : ∀ (B : Blake3) (caps : StoreCapabilities) (source : Partition) (rh : Key)
    (observed : Option Value) (observations : List (Key × Option Value)),
    caps.Complete → keys.relayHighWater source = .ok rh → IsWatermark observed →
    (∀ ns repo bucket, e.row.target ≠ .refIndex ns repo bucket) →
    (∀ ns, e.row.target = .coordinator ns →
      ∀ p ∈ e.row.puts, keys.parseRepoStoragePack p.1 = none) →
      Delivered S B caps rh observed observations e
  /-- At a ref index it is delivered when the reserve of the store leaves room. -/
  refIndex : ∀ (B : Blake3) (caps : StoreCapabilities) (source : Partition) (rh : Key)
    (observed : Option Value) (observations : List (Key × Option Value)),
    caps.Complete → keys.relayHighWater source = .ok rh → IsWatermark observed →
    ∀ ns repo bucket, e.row.target = .refIndex ns repo bucket →
      (Delivered S B caps rh observed observations e ↔
        rowOps e ≤ MAX_BATCH_OPS - caps.reservedBatchOps)
  /-- At a coordinator it is delivered when the operations of counting its markers fit. -/
  coordinator : ∀ (B : Blake3) (caps : StoreCapabilities) (source : Partition) (rh : Key)
    (observed : Option Value) (observations : List (Key × Option Value)),
    caps.Complete → keys.relayHighWater source = .ok rh → IsWatermark observed →
    ∀ (ns : NamespaceKey) (get : Key → Option Value) (m : SortedMap RepoName (List CountedPack)),
    e.row.target = .coordinator ns → Countable S B ns get [(e.seq, e.row)] m →
    (∀ ks, relayReadKeys e.row.target [(e.seq, e.row)] = .ok ks →
      ∀ k ∈ ks, observation observations k = .ok (get k)) →
      (Delivered S B caps rh observed observations e ↔
        rowOps e + countingOps get m ≤ MAX_BATCH_OPS)

/-! ### Rows of accepted operations -/

/-- A key is put once. -/
theorem nodup_putsOf (operations : SortedMap Key (Option Value)) :
    ((putsOf operations).map Prod.fst).Nodup := by
  have hsub : ∀ l : List (Key × Option Value),
      ((l.filterMap fun p => p.2.map fun v => (p.1, v)).map Prod.fst).Sublist (l.map Prod.fst) := by
    intro l
    induction l with
    | nil => exact List.Sublist.refl _
    | cons p l ih =>
      obtain ⟨k, op⟩ := p
      cases op with
      | none => exact ih.cons k
      | some v => exact ih.cons_cons k
  have hnodup : (operations.entries.map Prod.fst).Nodup :=
    (List.pairwise_map.2 operations.sorted).imp fun hlt => ne_of_lt hlt
  exact (hsub operations.entries).nodup hnodup

/-- A row puts no key twice. -/
theorem Emits.nodup {atMs : UInt64} {t : Partition × SortedMap Key (Option Value)}
    {es : List Emission} (h : Emits S atMs t es) (he : e ∈ es) :
    (e.row.puts.map Prod.fst).Nodup := by
  have hsub : e.row.puts.Sublist (es.flatMap fun e => e.row.puts) :=
    List.sublist_flatten_of_mem (List.mem_map_of_mem he)
  rw [h.puts] at hsub
  exact (hsub.map Prod.fst).nodup (nodup_putsOf t.2)

/-- Rows without a marker count nothing. -/
theorem relayed_of_unmarked {row : RelayV1} {seq : UInt64}
    (h : ∀ p ∈ row.puts, keys.parseRepoStoragePack p.1 = none) :
    relayed [(seq, row)] = .ok .empty := by
  have hfold : ∀ puts : List (Key × Value), (∀ p ∈ puts, keys.parseRepoStoragePack p.1 = none) →
      puts.foldlM relayedPut .empty = .ok .empty := by
    intro puts hputs
    induction puts with
    | nil => rfl
    | cons p puts ih =>
      rw [List.forall_mem_cons] at hputs
      rw [List.foldlM_cons, relayedPut, hputs.1]
      exact ih hputs.2
  rw [relayed, List.flatMap_singleton]
  exact hfold row.puts h

/-- A written row is deliverable. -/
theorem Emission.Sound.deliverable (hS : S.WritesJson) {target : Partition}
    (h : e.Sound S target) (hnodup : (e.row.puts.map Prod.fst).Nodup) : Deliverable S e := by
  obtain rfl := h.target
  have hops := h.ops
  rw [MAX_RELAY_PUTS] at hops
  constructor
  case fitting =>
    intro source rh observed hrh hobserved
    exact fittingPrefix_single h (relayHighWater_spec hrh).1 hobserved _
  case uncounted =>
    intro B caps source rh observed observations hcaps hrh hobserved hindex hmarkers
    have hbump := length_bumpWrites_le e.row.target
    refine (prepareTargetBatch_uncounted h hcaps (relayHighWater_spec hrh).1 hobserved ?_).2 ?_
    · cases htarget : e.row.target with
      | coordinator ns =>
        exact Wire.bind_eq_ok.2 ⟨_, relayed_of_unmarked (hmarkers ns htarget), rfl⟩
      | _ => rfl
    · have hreserved : (targetCaps NoHook caps e.row.target [(e.seq, e.row)]).reservedBatchOps =
          0 := by
        cases htarget : e.row.target with
        | refIndex ns repo bucket => exact absurd htarget (hindex ns repo bucket)
        | _ => rfl
      rw [hreserved, deliveryOps, MAX_BATCH_OPS]
      omega
  case refIndex =>
    intro B caps source rh observed observations hcaps hrh hobserved ns repo bucket htarget
    have hextend : relayExtend S B e.row.target [(e.seq, e.row)] observations
        (rowPlan e.row.target rh observed e) = .ok (rowPlan e.row.target rh observed e) := by
      rw [htarget]
      rfl
    have hreserved : (targetCaps NoHook caps e.row.target [(e.seq, e.row)]).reservedBatchOps =
        caps.reservedBatchOps := by
      rw [htarget]
      rfl
    have hbump : (bumpWrites e.row.target).length = 0 := by
      rw [htarget]
      rfl
    refine (prepareTargetBatch_uncounted h hcaps (relayHighWater_spec hrh).1 hobserved
      hextend).trans ?_
    rw [hreserved, deliveryOps, hbump, rowOps, Nat.add_zero]
  case coordinator =>
    intro B caps source rh observed observations hcaps hrh hobserved ns get m htarget hcount
      hobservations
    rw [htarget] at h hobservations
    rw [Delivered, htarget]
    exact prepareTargetBatch_counted hS h hnodup hcaps hrh hobserved hcount hobservations

/-- No accepted row stalls where nothing is counted, and what a finished builder writes for the
relay is every collected operation once: for each target rows of its operations, each within its
estimate. -/
theorem tryFinish_deliverable (hS : S.WritesJson) {b : OutboxBuilder} {plan plan' : Plan} {u : Unit}
    (h : exec (b.tryFinish S) plan = (.ok u, plan')) : ∃ ess : List (List Emission), List.Forall₂
        (fun t es => ∃ atMs, b.relayAtMs = some atMs ∧ Emits S atMs t es)
        (b.relays.entries.filter fun t => !t.2.entries.isEmpty) ess ∧
      (ess.flatten.map fun e => e.seq.toNat) = List.range' (b.seq.toNat + 1) ess.flatten.length ∧
      (∃ rest, plan'.writes =
          plan.writes ++ (b.writes ++ ess.flatten.map Emission.write ++ rest) ∧
        ∀ w ∈ rest, keys.ofClass keys.TAG_RELAY w.key = false) ∧
      ∀ e ∈ ess.flatten, Deliverable S e := by
  obtain ⟨ess, hess, hnumbers, hwrites⟩ := OutboxBuilder.emits_tryFinish hS h
  refine ⟨ess, hess, hnumbers, hwrites, fun e he => ?_⟩
  have hall : ∀ es ∈ ess, ∀ e ∈ es, Deliverable S e :=
    Gathering.forall_mem_of_forall₂ (hess.imp fun t es ⟨atMs, _, hemits⟩ e he =>
      (hemits.sound e he).deliverable hS (hemits.nodup he))
  obtain ⟨es, hes, he⟩ := List.mem_flatten.1 he
  exact hall es hes e he

/-- Most packs one source batch counts. -/
def MAX_COUNTED_PACKS : ℕ := 7

/-- The markers of the packs that one source batch counts are always delivered. -/
theorem Deliverable.of_few (h : Deliverable S e) {B : Blake3} {caps : StoreCapabilities}
    {source : Partition} {rh : Key} {observed : Option Value}
    {observations : List (Key × Option Value)} {ns : NamespaceKey} {get : Key → Option Value}
    {m : SortedMap RepoName (List CountedPack)} (hcaps : caps.Complete)
    (hrh : keys.relayHighWater source = .ok rh) (hobserved : IsWatermark observed)
    (htarget : e.row.target = .coordinator ns) (hcount : Countable S B ns get [(e.seq, e.row)] m)
    (hobservations : ∀ ks, relayReadKeys e.row.target [(e.seq, e.row)] = .ok ks →
      ∀ k ∈ ks, observation observations k = .ok (get k))
    (hfew : e.row.puts.length ≤ MAX_COUNTED_PACKS) (hnone : e.row.deletes = []) :
    Delivered S B caps rh observed observations e := by
  refine (h.coordinator B caps source rh observed observations hcaps hrh hobserved ns get m htarget
    hcount hobservations).2 ?_
  have hops := @countingOps_le get _ m hcount.relayed
  rw [List.flatMap_singleton] at hops
  dsimp only at hops
  rw [MAX_COUNTED_PACKS] at hfew
  rw [rowOps, hnone, List.length_nil, MAX_BATCH_OPS]
  omega

/-! ### A row that stalls -/

namespace Crowded

/-- The deployment's own namespace. -/
def home : NamespaceKey :=
  NamespaceKey.deploymentDefault

/-- Fourteen repositories. -/
def repo (i : Fin 14) : RepoName :=
  ⟨[UInt8.ofNat (0x61 + i)], by revert i; decide⟩

/-- A marker of one pack for each of them. -/
def markers : List (Key × Value) :=
  (List.finRange 14).map fun i => (keys.repoStoragePack (repo i) (toyDigest []), markerValue 1)

/-- A new builder that relays the markers. -/
def builder : OutboxBuilder :=
  (OutboxBuilder.relayAt 0 ⟨none, none, 0, .zero, false, false, [], [], .empty, .empty, none, none,
    none⟩).relay (.coordinator home) markers

def row : RelayV1 :=
  ⟨0, .coordinator home, markers, []⟩

def value : Value :=
  ((encodeRelay jsonSerde row).toOption).getD []

/-- A coordinator with a counter for each repository. -/
def store (k : Key) : Option Value :=
  if (List.finRange 14).any fun i => k == keys.repoStorage (repo i) then some initialCounter
  else none

/-- What is observed of it. -/
def observations : List (Key × Option Value) :=
  (((relayReadKeys (.coordinator home) [(1, row)]).toOption).getD []).map fun k => (k, store k)

/-- What the builder hands over: one row, its timer and the sequence. -/
def planned : Plan :=
  ⟨[.absent keys.outboxSequence], [.put (keys.relay 1) value, .put (keys.timer 0 RELAY []) [],
    .put keys.outboxSequence (encodeU64 1)]⟩

theorem exec_builder : exec (builder.tryFinish jsonSerde) ⟨[], []⟩ = (.ok (), planned) := by
  decide +kernel

theorem crowded_rows_deliverable : ∃ es : List Emission,
    es.flatMap (fun e => e.row.puts) = markers ∧ ∀ e ∈ es, Deliverable jsonSerde e := by
  obtain ⟨ess, hess, -, -, hall⟩ := tryFinish_deliverable writesJson_jsonSerde exec_builder
  have htargets : (builder.relays.entries.filter fun t => !t.2.entries.isEmpty).map
      (fun t => (t.1, putsOf t.2)) = [(.coordinator home, markers)] := by
    decide +kernel
  obtain ⟨t, hone, ht⟩ := List.map_eq_singleton_iff.1 htargets
  rw [hone] at hess
  cases hess with
  | cons hfirst hrest =>
    cases hrest
    obtain ⟨atMs, -, hemits⟩ := hfirst
    exact ⟨_, hemits.puts.trans (Prod.mk.inj ht).2, fun e he => hall e (by simpa using he)⟩

/-- Fourteen markers of fourteen repositories are accepted for their coordinator, and written in
one row that has no target batch. -/
theorem crowded_row_stalls : exec (builder.tryFinish jsonSerde) ⟨[], []⟩ = (.ok (), planned) ∧
    Write.put (keys.relay 1) value ∈ planned.writes ∧
    encodeRelay jsonSerde row = .ok value ∧
    (∀ i, store (keys.repoStorage (repo i)) = some initialCounter) ∧
    (∃ ks, relayReadKeys (.coordinator home) [(1, row)] = .ok ks ∧
      ∀ k ∈ ks, observation observations k = .ok (store k)) ∧
    ∃ rh, keys.relayHighWater (.repoIndex home (repo 0) 0) = .ok rh ∧
      prepareTargetBatch jsonSerde toyBlake3 NoHook .full (.coordinator home) rh none observations
        [(1, row)] 0 = none := by
  refine ⟨exec_builder, List.mem_cons_self, by decide +kernel, by decide +kernel, ?_, ?_⟩
  · refine ⟨((relayReadKeys (.coordinator home) [(1, row)]).toOption).getD [], ?_, ?_⟩
    · decide +kernel
    · decide +kernel
  · refine ⟨((keys.relayHighWater (.repoIndex home (repo 0) 0)).toOption).getD [], ?_, ?_⟩
    · decide +kernel
    · decide +kernel

end Crowded

end Mkit.Server
