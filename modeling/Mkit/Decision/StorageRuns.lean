import Mkit.Decision.Settlement
import Mathlib.Algebra.BigOperators.Group.Finset.Basic

/-!
# Stored Bytes over a Run

A repository keeps one counter of the bytes it stores and a marker for every pack counted in it.
Advances are decided on stale snapshots of both and committed while their guards hold. The
markers have no guard of their own: the counter row stands for them, since its version grows
whenever a pack with bytes is marked. Packs without bytes are marked without a move of the
counter, and they do not change any sum.
-/

namespace Mkit.Decision

open Guarding

/-! ### Counters and markers -/

/-- The counter row of a repository and the packs whose marker is set. -/
structure StorageState where
  counter : Observed StorageFact
  marked : Finset Hash

/-- The states a run went through, the latest apart. -/
structure StorageHistory where
  past : List StorageState
  now : StorageState

/-- The bytes a counter row counts. -/
def storedBytes : Observed StorageFact → ℕ
  | .present fact _ => fact.storedBytes.toNat
  | .absent _ => 0

/-- The version of a counter row. -/
def versionOf : Observed StorageFact → ℕ
  | .present fact _ => fact.version.toNat
  | .absent _ => 0

/-- The pack of a ticket row. -/
def packOf (snapshot : Snapshot) (ticket : TicketId) : Option PackSource :=
  match (snapshot.tickets.find? (·.1 = ticket)).map Prod.snd with
  | some (.present fact _) => some fact.pack
  | _ => none

/-- The packs of the claims that are not counted yet. -/
def freshPacks (request : TicketedAdvanceRequest) (snapshot : Snapshot) : Finset Hash :=
  ((request.tickets.filter fun claim => !claim.counted).filterMap fun claim =>
    (packOf snapshot claim.ticket).map (·.id)).toFinset

/-- The packs a decision marks: an accepted advance marks its fresh packs. -/
def batchOf (d : WriteDecision) (fresh : Finset Hash) : Finset Hash :=
  match d with
  | .apply _ => fresh
  | _ => ∅

/-- The counter effect of a decision. -/
def counterEffect (repository : RepositoryId) : WriteDecision → Option StorageEffect
  | .apply effects => effects.storage.reverse.find? (·.repository = repository)
  | _ => none

/-- Write the counter of a decision at a new revision and set the markers of its batch. -/
def StorageState.commit (state : StorageState) (repository : RepositoryId) (d : WriteDecision)
    (fresh : Finset Hash) (revision : Revision) : StorageState where
  counter :=
    match counterEffect repository d with
    | some effect => .present effect.next revision
    | none => state.counter
  marked := state.marked ∪ batchOf d fresh

section Runs

variable (lenOf : Hash → UInt64) (repository : RepositoryId)

/-- The bytes of a set of packs. -/
def bytesOf (packs : Finset Hash) : ℕ :=
  ∑ pack ∈ packs, (lenOf pack).toNat

/-- A request with a snapshot taken in a state: inline accounting over the counter row, a claim
counted exactly when the marker of its pack was set, and the length of a pack that of its id. -/
structure Taken (state : StorageState) (request : TicketedAdvanceRequest) (snapshot : Snapshot) :
    Prop where
  repository : request.write.repository = repository
  inlined : ∃ observed outcome occurredMs, request.storage = .inline observed outcome occurredMs
  storage : snapshot.storage = some state.counter
  counted : ∀ claim ∈ request.tickets, ∀ pack ∈ packOf snapshot claim.ticket,
    claim.counted = true ↔ pack.id ∈ state.marked
  lengths : ∀ claim ∈ request.tickets, ∀ pack ∈ packOf snapshot claim.ticket,
    pack.len = lenOf pack.id

/-- One commit: decided on a snapshot of the present or of any earlier state, applied where its
guards match a view of the present. -/
def BatchStep (history : StorageHistory) (batch : Finset Hash) (history' : StorageHistory) : Prop :=
  ∃ state ∈ history.now :: history.past, ∃ request snapshot limits g view nowMs revision,
    Taken lenOf repository state request snapshot ∧
    decideTicketedAdvance request snapshot limits = .ok g ∧
    (∀ row ∈ view.storage, row = history.now.counter) ∧
    guardsMatch g.guarded view nowMs = true ∧
    batch = batchOf g.guarded.decision (freshPacks request snapshot) ∧
    history' = ⟨history.now :: history.past,
      history.now.commit repository g.guarded.decision (freshPacks request snapshot) revision⟩

/-! ### What a batch adds -/

variable {lenOf}

theorem bytesOf_insert {pack : Hash} {packs : Finset Hash} (h : pack ∉ packs) :
    bytesOf lenOf (insert pack packs) = (lenOf pack).toNat + bytesOf lenOf packs :=
  Finset.sum_insert h

/-- Packs that are in a set already add no bytes when they have none. -/
theorem bytesOf_union {packs batch : Finset Hash}
    (h : ∀ pack ∈ batch, pack ∈ packs → (lenOf pack).toNat = 0) :
    bytesOf lenOf (packs ∪ batch) = bytesOf lenOf packs + bytesOf lenOf batch := by
  have hinter : bytesOf lenOf (packs ∩ batch) = 0 := by
    refine Finset.sum_eq_zero fun pack hpack => ?_
    obtain ⟨hold, hnew⟩ := Finset.mem_inter.1 hpack
    exact h pack hnew hold
  have hsum : bytesOf lenOf (packs ∪ batch) + bytesOf lenOf (packs ∩ batch) =
      bytesOf lenOf packs + bytesOf lenOf batch := Finset.sum_union_inter
  omega

/-- The packs of valid claims that are not counted yet. -/
def freshOf (valid : List ValidTicket) : Finset Hash :=
  ((valid.filter fun ticket => !ticket.claim.counted).map (·.fact.pack.id)).toFinset

theorem freshOf_cons (ticket : ValidTicket) (rest : List ValidTicket) : freshOf (ticket :: rest) =
      if ticket.claim.counted then freshOf rest
      else insert ticket.fact.pack.id (freshOf rest) := by
  cases h : ticket.claim.counted <;> simp [freshOf, h]

/-- The bytes added are those of the fresh packs, each pack once. -/
theorem addedBytes_eq_ok {valid : List ValidTicket} {seen : List Hash} {added total : UInt64}
    (hlen : ∀ ticket ∈ valid, ticket.fact.pack.len = lenOf ticket.fact.pack.id)
    (h : addedBytes seen added valid = .ok total) :
    total.toNat = added.toNat + bytesOf lenOf (freshOf valid \ seen.toFinset) := by
  induction valid generalizing seen added with
  | nil =>
    obtain rfl := Except.ok.inj h
    simp [freshOf, bytesOf]
  | cons ticket rest ih =>
    have hrest : ∀ other ∈ rest, other.fact.pack.len = lenOf other.fact.pack.id :=
      fun other hother => hlen other (List.mem_cons_of_mem _ hother)
    rw [addedBytes] at h
    split_ifs at h with hfresh
    · obtain ⟨hcounted, hseen⟩ := hfresh
      obtain ⟨sum, hsum, h⟩ := Wire.bind_eq_ok.1 h
      rw [okOr_eq_ok, Words.checkedAdd_eq_some] at hsum
      have hset : freshOf (ticket :: rest) \ seen.toFinset =
          insert ticket.fact.pack.id
            (freshOf rest \ (ticket.fact.pack.id :: seen).toFinset) := by
        rw [freshOf_cons, if_neg hcounted]
        ext pack
        by_cases hpack : pack = ticket.fact.pack.id
        · simp [hpack, hseen]
        · simp [hpack]
      rw [ih hrest h, hset, bytesOf_insert (by simp), hsum, hlen ticket List.mem_cons_self]
      omega
    · have hset : freshOf (ticket :: rest) \ seen.toFinset = freshOf rest \ seen.toFinset := by
        rw [freshOf_cons]
        split_ifs with hcounted
        · rfl
        · have hseen : ticket.fact.pack.id ∈ seen := by
            by_contra hseen
            exact hfresh ⟨hcounted, hseen⟩
          rw [Finset.insert_sdiff_of_mem _ (List.mem_toFinset.2 hseen)]
      rw [ih hrest h, hset]

variable {request : TicketedAdvanceRequest}

/-- The valid claims of an advance name the fresh packs of its request. -/
theorem freshOf_eq {snapshot : Snapshot}
    {valid : List ValidTicket} (hclaims : valid.map (·.claim) = request.tickets)
    (hrows : ∀ ticket ∈ valid, packOf snapshot ticket.claim.ticket = some ticket.fact.pack) :
    freshOf valid = freshPacks request snapshot := by
  rw [freshOf, freshPacks, ← hclaims, List.filter_map, List.filterMap_map]
  congr 1
  rw [← List.filterMap_eq_map]
  refine List.filterMap_congr fun ticket hticket => ?_
  simp only [Function.comp_apply, hrows ticket (List.mem_of_mem_filter hticket), Option.map_some]

/-- The empty batch adds no bytes. -/
@[simp] theorem bytesOf_empty : bytesOf lenOf ∅ = 0 :=
  Finset.sum_empty

/-- What an advance taken in a state does: its batch is unmarked there, is covered by the counter
row of that state, and moves the counter by its bytes, if it has any. -/
structure Adds (lenOf : Hash → UInt64) (repository : RepositoryId) (state : StorageState)
    (g : FencedDecision) (fresh : Finset Hash) : Prop where
  covered : (batchOf g.guarded.decision fresh).Nonempty →
    .storage repository state.counter ∈ g.guarded.required
  unmarked : ∀ pack ∈ batchOf g.guarded.decision fresh, pack ∉ state.marked
  effect : (counterEffect repository g.guarded.decision = none ∧
      bytesOf lenOf (batchOf g.guarded.decision fresh) = 0) ∨
    ∃ counter revision next, state.counter = .present counter revision ∧
      0 < bytesOf lenOf (batchOf g.guarded.decision fresh) ∧
      next.storedBytes.toNat = counter.storedBytes.toNat +
        bytesOf lenOf (batchOf g.guarded.decision fresh) ∧
      next.version.toNat = counter.version.toNat + 1 ∧
      counterEffect repository g.guarded.decision = some ⟨repository, next⟩

theorem requirePresent_eq_ok {α : Type} {observed : Observed α} {value : α}
    (h : requirePresent observed = .ok value) : ∃ revision, observed = .present value revision := by
  cases observed with
  | absent revision => exact absurd h (by simp [requirePresent])
  | present value' revision =>
    obtain rfl := Except.ok.inj h
    exact ⟨revision, rfl⟩

theorem nextCounter_eq_ok {counter next : StorageFact} {added : UInt64}
    (h : nextCounter counter added = .ok next) :
    next.storedBytes.toNat = counter.storedBytes.toNat + added.toNat ∧
      next.version.toNat = counter.version.toNat + 1 := by
  simp only [nextCounter, Wire.bind_eq_ok, okOr_eq_ok, Words.checkedAdd_eq_some] at h
  obtain ⟨bytes, hbytes, version, hversion, hnext⟩ := h
  obtain rfl := Except.ok.inj hnext
  exact ⟨hbytes, hversion⟩

variable {g : FencedDecision}

/-- A decision without an apply marks nothing. -/
theorem adds_of_not_apply {repository : RepositoryId} {state : StorageState}
    {fresh : Finset Hash} (h : ∀ effects, g.guarded.decision ≠ .apply effects) :
    Adds lenOf repository state g fresh := by
  have hbatch : batchOf g.guarded.decision fresh = ∅ := by
    unfold batchOf
    split
    · rename_i heq
      exact absurd heq (h _)
    · rfl
  have heffect : counterEffect repository g.guarded.decision = none := by
    unfold counterEffect
    split
    · rename_i heq
      exact absurd heq (h _)
    · rfl
  refine ⟨by simp [hbatch], by simp [hbatch], .inl ⟨heffect, by simp [hbatch]⟩⟩

theorem adds_of_taken {repository : RepositoryId} {state : StorageState}
    {snapshot : Snapshot} {limits : RefDecisionLimits}
    (htaken : Taken lenOf repository state request snapshot)
    (h : decideTicketedAdvance request snapshot limits = .ok g) :
    Adds lenOf repository state g (freshPacks request snapshot) := by
  simp only [decideTicketedAdvance, Wire.bind_eq_ok, sealAttempt, Prod.exists] at h
  obtain ⟨-, -, -, -, d, out, hrun, hg⟩ := h
  obtain rfl := Except.ok.inj hg
  obtain hsilent | ⟨pending, -, -, hsettled⟩ |
    ⟨valid, effects, mid, rfl, -, hclaims, hpresent, haugment⟩ := drive_cases request limits hrun
  · refine adds_of_not_apply fun effects heq => ?_
    have hd : d = .apply effects := heq
    rw [hd] at hsilent
    exact absurd hsilent (by simp [WriteDecision.isSilent])
  · obtain ⟨refusal, rfl⟩ | ⟨current, replay, rfl⟩ := hsettled
    · exact adds_of_not_apply fun effects => by simp
    · exact adds_of_not_apply fun effects => by simp
  · obtain ⟨observed, outcome, occurredMs, hinlined⟩ := htaken.inlined
    have hrows : ∀ ticket ∈ valid, packOf snapshot ticket.claim.ticket = some ticket.fact.pack := by
      intro ticket hticket
      obtain ⟨hfind, revision, hrow⟩ := hpresent ticket hticket
      rw [packOf, hfind, hrow]
    have hclaim : ∀ ticket ∈ valid, ticket.claim ∈ request.tickets := fun ticket hticket =>
      hclaims ▸ List.mem_map_of_mem hticket
    have hlen : ∀ ticket ∈ valid, ticket.fact.pack.len = lenOf ticket.fact.pack.id :=
      fun ticket hticket => htaken.lengths _ (hclaim ticket hticket) _ (hrows ticket hticket)
    have hfresh := freshOf_eq hclaims hrows
    obtain ⟨added, hadded, hguard, heffect⟩ := augmentApply_storage request limits hinlined haugment
    have hbytes := addedBytes_eq_ok hlen hadded
    rw [List.toFinset_nil, Finset.sdiff_empty, hfresh, UInt64.toNat_zero, Nat.zero_add] at hbytes
    -- a batch comes from a ticket, whose consumption guards the counter row of the snapshot
    have hcovered : (freshPacks request snapshot).Nonempty → observed = state.counter ∧
        .storage repository state.counter ∈ out := by
      intro hnonempty
      have hvalid : valid ≠ [] := by
        rintro rfl
        rw [← hfresh] at hnonempty
        exact absurd hnonempty (by simp [freshOf])
      obtain ⟨hstorage, hmem⟩ := hguard hvalid
      rw [htaken.storage, Option.some.injEq] at hstorage
      rw [htaken.repository, ← hstorage] at hmem
      exact ⟨hstorage.symm, hmem⟩
    refine ⟨fun hnonempty => (hcovered hnonempty).2, fun pack hpack => ?_, ?_⟩
    · have hpack : pack ∈ freshOf valid := hfresh ▸ hpack
      obtain ⟨ticket, hticket, rfl⟩ := List.mem_map.1 (List.mem_toFinset.1 hpack)
      obtain ⟨hvalid, hcounted⟩ := List.mem_filter.1 hticket
      have hiff := htaken.counted _ (hclaim ticket hvalid) _ (hrows ticket hvalid)
      simpa [← hiff] using hcounted
    · have hbatch : bytesOf lenOf (batchOf (.apply effects) (freshPacks request snapshot)) =
          added.toNat := hbytes.symm
      obtain ⟨rfl, hnone⟩ | ⟨counter, next, hpositive, hcounter, hnext, hstorage⟩ := heffect
      · exact .inl ⟨by simp [counterEffect, hnone], hbatch⟩
      · rw [UInt64.lt_iff_toNat_lt, UInt64.toNat_zero] at hpositive
        have hnonempty : (freshPacks request snapshot).Nonempty := by
          by_contra hempty
          rw [Finset.not_nonempty_iff_eq_empty.1 hempty, bytesOf_empty] at hbytes
          omega
        obtain ⟨revision, hrow⟩ := requirePresent_eq_ok hcounter
        obtain ⟨hbytes, hversion⟩ := nextCounter_eq_ok hnext
        refine .inr ⟨counter, revision, next, (hcovered hnonempty).1 ▸ hrow, ?_, ?_, hversion, ?_⟩
        · rw [hbatch]
          exact hpositive
        · rw [hbatch]
          exact hbytes
        · simp [counterEffect, hstorage, htaken.repository]

/-! ### The invariant -/

/-- What holds after the batches of a run, started in a state whose counter was exact. -/
structure Counted (lenOf : Hash → UInt64) (first : StorageState) (tr : List (Finset Hash))
    (history : StorageHistory) : Prop where
  exact' : storedBytes history.now.counter = bytesOf lenOf history.now.marked
  version : versionOf history.now.counter = versionOf first.counter +
    (tr.filter fun batch => 0 < bytesOf lenOf batch).length
  marked : history.now.marked = tr.foldl (· ∪ ·) first.marked
  grown : first.marked ⊆ history.now.marked
  older : ∀ state ∈ history.now :: history.past,
    versionOf state.counter ≤ versionOf history.now.counter ∧
    (versionOf state.counter = versionOf history.now.counter →
      ∀ pack ∈ history.now.marked, pack ∉ state.marked → (lenOf pack).toNat = 0)
  once : ∀ pack, (tr.map fun batch => if pack ∈ batch then (lenOf pack).toNat else 0).sum =
    if pack ∈ history.now.marked \ first.marked then (lenOf pack).toNat else 0

theorem counted_nil {first : StorageState}
    (h : storedBytes first.counter = bytesOf lenOf first.marked) :
    Counted lenOf first [] ⟨[], first⟩ := by
  refine ⟨h, by simp, rfl, Finset.Subset.refl _, ?_, by simp⟩
  intro state hstate
  rw [List.mem_singleton.1 hstate]
  exact ⟨le_rfl, fun _ pack hmem hnot => absurd hmem hnot⟩

/-- A pack with bytes that a guarded batch marks is unmarked at the commit: the counter row of
the snapshot is the present one, so no pack with bytes was marked in between. -/
theorem Counted.unmarked {first : StorageState} {tr : List (Finset Hash)}
    {history : StorageHistory} (h : Counted lenOf first tr history) {repository : RepositoryId}
    {state : StorageState} (hstate : state ∈ history.now :: history.past)
    {fresh : Finset Hash} (hadds : Adds lenOf repository state g fresh) {view : Snapshot}
    (hview : ∀ row ∈ view.storage, row = history.now.counter) {nowMs : UInt64}
    (hmatch : guardsMatch g.guarded view nowMs = true) :
    ((batchOf g.guarded.decision fresh).Nonempty → state.counter = history.now.counter) ∧
    ∀ pack ∈ batchOf g.guarded.decision fresh, pack ∈ history.now.marked →
      (lenOf pack).toNat = 0 := by
  have hrow : (batchOf g.guarded.decision fresh).Nonempty →
      state.counter = history.now.counter := by
    intro hnonempty
    have hguard := (holdsAt_of_guardsMatch hmatch _ (hadds.covered hnonempty)).2
    exact hview _ (of_decide_eq_true hguard).2
  refine ⟨hrow, fun pack hpack hmarked => ?_⟩
  have hversion := congrArg versionOf (hrow ⟨pack, hpack⟩)
  exact (h.older state hstate).2 hversion pack hmarked (hadds.unmarked pack hpack)

/-- The counter moves by the bytes of the batch, and its version by one when there are any. -/
theorem Adds.counter {repository : RepositoryId} {state now : StorageState}
    {fresh : Finset Hash} (hadds : Adds lenOf repository state g fresh)
    (hrow : (batchOf g.guarded.decision fresh).Nonempty → state.counter = now.counter)
    (revision : Revision) :
    storedBytes (now.commit repository g.guarded.decision fresh revision).counter =
        storedBytes now.counter + bytesOf lenOf (batchOf g.guarded.decision fresh) ∧
      versionOf (now.commit repository g.guarded.decision fresh revision).counter =
        versionOf now.counter +
          if 0 < bytesOf lenOf (batchOf g.guarded.decision fresh) then 1 else 0 := by
  obtain ⟨heffect, hbytes⟩ | ⟨counter, revision', next, hcounter, hpositive, hbytes, hversion,
    heffect⟩ := hadds.effect
  · simp [StorageState.commit, heffect, hbytes]
  · have hnonempty : (batchOf g.guarded.decision fresh).Nonempty := by
      by_contra hempty
      rw [Finset.not_nonempty_iff_eq_empty.1 hempty, bytesOf_empty] at hpositive
      omega
    rw [← hrow hnonempty, hcounter, if_pos hpositive]
    simp only [StorageState.commit, heffect, storedBytes, versionOf]
    exact ⟨hbytes, hversion⟩

/-- One more batch. -/
theorem Counted.snoc {first : StorageState} {tr : List (Finset Hash)}
    {history : StorageHistory} (h : Counted lenOf first tr history) {repository : RepositoryId}
    {state : StorageState} (hstate : state ∈ history.now :: history.past) {g : FencedDecision}
    {fresh : Finset Hash} (hadds : Adds lenOf repository state g fresh) {view : Snapshot}
    (hview : ∀ row ∈ view.storage, row = history.now.counter) {nowMs : UInt64}
    (hmatch : guardsMatch g.guarded view nowMs = true) (revision : Revision) :
    Counted lenOf first (tr ++ [batchOf g.guarded.decision fresh])
      ⟨history.now :: history.past,
        history.now.commit repository g.guarded.decision fresh revision⟩ := by
  obtain ⟨hrow, hzero⟩ := h.unmarked hstate hadds hview hmatch
  obtain ⟨hstored, hversion⟩ := hadds.counter hrow revision
  have hmarked : (history.now.commit repository g.guarded.decision fresh revision).marked =
      history.now.marked ∪ batchOf g.guarded.decision fresh := rfl
  generalize hnow : history.now.commit repository g.guarded.decision fresh revision = now'
    at hstored hversion hmarked ⊢
  generalize batchOf g.guarded.decision fresh = batch at hzero hstored hversion hmarked ⊢
  refine ⟨?_, ?_, ?_, ?_, ?_, ?_⟩
  · rw [hstored, hmarked, bytesOf_union hzero, h.exact']
  · rw [hversion, h.version, List.filter_append, List.length_append, Nat.add_assoc]
    congr 2
    by_cases hpositive : 0 < bytesOf lenOf batch
    · simp [hpositive]
    · simp [hpositive]
  · rw [hmarked, h.marked, List.foldl_append]
    rfl
  · rw [hmarked]
    exact h.grown.trans Finset.subset_union_left
  · intro earlier hearlier
    obtain rfl | hearlier := List.mem_cons.1 hearlier
    · exact ⟨le_rfl, fun _ pack hmem hnot => absurd hmem hnot⟩
    · obtain ⟨hle, hsame⟩ := h.older earlier hearlier
      have hmono : versionOf history.now.counter ≤ versionOf now'.counter := by
        rw [hversion]
        exact Nat.le_add_right _ _
      refine ⟨hle.trans hmono, fun heq pack hpack hnot => ?_⟩
      rw [hmarked, Finset.mem_union] at hpack
      obtain hold | hnew := hpack
      · exact hsame (le_antisymm hle (heq ▸ hmono)) pack hold hnot
      · have hbytes : bytesOf lenOf batch = 0 := by
          have hstill : versionOf now'.counter ≤ versionOf history.now.counter := heq ▸ hle
          rw [hversion] at hstill
          by_contra hpositive
          rw [if_pos (Nat.pos_of_ne_zero hpositive)] at hstill
          omega
        exact Finset.sum_eq_zero_iff.1 hbytes pack hnew
  · intro pack
    rw [List.map_append, List.sum_append, h.once pack, hmarked]
    simp only [List.map_cons, List.map_nil, List.sum_cons, List.sum_nil, Nat.add_zero,
      Finset.mem_sdiff, Finset.mem_union]
    by_cases hbytes : (lenOf pack).toNat = 0
    · simp [hbytes]
    · by_cases hpack : pack ∈ batch
      · have hnot : pack ∉ history.now.marked := fun hmem => hbytes (hzero pack hpack hmem)
        have hfirst : pack ∉ first.marked := fun hmem => hnot (h.grown hmem)
        simp [hpack, hnot, hfirst]
      · simp [hpack]

/-- **Exact accounting.** In every state of every run that starts with an exact counter, the
counter is the sum of the lengths of the marked packs, its version has grown by one for each
batch that added bytes, and over the whole run every pack has added its length exactly once if
its marker was set in the run, and nothing otherwise. -/
theorem stored_bytes_exact (lenOf : Hash → UInt64) (repository : RepositoryId)
    (first : StorageState) (hexact : storedBytes first.counter = bytesOf lenOf first.marked)
    (tr : List (Finset Hash)) (last : StorageHistory)
    (hrun : Lts.Run (BatchStep lenOf repository) ⟨[], first⟩ tr last) :
    storedBytes last.now.counter = bytesOf lenOf last.now.marked ∧
    versionOf last.now.counter = versionOf first.counter +
      (tr.filter fun batch => 0 < bytesOf lenOf batch).length ∧
    last.now.marked = tr.foldl (· ∪ ·) first.marked ∧
    ∀ pack, (tr.map fun batch => if pack ∈ batch then (lenOf pack).toNat else 0).sum =
      if pack ∈ last.now.marked \ first.marked then (lenOf pack).toNat else 0 := by
  have hcounted : Counted lenOf first tr last := by
    refine hrun.invariant (I := Counted lenOf first) (counted_nil hexact) ?_
    rintro tr history batch history' hcounted ⟨state, hstate, request, snapshot, limits, g, view,
      nowMs, revision, htaken, hdecide, hview, hmatch, rfl, rfl⟩
    exact hcounted.snoc hstate (adds_of_taken htaken hdecide) hview hmatch revision
  exact ⟨hcounted.exact', hcounted.version, hcounted.marked, hcounted.once⟩

end Runs

/-- The state of the sample: an empty repository. -/
def sampleStorage : StorageState := ⟨.present ⟨0, 0⟩ ZERO, ∅⟩

/-- The sample advance counts its pack of 100 bytes. -/
theorem stored_bytes_exact_sample :
    ∃ last, Lts.Run (BatchStep (fun _ => 100) (digest 1)) ⟨[], sampleStorage⟩ [{digest 5}] last ∧
      storedBytes last.now.counter = 100 ∧ versionOf last.now.counter = 1 := by
  have hpack : packOf (sampleSnapshot none) (digest 2) = some ⟨digest 5, 100, ZERO⟩ := by
    decide +kernel
  have hfresh : freshPacks sampleAdvanceRequest (sampleSnapshot none) = {digest 5} := by
    decide +kernel
  have htaken : Taken (fun _ => 100) (digest 1) sampleStorage sampleAdvanceRequest
      (sampleSnapshot none) := by
    refine ⟨rfl, ⟨_, _, _, rfl⟩, rfl, fun claim hclaim pack hpacked => ?_,
      fun claim hclaim pack hpacked => ?_⟩
    · rw [List.mem_singleton.1 hclaim]
      simp [sampleStorage]
    · rw [List.mem_singleton.1 hclaim, hpack, Option.mem_some_iff] at hpacked
      rw [← hpacked]
  have heffects : ((decideTicketedAdvance sampleAdvanceRequest (sampleSnapshot none)
      sampleLimits).toOption.any fun g =>
        guardsMatch g.guarded (sampleSnapshot none) 10 &&
          (batchOf g.guarded.decision {digest 5} == {digest 5})) = true := by
    decide +kernel
  cases h : decideTicketedAdvance sampleAdvanceRequest (sampleSnapshot none) sampleLimits with
  | error e => exact absurd heffects (by rw [h]; exact Bool.false_ne_true)
  | ok g =>
    rw [h] at heffects
    obtain ⟨hmatch, hbatch⟩ := (Bool.and_eq_true _ _).mp heffects
    have hview : ∀ row ∈ (sampleSnapshot none).storage, row = sampleStorage.counter :=
      fun row hrow => (Option.some.inj hrow).symm
    have hstep : BatchStep (fun _ => 100) (digest 1) ⟨[], sampleStorage⟩ _ _ :=
      ⟨sampleStorage, List.mem_singleton.2 rfl, sampleAdvanceRequest, sampleSnapshot none,
        sampleLimits, g, sampleSnapshot none, 10, ZERO, htaken, h, hview, hmatch, rfl, rfl⟩
    have hrun := Lts.Run.single hstep
    rw [hfresh, eq_of_beq hbatch] at hrun
    obtain ⟨hbytes, hversion, hmarked, -⟩ := stored_bytes_exact (fun _ => 100) (digest 1)
      sampleStorage rfl _ _ hrun
    refine ⟨_, hrun, ?_, ?_⟩
    · rw [hbytes, hmarked]
      simp [sampleStorage, bytesOf]
    · rw [hversion]
      simp [sampleStorage, bytesOf, versionOf]

end Mkit.Decision
