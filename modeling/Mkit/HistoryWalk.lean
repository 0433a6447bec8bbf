import Mkit.HistoryOrder

/-!
# Driving the History Walk

The host of a `TimestampDiscovery` walk, as a labelled transition system over an acyclic
commit graph: it may interleave the calls in any order, supply or withhold any timestamp,
hold back any parent edge, and save and restore the walk between any two calls (`Driven`).

## Main results

* `walk_enumerates` — along every run no id is emitted twice, every emission wins among the
  live slots, and at `Done` exactly the discovered ids have been emitted; the host loop ends;
* `paging_and_lookahead_irrelevant` — the emitted sequence depends neither on where the walk
  is saved and restored nor on which timestamps are supplied ahead.
-/

namespace Mkit

open Relation (ReflTransGen TransGen)

/-- A finite acyclic commit graph: a timestamp and the local parents, in canonical order, of
every id. -/
structure Graph where
  nodes : Finset Hash
  timestamp : Hash → UInt64
  parents : Hash → List Hash
  /-- The parents of a node are nodes. -/
  closed : ∀ a ∈ nodes, ∀ b ∈ parents a, b ∈ nodes
  /-- No node is its own ancestor. -/
  acyclic : ∀ a ∈ nodes, ¬ TransGen (fun a b => b ∈ parents a) a a

namespace Graph

variable (g : Graph)

/-- From a node to one of its parents. -/
def Edge (a b : Hash) : Prop :=
  b ∈ g.parents a

/-- A timestamp, if supplied, is the canonical one. -/
def Keys (id : Hash) (timestamp : Option UInt64) : Prop :=
  ∀ t ∈ timestamp, t = g.timestamp id

/-- The edges of a node as the host must list them: all of its parents in canonical order,
with no timestamp but the canonical one; any of them may be held back. -/
def Lists (id : Hash) (edges : List ParentEdge) : Prop :=
  edges.map (·.id) = g.parents id ∧ ∀ e ∈ edges, g.Keys e.id e.timestamp

end Graph

/-! ### Runs -/

/-- A call of the host, with what it returned. -/
inductive Call where
  | push (c : PendingCandidate)
  | step (r : WalkStep)
  | provideTimestamp (id : Hash)
  | emit (id : Hash) (edges : List ParentEdge)
  | snapshot (bytes : Bytes)

open TimestampDiscovery in
/-- The successful calls of a host that reports the truth about the graph. -/
inductive Driven (g : Graph) : TimestampDiscovery → Call → TimestampDiscovery → Prop
  | push {s s' : TimestampDiscovery} {c : PendingCandidate} (hc : c.id ∈ g.nodes)
      (hk : g.Keys c.id c.timestamp) (h : s.push c = .ok s') : Driven g s (.push c) s'
  | step {s s' : TimestampDiscovery} {r : WalkStep} (h : s.step = .ok (r, s')) :
      Driven g s (.step r) s'
  | provideTimestamp {s s' : TimestampDiscovery} {id : Hash}
      (h : s.provideTimestamp id (g.timestamp id) = .ok s') :
      Driven g s (.provideTimestamp id) s'
  | emit {s s' : TimestampDiscovery} {id : Hash} {edges : List ParentEdge}
      (hsel : s.selected = some id) (he : g.Lists id edges) (h : s.emit edges = .ok s') :
      Driven g s (.emit id edges) s'
  | snapshot {s s' : TimestampDiscovery} {b : Bytes} (henc : s.encode = some b)
      (hdec : decode b = .ok s') : Driven g s (.snapshot b) s'

/-- The ids handed out. -/
def emissions (tr : List Call) : List Hash :=
  tr.filterMap fun
    | .step (.emit id) => some id
    | _ => none

/-- The ids whose parents have been registered. -/
def completed (tr : List Call) : List Hash :=
  tr.filterMap fun
    | .emit id _ => some id
    | _ => none

/-- The ids pushed. -/
def seeds (tr : List Call) : List Hash :=
  tr.filterMap fun
    | .push c => some c.id
    | _ => none

/-- The edge was listed and marked for enqueue. -/
def Enqueued (tr : List Call) (a b : Hash) : Prop :=
  ∃ edges, Call.emit a edges ∈ tr ∧ ∃ e ∈ edges, e.id = b ∧ e.enqueue = true

/-- The id is reachable from a seed through enqueued edges. -/
def Discovered (tr : List Call) (x : Hash) : Prop :=
  ∃ seed ∈ seeds tr, ReflTransGen (Enqueued tr) seed x

section Trace

variable {tr : List Call}

theorem emissions_snoc (tr : List Call) (a : Call) :
    emissions (tr ++ [a]) = emissions tr ++ emissions [a] := by
  rw [emissions, List.filterMap_append]
  rfl

theorem completed_snoc (tr : List Call) (a : Call) :
    completed (tr ++ [a]) = completed tr ++ completed [a] := by
  rw [completed, List.filterMap_append]
  rfl

theorem seeds_snoc (tr : List Call) (a : Call) : seeds (tr ++ [a]) = seeds tr ++ seeds [a] := by
  rw [seeds, List.filterMap_append]
  rfl

theorem Enqueued.snoc {x y : Hash} (h : Enqueued tr x y) (a : Call) : Enqueued (tr ++ [a]) x y := by
  obtain ⟨edges, hmem, he⟩ := h
  exact ⟨edges, List.mem_append_left _ hmem, he⟩

theorem Discovered.snoc {x : Hash} (h : Discovered tr x) (a : Call) : Discovered (tr ++ [a]) x := by
  obtain ⟨seed, hseed, hx⟩ := h
  refine ⟨seed, ?_, ReflTransGen.mono (fun _ _ h => h.snoc a) _ _ hx⟩
  rw [seeds_snoc]
  exact List.mem_append_left _ hseed

end Trace

/-! ### Uniqueness -/

/-- The id is pending or outstanding. -/
def TimestampDiscovery.Awaits (s : TimestampDiscovery) (x : Hash) : Prop :=
  (∃ c ∈ s.pending, c.id = x) ∨ s.selected = some x

/-- What holds between the past of a run and its state. The field `unrecorded` is the heart:
an id that was emitted without being recorded is no ancestor of anything that can still be
emitted, so it cannot come back. -/
structure Sound (g : Graph) (tr : List Call) (s : TimestampDiscovery) : Prop where
  valid : s.Valid
  keys : ∀ c ∈ s.pending, g.Keys c.id c.timestamp
  nodes : ∀ x, s.Awaits x → x ∈ g.nodes
  completed_nodes : ∀ x ∈ completed tr, x ∈ g.nodes
  emissions_eq : emissions tr = completed tr ++ s.selected.toList
  nodup : (emissions tr).Nodup
  recorded : ∀ x ∈ s.emitted, x ∈ completed tr
  unrecorded : ∀ x ∈ completed tr, x ∉ s.emitted →
    ∀ y, s.Awaits y → ¬ ReflTransGen g.Edge y x
  unsealed : s.sealed = false → completed tr = []

section Preservation

variable {g : Graph} {tr : List Call} {s s' : TimestampDiscovery}

theorem sound_new (g : Graph) : Sound g [] TimestampDiscovery.new := by
  have hno : ∀ x, ¬ TimestampDiscovery.new.Awaits x := by
    rintro x (⟨c, hc, -⟩ | h)
    · cases hc
    · cases h
  exact
    { valid := TimestampDiscovery.valid_new
      keys := fun c hc => by cases hc
      nodes := fun x hx => absurd hx (hno x)
      completed_nodes := fun x hx => by cases hx
      emissions_eq := rfl
      nodup := List.nodup_nil
      recorded := fun x hx => by cases hx
      unrecorded := fun x hx => by cases hx
      unsealed := fun _ => rfl }

/-- A live slot's id has not been completed. -/
theorem Sound.live_notMem_completed (h : Sound g tr s) {c : PendingCandidate}
    (hc : c ∈ s.live) : c.id ∉ completed tr := by
  obtain ⟨hpend, hlive⟩ := TimestampDiscovery.mem_live.1 hc
  intro hcomp
  by_cases he : c.id ∈ s.emitted
  · have hne : s.emitted ≠ ∅ := fun h0 => by rw [h0] at he; cases he
    exact hlive (h.valid.dedup_iff.2 hne) he
  · exact h.unrecorded _ hcomp he _ (.inl ⟨c, hpend, rfl⟩) ReflTransGen.refl

/-- Forgetting slots, or filling in canonical timestamps, keeps everything. -/
theorem Sound.of_pending (h : Sound g tr s) {pending : List PendingCandidate} {a : Call}
    (hlen : pending.length ≤ s.pending.length)
    (hsub : ∀ c ∈ pending, ∃ c' ∈ s.pending, c'.id = c.id)
    (hkeys : ∀ c ∈ pending, g.Keys c.id c.timestamp)
    (he : emissions [a] = []) (hc : completed [a] = []) :
    Sound g (tr ++ [a]) { s with pending := pending } := by
  have haw : ∀ x, ({ s with pending := pending } : TimestampDiscovery).Awaits x → s.Awaits x := by
    rintro x (⟨c, hc, rfl⟩ | hx)
    · obtain ⟨c', hc', hid⟩ := hsub c hc
      exact .inl ⟨c', hc', hid⟩
    · exact .inr hx
  have he' : emissions (tr ++ [a]) = emissions tr := by
    rw [emissions_snoc, he, List.append_nil]
  have hc' : completed (tr ++ [a]) = completed tr := by
    rw [completed_snoc, hc, List.append_nil]
  exact
    { valid := h.valid.of_pending (hlen.trans h.valid.pending_le) s.selected
      keys := hkeys
      nodes := fun x hx => h.nodes x (haw x hx)
      completed_nodes := by rw [hc']; exact h.completed_nodes
      emissions_eq := by rw [he', hc']; exact h.emissions_eq
      nodup := by rw [he']; exact h.nodup
      recorded := by rw [hc']; exact h.recorded
      unrecorded := by
        rw [hc']
        exact fun x hx hne y hy => h.unrecorded x hx hne y (haw y hy)
      unsealed := by rw [hc']; exact h.unsealed }

theorem Sound.push (h : Sound g tr s) {c : PendingCandidate} (hc : c.id ∈ g.nodes)
    (hk : g.Keys c.id c.timestamp) (hp : s.push c = .ok s') : Sound g (tr ++ [.push c]) s' := by
  have hvalid := h.valid.push hp
  obtain ⟨hsealed, -, -, rfl⟩ := TimestampDiscovery.push_eq_ok.1 hp
  have hnone := h.unsealed hsealed
  have he' : emissions (tr ++ [.push c]) = emissions tr := by
    rw [emissions_snoc]
    exact List.append_nil _
  have hc' : completed (tr ++ [.push c]) = completed tr := by
    rw [completed_snoc]
    exact List.append_nil _
  refine
    { valid := hvalid
      keys := ?_
      nodes := ?_
      completed_nodes := by rw [hc']; exact h.completed_nodes
      emissions_eq := by rw [he', hc']; exact h.emissions_eq
      nodup := by rw [he']; exact h.nodup
      recorded := by rw [hc']; exact h.recorded
      unrecorded := by
        rw [hc', hnone]
        exact fun x hx => by cases hx
      unsealed := by rw [hc']; exact h.unsealed }
  · intro d hd
    rcases List.mem_append.1 hd with hd | hd
    · exact h.keys d hd
    · obtain rfl := List.mem_singleton.1 hd
      exact hk
  · rintro x (⟨d, hd, rfl⟩ | hx)
    · rcases List.mem_append.1 hd with hd | hd
      · exact h.nodes _ (.inl ⟨d, hd, rfl⟩)
      · obtain rfl := List.mem_singleton.1 hd
        exact hc
    · exact h.nodes x (.inr hx)

/-- Handing out a live slot. -/
theorem Sound.select (h : Sound g tr s) (hsel : s.selected = none) {i : ℕ}
    {e : PendingCandidate} (hi : s.live[i]? = some e) : Sound g (tr ++ [.step (.emit e.id)])
      { s with pending := s.live.eraseIdx i, selected := some e.id } := by
  have hmem : e ∈ s.live := List.mem_of_getElem? hi
  have hpend := (TimestampDiscovery.mem_live.1 hmem).1
  have haw : ∀ x, ({ s with pending := s.live.eraseIdx i, selected := some e.id } :
      TimestampDiscovery).Awaits x → s.Awaits x := by
    rintro x (⟨c, hc, rfl⟩ | hx)
    · exact .inl ⟨c, (TimestampDiscovery.mem_live.1 (List.mem_of_mem_eraseIdx hc)).1, rfl⟩
    · obtain rfl := Option.some.inj hx
      exact .inl ⟨e, hpend, rfl⟩
  have hem : emissions tr = completed tr := by
    have h0 := h.emissions_eq
    rwa [hsel, Option.toList_none, List.append_nil] at h0
  have he' : emissions (tr ++ [.step (.emit e.id)]) = completed tr ++ [e.id] := by
    rw [emissions_snoc, hem]
    rfl
  have hc' : completed (tr ++ [.step (.emit e.id)]) = completed tr := by
    rw [completed_snoc]
    exact List.append_nil _
  have hlen : (s.live.eraseIdx i).length ≤ FRONTIER_MAX :=
    (List.length_eraseIdx_le _ _).trans (s.length_live_le.trans h.valid.pending_le)
  refine
    { valid := h.valid.of_pending hlen (some e.id)
      keys := ?_
      nodes := fun x hx => h.nodes x (haw x hx)
      completed_nodes := by rw [hc']; exact h.completed_nodes
      emissions_eq := by rw [he', hc']; rfl
      nodup := ?_
      recorded := by rw [hc']; exact h.recorded
      unrecorded := by
        rw [hc']
        exact fun x hx hne y hy => h.unrecorded x hx hne y (haw y hy)
      unsealed := by rw [hc']; exact h.unsealed }
  · intro c hc
    exact h.keys c (TimestampDiscovery.mem_live.1 (List.mem_of_mem_eraseIdx hc)).1
  · rw [he', List.nodup_append]
    refine ⟨hem ▸ h.nodup, List.nodup_singleton _, fun a ha b hb hab => ?_⟩
    obtain rfl := List.mem_singleton.1 hb
    exact h.live_notMem_completed hmem (hab ▸ ha)

theorem Sound.step (h : Sound g tr s) {r : WalkStep} (hs : s.step = .ok (r, s')) :
    Sound g (tr ++ [.step r]) s' := by
  obtain ⟨hsel, hcase⟩ := TimestampDiscovery.step_eq_ok hs
  rcases hcase with ⟨rfl, -, rfl⟩ | ⟨e, -, -, rfl, rfl⟩ | ⟨i, e, hi, -, rfl, rfl⟩
  · exact h.of_pending (Nat.zero_le _) (fun c hc => by cases hc) (fun c hc => by cases hc)
      rfl rfl
  · refine h.of_pending s.length_live_le
      (fun c hc => ⟨c, (TimestampDiscovery.mem_live.1 hc).1, rfl⟩)
      (fun c hc => h.keys c (TimestampDiscovery.mem_live.1 hc).1) rfl rfl
  · exact h.select hsel hi

theorem Sound.provideTimestamp (h : Sound g tr s) {id : Hash}
    (hp : s.provideTimestamp id (g.timestamp id) = .ok s') :
    Sound g (tr ++ [.provideTimestamp id]) s' := by
  obtain ⟨-, -, rfl⟩ := TimestampDiscovery.provideTimestamp_eq_ok.1 hp
  refine h.of_pending (by rw [List.length_map]) (fun c hc => ?_) (fun c hc => ?_) rfl rfl
  · obtain ⟨d, hd, rfl⟩ := List.mem_map.1 hc
    exact ⟨d, hd, (TimestampDiscovery.keyed_id _ _ _).symm⟩
  · obtain ⟨d, hd, rfl⟩ := List.mem_map.1 hc
    rw [TimestampDiscovery.keyed_id]
    unfold TimestampDiscovery.keyed
    split
    · rename_i hid
      intro t ht
      rw [hid]
      exact (Option.some.inj ht).symm
    · exact h.keys d hd

/-- A queued parent is a parent of the node. -/
theorem edge_of_mem_accepted {id : Hash} {edges : List ParentEdge} {c : PendingCandidate}
    (he : g.Lists id edges) (hc : c ∈ s.accepted id edges) :
    g.Edge id c.id ∧ g.Keys c.id c.timestamp := by
  obtain ⟨e, hmem, -, -, -, rfl⟩ := TimestampDiscovery.mem_accepted.1 hc
  refine ⟨?_, he.2 e hmem⟩
  rw [Graph.Edge, ← he.1]
  exact List.mem_map_of_mem hmem

theorem Sound.emit (h : Sound g tr s) {id : Hash} {edges : List ParentEdge}
    (hsel : s.selected = some id) (he : g.Lists id edges) (hemit : s.emit edges = .ok s') :
    Sound g (tr ++ [.emit id edges]) s' := by
  have hvalid := h.valid.emit hemit
  obtain ⟨id', hsel', -, -, rfl⟩ := TimestampDiscovery.emit_eq_ok.1 hemit
  obtain rfl : id' = id := Option.some.inj (hsel'.symm.trans hsel)
  have hid : id' ∈ g.nodes := h.nodes _ (.inr hsel)
  have hsub : s.emitted ⊆ (s.registered id' edges).emitted := by
    unfold TimestampDiscovery.registered
    dsimp only
    split
    · exact Finset.subset_insert _ _
    · exact Finset.Subset.refl _
  -- What awaits afterwards awaited before or is a parent of the node.
  have haw : ∀ y, (s.registered id' edges).Awaits y →
      (∃ c ∈ s.pending, c.id = y) ∨ g.Edge id' y := by
    rintro y (⟨c, hc, rfl⟩ | hy)
    · rcases List.mem_append.1 hc with hc | hc
      · exact .inl ⟨c, hc, rfl⟩
      · exact .inr (edge_of_mem_accepted he hc).1
    · cases hy
  have he' : emissions (tr ++ [.emit id' edges]) = emissions tr := by
    rw [emissions_snoc]
    exact List.append_nil _
  have hc' : completed (tr ++ [.emit id' edges]) = completed tr ++ [id'] := by
    rw [completed_snoc]
    rfl
  refine
    { valid := hvalid
      keys := ?_
      nodes := ?_
      completed_nodes := ?_
      emissions_eq := ?_
      nodup := by rw [he']; exact h.nodup
      recorded := ?_
      unrecorded := ?_
      unsealed := fun hs => by cases hs }
  · intro c hc
    rcases List.mem_append.1 hc with hc | hc
    · exact h.keys c hc
    · exact (edge_of_mem_accepted he hc).2
  · intro y hy
    rcases haw y hy with ⟨c, hc, rfl⟩ | hedge
    · exact h.nodes _ (.inl ⟨c, hc, rfl⟩)
    · exact g.closed id' hid y hedge
  · rw [hc']
    intro x hx
    rcases List.mem_append.1 hx with hx | hx
    · exact h.completed_nodes x hx
    · exact List.mem_singleton.1 hx ▸ hid
  · rw [he', hc', h.emissions_eq, hsel]
    exact (List.append_nil _).symm
  · intro x hx
    rw [hc']
    unfold TimestampDiscovery.registered at hx
    dsimp only at hx
    split at hx
    · rcases Finset.mem_insert.1 hx with rfl | hx
      · exact List.mem_append_right _ (List.mem_singleton.2 rfl)
      · exact List.mem_append_left _ (h.recorded x hx)
    · exact List.mem_append_left _ (h.recorded x hx)
  · rw [hc']
    intro x hx hne y hy hreach
    rcases List.mem_append.1 hx with hx | hx
    · -- An older unrecorded id: it was no ancestor of the node either.
      have hold : x ∉ s.emitted := fun hmem => hne (hsub hmem)
      rcases haw y hy with hpend | hedge
      · exact h.unrecorded x hx hold y (.inl hpend) hreach
      · exact h.unrecorded x hx hold id' (.inr hsel) (ReflTransGen.head hedge hreach)
    · -- The node itself: unrecorded only when nothing else was pending.
      obtain rfl := List.mem_singleton.1 hx
      have hd : s.dedupAfter edges = false := by
        by_contra hd
        refine hne ?_
        unfold TimestampDiscovery.registered
        dsimp only
        rw [if_pos (by simpa using hd)]
        exact Finset.mem_insert_self _ _
      have hempty : s.pending = [] := by
        rw [TimestampDiscovery.dedupAfter, Bool.or_eq_false_iff] at hd
        simpa using hd.2
      rcases haw y hy with ⟨c, hc, -⟩ | hedge
      · rw [hempty] at hc
        cases hc
      · exact g.acyclic x hid (TransGen.head' hedge hreach)

/-- A snapshot restores the very state. -/
theorem Sound.snapshot_eq (h : Sound g tr s) {b : Bytes} (henc : s.encode = some b)
    (hdec : TimestampDiscovery.decode b = .ok s') : s' = s := by
  have hs := TimestampDiscovery.decode_eq_ok_iff.2 ⟨h.valid, henc⟩
  exact Except.ok.inj (hdec.symm.trans hs)

/-- Every call of the host keeps `Sound`. -/
theorem Sound.driven (h : Sound g tr s) {a : Call} (hd : Driven g s a s') :
    Sound g (tr ++ [a]) s' := by
  cases hd with
  | push hc hk hp => exact h.push hc hk hp
  | step hs => exact h.step hs
  | provideTimestamp hp => exact h.provideTimestamp hp
  | emit hsel he hemit => exact h.emit hsel he hemit
  | snapshot henc hdec =>
    obtain rfl := h.snapshot_eq henc hdec
    have hlen : s'.pending.length ≤ s'.pending.length := le_refl _
    exact h.of_pending hlen (fun c hc => ⟨c, hc, rfl⟩) h.keys rfl rfl

/-- Every run is sound. -/
theorem sound_of_run (h : Lts.Run (Driven g) TimestampDiscovery.new tr s) : Sound g tr s :=
  h.invariant (sound_new g) fun _ _ _ _ hs hd => hs.driven hd

end Preservation

/-! ### Completeness -/

/-- Nothing discovered is lost, and nothing else is queued. -/
structure Covers (tr : List Call) (s : TimestampDiscovery) : Prop where
  discovered : ∀ x, s.Awaits x ∨ x ∈ completed tr → Discovered tr x
  seeds : ∀ x ∈ seeds tr, s.Awaits x ∨ x ∈ completed tr
  edges : ∀ a b, Enqueued tr a b → s.Awaits b ∨ b ∈ completed tr

section Coverage

variable {g : Graph} {tr : List Call} {s s' : TimestampDiscovery}

theorem covers_new : Covers [] TimestampDiscovery.new where
  discovered := by
    rintro x ((⟨c, hc, -⟩ | h) | h)
    · cases hc
    · cases h
    · cases h
  seeds := fun x hx => by cases hx
  edges := by
    rintro a b ⟨edges, hmem, -⟩
    cases hmem

/-- A call that neither seeds nor registers may drop a slot only of a completed id. -/
theorem Covers.of_awaits (h : Covers tr s) {a : Call} (hseeds : Mkit.seeds [a] = [])
    (hemit : ∀ id edges, a ≠ .emit id edges) (hto : ∀ x, s'.Awaits x → s.Awaits x)
    (hfrom : ∀ x, s.Awaits x → s'.Awaits x ∨ x ∈ completed tr) : Covers (tr ++ [a]) s' := by
  have hc : completed (tr ++ [a]) = completed tr := by
    rw [completed_snoc]
    cases a with
    | emit id edges => exact absurd rfl (hemit id edges)
    | _ => exact List.append_nil _
  have hmove : ∀ x, s.Awaits x ∨ x ∈ completed tr →
      s'.Awaits x ∨ x ∈ completed (tr ++ [a]) := by
    rw [hc]
    rintro x (hx | hx)
    · exact hfrom x hx
    · exact .inr hx
  refine ⟨?_, ?_, ?_⟩
  · rw [hc]
    rintro x (hx | hx)
    · exact (h.discovered x (.inl (hto x hx))).snoc a
    · exact (h.discovered x (.inr hx)).snoc a
  · rw [seeds_snoc, hseeds, List.append_nil]
    exact fun x hx => hmove x (h.seeds x hx)
  · rintro x y ⟨edges, hmem, hy⟩
    rcases List.mem_append.1 hmem with hmem | hmem
    · exact hmove y (h.edges x y ⟨edges, hmem, hy⟩)
    · exact absurd (List.mem_singleton.1 hmem).symm (hemit x edges)

theorem Covers.push (h : Covers tr s) {c : PendingCandidate} (hp : s.push c = .ok s') :
    Covers (tr ++ [.push c]) s' := by
  obtain ⟨-, -, -, rfl⟩ := TimestampDiscovery.push_eq_ok.1 hp
  have hc : completed (tr ++ [.push c]) = completed tr := by
    rw [completed_snoc]
    exact List.append_nil _
  have hseeds : Mkit.seeds (tr ++ [.push c]) = Mkit.seeds tr ++ [c.id] := by
    rw [seeds_snoc]
    rfl
  have hkeep : ∀ x, s.Awaits x ∨ x ∈ completed tr →
      ({ s with pending := s.pending ++ [c] } : TimestampDiscovery).Awaits x ∨
        x ∈ completed (tr ++ [.push c]) := by
    rw [hc]
    rintro x ((⟨d, hd, rfl⟩ | hx) | hx)
    · exact .inl (.inl ⟨d, List.mem_append_left _ hd, rfl⟩)
    · exact .inl (.inr hx)
    · exact .inr hx
  refine ⟨?_, ?_, ?_⟩
  · rw [hc]
    rintro x ((⟨d, hd, rfl⟩ | hx) | hx)
    · rcases List.mem_append.1 hd with hd | hd
      · exact (h.discovered _ (.inl (.inl ⟨d, hd, rfl⟩))).snoc _
      · obtain rfl := List.mem_singleton.1 hd
        refine ⟨d.id, ?_, ReflTransGen.refl⟩
        rw [hseeds]
        exact List.mem_append_right _ (List.mem_singleton.2 rfl)
    · exact (h.discovered x (.inl (.inr hx))).snoc _
    · exact (h.discovered x (.inr hx)).snoc _
  · rw [hseeds]
    intro x hx
    rcases List.mem_append.1 hx with hx | hx
    · exact hkeep x (h.seeds x hx)
    · obtain rfl := List.mem_singleton.1 hx
      exact .inl (.inl ⟨c, List.mem_append_right _ (List.mem_singleton.2 rfl), rfl⟩)
  · rintro x y ⟨edges, hmem, hy⟩
    rcases List.mem_append.1 hmem with hmem | hmem
    · exact hkeep y (h.edges x y ⟨edges, hmem, hy⟩)
    · cases List.mem_singleton.1 hmem

/-- A slot is dropped only when its id has been recorded. -/
theorem Sound.live_or_completed (h : Sound g tr s) {c : PendingCandidate}
    (hc : c ∈ s.pending) : c ∈ s.live ∨ c.id ∈ completed tr := by
  by_cases he : c.id ∈ s.emitted
  · exact .inr (h.recorded _ he)
  · exact .inl (TimestampDiscovery.mem_live.2 ⟨hc, fun _ => he⟩)

theorem Covers.step (h : Covers tr s) (hsound : Sound g tr s) {r : WalkStep}
    (hs : s.step = .ok (r, s')) : Covers (tr ++ [.step r]) s' := by
  obtain ⟨hsel, hcase⟩ := TimestampDiscovery.step_eq_ok hs
  have hlive : ∀ x, s.Awaits x → (∃ c ∈ s.live, c.id = x) ∨ x ∈ completed tr := by
    rintro x (⟨c, hc, rfl⟩ | hx)
    · exact (hsound.live_or_completed hc).imp_left fun hl => ⟨c, hl, rfl⟩
    · rw [hsel] at hx
      cases hx
  rcases hcase with ⟨rfl, hnil, rfl⟩ | ⟨e, -, -, rfl, rfl⟩ | ⟨i, e, hi, -, rfl, rfl⟩
  · refine h.of_awaits rfl (fun _ _ h => by cases h) ?_ fun x hx => ?_
    · rintro x (⟨c, hc, -⟩ | hx)
      · cases hc
      · exact .inr hx
    · rcases hlive x hx with ⟨c, hc, -⟩ | hx
      · rw [hnil] at hc
        cases hc
      · exact .inr hx
  · refine h.of_awaits rfl (fun _ _ h => by cases h) ?_ fun x hx => ?_
    · rintro x (⟨c, hc, rfl⟩ | hx)
      · exact .inl ⟨c, (TimestampDiscovery.mem_live.1 hc).1, rfl⟩
      · exact .inr hx
    · exact (hlive x hx).imp_left fun hl => .inl hl
  · refine h.of_awaits rfl (fun _ _ h => by cases h) ?_ fun x hx => ?_
    · rintro x (⟨c, hc, rfl⟩ | hx)
      · exact .inl ⟨c, (TimestampDiscovery.mem_live.1 (List.mem_of_mem_eraseIdx hc)).1, rfl⟩
      · obtain rfl := Option.some.inj hx
        exact .inl ⟨e, (TimestampDiscovery.mem_live.1 (List.mem_of_getElem? hi)).1, rfl⟩
    · -- A live slot other than the one taken out stays.
      rcases hlive x hx with ⟨c, hc, rfl⟩ | hx
      · obtain ⟨j, hj⟩ := List.mem_iff_getElem?.1 hc
        by_cases hij : j = i
        · subst hij
          obtain rfl : c = e := Option.some.inj (hj.symm.trans hi)
          exact .inl (.inr rfl)
        · exact .inl (.inl ⟨c, List.mem_eraseIdx_iff_getElem?.2 ⟨j, hij, hj⟩, rfl⟩)
      · exact .inr hx

theorem Covers.provideTimestamp (h : Covers tr s) {id : Hash} {ts : UInt64}
    (hp : s.provideTimestamp id ts = .ok s') : Covers (tr ++ [.provideTimestamp id]) s' := by
  obtain ⟨-, -, rfl⟩ := TimestampDiscovery.provideTimestamp_eq_ok.1 hp
  refine h.of_awaits rfl (fun _ _ h => by cases h) ?_ ?_
  · rintro x (⟨c, hc, rfl⟩ | hx)
    · obtain ⟨d, hd, rfl⟩ := List.mem_map.1 hc
      exact .inl ⟨d, hd, (TimestampDiscovery.keyed_id _ _ _).symm⟩
    · exact .inr hx
  · rintro x (⟨c, hc, rfl⟩ | hx)
    · exact .inl (.inl ⟨_, List.mem_map_of_mem hc, TimestampDiscovery.keyed_id _ _ _⟩)
    · exact .inl (.inr hx)

theorem Covers.emit (h : Covers tr s) (hsound : Sound g tr s) {id : Hash}
    {edges : List ParentEdge} (hsel : s.selected = some id) (hemit : s.emit edges = .ok s') :
    Covers (tr ++ [.emit id edges]) s' := by
  obtain ⟨id', hsel', -, -, rfl⟩ := TimestampDiscovery.emit_eq_ok.1 hemit
  obtain rfl : id' = id := Option.some.inj (hsel'.symm.trans hsel)
  have hc : completed (tr ++ [.emit id' edges]) = completed tr ++ [id'] := by
    rw [completed_snoc]
    rfl
  have hseeds : Mkit.seeds (tr ++ [.emit id' edges]) = Mkit.seeds tr := by
    rw [seeds_snoc]
    exact List.append_nil _
  have hkeep : ∀ x, s.Awaits x ∨ x ∈ completed tr →
      (s.registered id' edges).Awaits x ∨ x ∈ completed (tr ++ [.emit id' edges]) := by
    rw [hc]
    rintro x ((⟨c, hx, rfl⟩ | hx) | hx)
    · exact .inl (.inl ⟨c, List.mem_append_left _ hx, rfl⟩)
    · obtain rfl : id' = x := Option.some.inj (hsel.symm.trans hx)
      exact .inr (List.mem_append_right _ (List.mem_singleton.2 rfl))
    · exact .inr (List.mem_append_left _ hx)
  have hid : Discovered (tr ++ [.emit id' edges]) id' :=
    (h.discovered id' (.inl (.inr hsel))).snoc _
  refine ⟨?_, ?_, ?_⟩
  · rw [hc]
    rintro x ((⟨c, hx, rfl⟩ | hx) | hx)
    · rcases List.mem_append.1 hx with hx | hx
      · exact (h.discovered _ (.inl (.inl ⟨c, hx, rfl⟩))).snoc _
      · obtain ⟨e, hmem, henq, -, -, rfl⟩ := TimestampDiscovery.mem_accepted.1 hx
        obtain ⟨seed, hseed, hreach⟩ := hid
        exact ⟨seed, hseed, hreach.tail ⟨edges, List.mem_append_right _ (List.mem_singleton.2 rfl),
          e, hmem, rfl, henq⟩⟩
    · cases hx
    · rcases List.mem_append.1 hx with hx | hx
      · exact (h.discovered x (.inr hx)).snoc _
      · exact List.mem_singleton.1 hx ▸ hid
  · rw [hseeds]
    exact fun x hx => hkeep x (h.seeds x hx)
  · rintro x y ⟨edges', hmem, e, he, rfl, henq⟩
    rcases List.mem_append.1 hmem with hmem | hmem
    · exact hkeep _ (h.edges x _ ⟨edges', hmem, e, he, rfl, henq⟩)
    · obtain ⟨rfl, rfl⟩ := Call.emit.inj (List.mem_singleton.1 hmem)
      -- A marked parent is queued unless it is the node itself or recorded.
      rw [hc]
      by_cases hself : e.id = x
      · exact .inr (List.mem_append_right _ (List.mem_singleton.2 hself))
      · by_cases hrec : s.dedupAfter edges' = true ∧ e.id ∈ s.emitted
        · exact .inr (List.mem_append_left _ (hsound.recorded _ hrec.2))
        · exact .inl (.inl ⟨_, List.mem_append_right _ (TimestampDiscovery.mem_accepted.2
            ⟨e, he, henq, hself, hrec, rfl⟩), rfl⟩)

/-- Every run covers what it discovers. -/
theorem covers_of_run (h : Lts.Run (Driven g) TimestampDiscovery.new tr s) : Covers tr s := by
  have hboth : Sound g tr s ∧ Covers tr s := by
    refine Lts.Run.invariant (I := fun tr s => Sound g tr s ∧ Covers tr s) h
      ⟨sound_new g, covers_new⟩ fun tr s a s' ⟨hs, hc⟩ hd => ?_
    refine ⟨hs.driven hd, ?_⟩
    cases hd with
    | push _ _ hp => exact hc.push hp
    | step hstep => exact hc.step hs hstep
    | provideTimestamp hp => exact hc.provideTimestamp hp
    | emit hsel _ hemit => exact hc.emit hs hsel hemit
    | snapshot henc hdec =>
      obtain rfl := hs.snapshot_eq henc hdec
      exact hc.of_awaits rfl (fun _ _ h => by cases h) (fun _ hx => hx) (fun _ hx => .inl hx)
  exact hboth.2

/-- When nothing awaits, everything discovered has been completed. -/
theorem Covers.complete (h : Covers tr s) (hno : ∀ x, ¬ s.Awaits x) {x : Hash}
    (hx : Discovered tr x) : x ∈ completed tr := by
  obtain ⟨seed, hseed, hreach⟩ := hx
  induction hreach with
  | refl => exact (h.seeds seed hseed).resolve_left (hno _)
  | tail _ hedge _ => exact (h.edges _ _ hedge).resolve_left (hno _)

end Coverage

/-! ### The host loop -/

/-- One page, as a host drives it: at most `limit` ids, registering the parents of each. The
host lists the edges of a node as `edges` says. `none`: the fuel has run out. -/
def page (g : Graph) (edges : Hash → List ParentEdge) :
    ℕ → ℕ → TimestampDiscovery → Option (Except HistoryOrderError (List Hash × TimestampDiscovery))
  | 0, _, _ => none
  | fuel + 1, limit, walk =>
    if limit = 0 then some (.ok ([], walk))
    else
      match walk.step with
      | .error e => some (.error e)
      | .ok (.done, walk) => some (.ok ([], walk))
      | .ok (.needTimestamp candidate, walk) =>
        match walk.provideTimestamp candidate (g.timestamp candidate) with
        | .error e => some (.error e)
        | .ok walk => page g edges fuel limit walk
      | .ok (.emit candidate, walk) =>
        match walk.emit (edges candidate) with
        | .error e => some (.error e)
        | .ok walk =>
          match page g edges fuel (limit - 1) walk with
          | some (.ok (out, walk)) => some (.ok (candidate :: out, walk))
          | r => r

section Progress

variable {g : Graph} {tr : List Call} {s s' : TimestampDiscovery}

/-- The number of pending slots without a timestamp. -/
def unkeyed (s : TimestampDiscovery) : ℕ :=
  s.pending.countP fun e => e.timestamp.isNone

/-- What is left to do: the ids not handed out yet, each worth more than all missing
timestamps together. -/
def remaining (g : Graph) (tr : List Call) (s : TimestampDiscovery) : ℕ :=
  (g.nodes.card - (emissions tr).length) * (FRONTIER_MAX + 1) + unkeyed s

theorem Sound.unkeyed_le (h : Sound g tr s) : unkeyed s ≤ FRONTIER_MAX :=
  (List.countP_le_length).trans h.valid.pending_le

/-- No more ids are handed out than there are. -/
theorem Sound.emissions_le (h : Sound g tr s) : (emissions tr).length ≤ g.nodes.card := by
  rw [← List.toFinset_card_of_nodup h.nodup]
  refine Finset.card_le_card fun x hx => ?_
  rw [List.mem_toFinset, h.emissions_eq] at hx
  rcases List.mem_append.1 hx with hx | hx
  · exact h.completed_nodes x hx
  · exact h.nodes x (.inr (by simpa using hx))

/-- A predicate that implies another and misses one of its elements counts fewer. -/
theorem countP_lt_countP {α : Type} {p q : α → Bool} {l : List α} {a : α}
    (hpq : ∀ x ∈ l, p x = true → q x = true) (ha : a ∈ l) (hp : p a = false)
    (hq : q a = true) : l.countP p < l.countP q := by
  obtain ⟨l₁, l₂, rfl⟩ := List.append_of_mem ha
  have h₁ : l₁.countP p ≤ l₁.countP q :=
    List.countP_mono_left fun x hx => hpq x (List.mem_append_left _ hx)
  have h₂ : l₂.countP p ≤ l₂.countP q :=
    List.countP_mono_left fun x hx =>
      hpq x (List.mem_append_right _ (List.mem_cons_of_mem _ hx))
  rw [List.countP_append, List.countP_append, List.countP_cons_of_neg (by simp [hp]),
    List.countP_cons_of_pos hq]
  omega

/-- A requested timestamp is accepted, and one fewer is missing. -/
theorem Sound.provide (h : Sound g tr s) {id : Hash} (hs : s.step = .ok (.needTimestamp id, s')) :
    ∃ s'', s'.provideTimestamp id (g.timestamp id) = .ok s'' ∧ s''.selected = none ∧
      unkeyed s'' < unkeyed s := by
  obtain ⟨hsel, hcase⟩ := TimestampDiscovery.step_eq_ok hs
  rcases hcase with ⟨hr, -⟩ | ⟨e, he, hnone, hr, rfl⟩ | ⟨i, e, -, -, hr, -⟩
  · cases hr
  · obtain rfl := WalkStep.needTimestamp.inj hr
    have hkeys : ∀ c ∈ s.live, c.id = e.id → ∀ t ∈ c.timestamp, t = g.timestamp e.id := by
      intro c hc hid t ht
      rw [← hid]
      exact h.keys c (TimestampDiscovery.mem_live.1 hc).1 t ht
    refine ⟨_, TimestampDiscovery.provideTimestamp_eq_ok.2 ⟨⟨e, he, rfl⟩, hkeys, rfl⟩, hsel, ?_⟩
    have hsub : s.live.countP (fun e => e.timestamp.isNone) ≤ unkeyed s := by
      unfold TimestampDiscovery.live
      split
      · exact List.Sublist.countP_le List.filter_sublist
      · exact le_refl _
    refine lt_of_lt_of_le ?_ hsub
    -- Every slot that still misses its timestamp missed it before, and `e` no longer does.
    rw [unkeyed, List.countP_map]
    refine countP_lt_countP (fun c _ hc => ?_) he (by simp [TimestampDiscovery.keyed])
      (by simp [hnone])
    simp only [Function.comp_apply, TimestampDiscovery.keyed] at hc
    split at hc
    · cases hc
    · exact hc
  · cases hr

/-- The outcome of a page: a cap error, or a further stretch of the run that hands out the
listed ids and stops at the limit or at the end of the walk. -/
def PageOutcome (g : Graph) (s : TimestampDiscovery) (limit : ℕ) :
    Except HistoryOrderError (List Hash × TimestampDiscovery) → Prop
  | .error e => e = .frontierFull ∨ e = .emittedFull
  | .ok (out, s') => ∃ tr', Lts.Run (Driven g) s tr' s' ∧ emissions tr' = out ∧
      (out.length = limit ∨ s'.isComplete = true)

/-- **The host loop ends**, at the limit, at the end of the walk or at a cap. -/
theorem page_terminates {edges : Hash → List ParentEdge}
    (hedges : ∀ id ∈ g.nodes, g.Lists id (edges id))
    (hrun : Lts.Run (Driven g) TimestampDiscovery.new tr s) (hsel : s.selected = none)
    (limit : ℕ) : ∃ fuel r, page g edges fuel limit s = some r ∧ PageOutcome g s limit r := by
  -- Induction on what is left to do: a round hands out an id or fills in a timestamp.
  induction hm : remaining g tr s using Nat.strong_induction_on generalizing tr s limit with
  | _ m ih =>
  subst hm
  have hsound := sound_of_run hrun
  by_cases hlimit : limit = 0
  · refine ⟨1, .ok ([], s), by rw [page, if_pos hlimit], [], Lts.Run.nil s, rfl, .inl ?_⟩
    rw [hlimit]
    rfl
  obtain ⟨r, s', hs⟩ := TimestampDiscovery.exists_step hsel
  have hstep : Driven g s (.step r) s' := Driven.step hs
  have hrun' := hrun.snoc hstep
  have hpage : ∀ fuel, page g edges (fuel + 1) limit s = _ := fun fuel => by
    rw [page, if_neg hlimit, hs]
  cases r with
  | done =>
    refine ⟨1, .ok ([], s'), hpage 0, [.step .done], Lts.Run.single hstep, rfl, .inr ?_⟩
    obtain ⟨-, hcase⟩ := TimestampDiscovery.step_eq_ok hs
    rcases hcase with ⟨-, -, rfl⟩ | ⟨e, -, -, hr, -⟩ | ⟨i, e, -, -, hr, -⟩
    · simp [TimestampDiscovery.isComplete, hsel]
    · cases hr
    · cases hr
  | needTimestamp id =>
    obtain ⟨s'', hp, hsel'', hlt⟩ := hsound.provide hs
    have hprov : Driven g s' (.provideTimestamp id) s'' := Driven.provideTimestamp hp
    have hless : remaining g (tr ++ [.step (.needTimestamp id)] ++ [.provideTimestamp id]) s''
        < remaining g tr s := by
      have hem : emissions (tr ++ [.step (.needTimestamp id)] ++ [.provideTimestamp id]) =
          emissions tr := by
        rw [emissions_snoc, emissions_snoc]
        simp [emissions]
      rw [remaining, remaining, hem]
      omega
    obtain ⟨fuel, res, hres, hout⟩ := ih _ hless (hrun'.snoc hprov) hsel'' limit rfl
    refine ⟨fuel + 1, res, ?_, ?_⟩
    · rw [hpage]
      simp only [hp]
      exact hres
    · match res, hout with
      | .error e, hout => exact hout
      | .ok (out, s₃), ⟨tr', hrun₃, hem, hend⟩ =>
        refine ⟨[.step (.needTimestamp id)] ++ ([.provideTimestamp id] ++ tr'),
          (Lts.Run.single hstep).append ((Lts.Run.single hprov).append hrun₃), ?_, hend⟩
        rw [← hem]
        rfl
  | emit id =>
    have hsound' := sound_of_run hrun'
    have hsel' : s'.selected = some id := by
      obtain ⟨-, hcase⟩ := TimestampDiscovery.step_eq_ok hs
      rcases hcase with ⟨hr, -, -⟩ | ⟨e, -, -, hr, -⟩ | ⟨i, e, -, -, hr, rfl⟩
      · cases hr
      · cases hr
      · exact congrArg some (WalkStep.emit.inj hr).symm
    have hid : id ∈ g.nodes := hsound'.nodes id (.inr hsel')
    cases hemit : s'.emit (edges id) with
    | error e =>
      refine ⟨1, .error e, ?_, TimestampDiscovery.emit_eq_error hsel' hemit⟩
      rw [hpage]
      simp only [hemit]
    | ok s'' =>
      have hdriven : Driven g s' (.emit id (edges id)) s'' :=
        Driven.emit hsel' (hedges id hid) hemit
      have hrun'' := hrun'.snoc hdriven
      have hsel'' : s''.selected = none := by
        obtain ⟨_, -, -, -, rfl⟩ := TimestampDiscovery.emit_eq_ok.1 hemit
        rfl
      have hless : remaining g (tr ++ [.step (.emit id)] ++ [.emit id (edges id)]) s''
          < remaining g tr s := by
        have hem : (emissions (tr ++ [.step (.emit id)] ++ [.emit id (edges id)])).length =
            (emissions tr).length + 1 := by
          rw [emissions_snoc, emissions_snoc]
          simp [emissions]
        have hle := (sound_of_run hrun'').emissions_le
        have hk := (sound_of_run hrun'').unkeyed_le
        rw [hem] at hle
        obtain ⟨k, hk'⟩ := Nat.exists_eq_add_of_le hle
        rw [remaining, remaining, hem, hk',
          show (emissions tr).length + 1 + k - ((emissions tr).length + 1) = k by omega,
          show (emissions tr).length + 1 + k - (emissions tr).length = k + 1 by omega,
          Nat.succ_mul]
        omega
      obtain ⟨fuel, res, hres, hout⟩ := ih _ hless hrun'' hsel'' (limit - 1) rfl
      match res, hout, hres with
      | .error e, hout, hres =>
        refine ⟨fuel + 1, .error e, ?_, hout⟩
        rw [hpage]
        simp only [hemit, hres]
      | .ok (out, s₃), ⟨tr', hrun₃, hem, hend⟩, hres =>
        refine ⟨fuel + 1, .ok (id :: out, s₃), ?_,
          [.step (.emit id)] ++ ([.emit id (edges id)] ++ tr'),
          (Lts.Run.single hstep).append ((Lts.Run.single hdriven).append hrun₃), ?_, ?_⟩
        · rw [hpage]
          simp only [hemit, hres]
        · rw [← hem]
          rfl
        · refine hend.imp_left fun hlen => ?_
          rw [List.length_cons, hlen]
          omega

end Progress

/-! ### The walk is a correct enumeration -/

/-- The id has the greatest timestamp in the list, ties going to the earliest slot. -/
def FirstGreatest (g : Graph) (l : List PendingCandidate) (id : Hash) : Prop :=
  ∃ (i : ℕ) (e : PendingCandidate), l[i]? = some e ∧ e.id = id ∧
    ∀ (j : ℕ) (c : PendingCandidate), l[j]? = some c →
      g.timestamp c.id < g.timestamp id ∨ (g.timestamp c.id = g.timestamp id ∧ i ≤ j)

/-- A winner among slots with canonical timestamps is the first of the greatest. -/
theorem greatest_of_wins {g : Graph} {l : List PendingCandidate} {i : ℕ}
    {e : PendingCandidate} (hk : ∀ c ∈ l, g.Keys c.id c.timestamp) (hi : l[i]? = some e)
    (hw : TimestampDiscovery.Wins l i e) (j : ℕ) (c : PendingCandidate)
    (hj : l[j]? = some c) : g.timestamp c.id < g.timestamp e.id ∨
      (g.timestamp c.id = g.timestamp e.id ∧ i ≤ j) := by
  rcases hw with ⟨rfl, rfl⟩ | ⟨hkeyed, hmax⟩
  · have hj0 : j = 0 := by
      have := (List.getElem?_eq_some_iff.1 hj).1
      simpa using this
    subst hj0
    obtain rfl : e = c := Option.some.inj hj
    exact .inr ⟨rfl, le_refl _⟩
  · have hts : ∀ c ∈ l, c.timestamp = some (g.timestamp c.id) := by
      intro c hc
      obtain ⟨t, ht⟩ := Option.ne_none_iff_exists'.1 (hkeyed c hc)
      rw [ht, hk c hc t ht]
    have hc := hts c (List.mem_of_getElem? hj)
    have he := hts e (List.mem_of_getElem? hi)
    have hcase := hmax j c hj
    rw [hc, he] at hcase
    rcases hcase with hlt | ⟨heq, hij⟩
    · exact .inl (of_decide_eq_true hlt)
    · exact .inr ⟨Option.some.inj heq, hij⟩

/-- **The walk is a correct bounded enumeration.** For every graph and every run of the
host, whichever seeds it pushes before the first completed emission and whichever edges it
enqueues: no id is handed out twice; at `Done` exactly the discovered ids have been handed
out; an id handed out at any moment of the run has the greatest timestamp among the live
slots, ties going to the earliest; an id completed without being recorded never awaits again;
and from wherever no id is outstanding, the host loop ends at its limit, at the end of the
walk or at a cap. -/
theorem walk_enumerates (g : Graph) (tr : List Call) (s : TimestampDiscovery)
    (h : Lts.Run (Driven g) TimestampDiscovery.new tr s) : (emissions tr).Nodup ∧
    (∀ x ∈ emissions tr, Discovered tr x) ∧
    (∀ s', Driven g s (.step .done) s' → ∀ x, x ∈ emissions tr ↔ Discovered tr x) ∧
    (∀ id s', Driven g s (.step (.emit id)) s' → FirstGreatest g s.live id) ∧
    (∀ x ∈ completed tr, x ∉ s.emitted → ¬ s.Awaits x) ∧
    (∀ edges : Hash → List ParentEdge, (∀ id ∈ g.nodes, g.Lists id (edges id)) →
      s.selected = none → ∀ limit, ∃ fuel r,
        page g edges fuel limit s = some r ∧ PageOutcome g s limit r) := by
  have hsound := sound_of_run h
  have hcovers := covers_of_run h
  have hdisc : ∀ x ∈ emissions tr, Discovered tr x := by
    intro x hx
    rw [hsound.emissions_eq] at hx
    rcases List.mem_append.1 hx with hx | hx
    · exact hcovers.discovered x (.inr hx)
    · exact hcovers.discovered x (.inl (.inr (by simpa using hx)))
  refine ⟨hsound.nodup, hdisc, ?_, ?_, ?_, ?_⟩
  · intro s' hd x
    refine ⟨hdisc x, fun hx => ?_⟩
    cases hd with
    | step hs =>
      obtain ⟨hsel, hcase⟩ := TimestampDiscovery.step_eq_ok hs
      rcases hcase with ⟨-, hnil, -⟩ | ⟨e, -, -, hr, -⟩ | ⟨i, e, -, -, hr, -⟩
      · -- Nothing is live, so what still waits in the queue has been completed.
        have hcov := hcovers.step hsound hs
        have hno : ∀ y, ¬ s'.Awaits y := by
          obtain ⟨-, hcase⟩ := TimestampDiscovery.step_eq_ok hs
          rcases hcase with ⟨-, -, rfl⟩ | ⟨e, -, -, hr, -⟩ | ⟨i, e, -, -, hr, -⟩
          · rintro y (⟨c, hc, -⟩ | hy)
            · cases hc
            · exact absurd (hsel.symm.trans hy) (by simp)
          · cases hr
          · cases hr
        have hmem := hcov.complete hno (hx.snoc _)
        rw [completed_snoc] at hmem
        rw [hsound.emissions_eq]
        exact List.mem_append_left _ (by simpa [completed] using hmem)
      · cases hr
      · cases hr
  · intro id s' hd
    cases hd with
    | step hs =>
      obtain ⟨-, hcase⟩ := TimestampDiscovery.step_eq_ok hs
      rcases hcase with ⟨hr, -, -⟩ | ⟨e, -, -, hr, -⟩ | ⟨i, e, hi, hw, hr, -⟩
      · cases hr
      · cases hr
      · rw [WalkStep.emit.inj hr]
        exact ⟨i, e, hi, rfl, greatest_of_wins
          (fun c hc => hsound.keys c (TimestampDiscovery.mem_live.1 hc).1) hi hw⟩
  · exact fun x hx hne haw => hsound.unrecorded x hx hne x haw ReflTransGen.refl
  · exact fun edges hedges hsel limit => page_terminates hedges h hsel limit

/-- The id made of one byte. -/
def testId (b : UInt8) : Hash :=
  ByteArr.fill HASH_LEN b

/-- A commit and its parent. -/
def linearGraph : Graph where
  nodes := {testId 1, testId 2}
  timestamp := fun _ => 100
  parents := fun id => if id = testId 1 then [testId 2] else []
  closed := by decide
  acyclic := by
    have hedge : ∀ a b, b ∈ (if a = testId 1 then [testId 2] else []) →
        a = testId 1 ∧ b = testId 2 := by
      intro a b hb
      split at hb
      · rename_i ha
        exact ⟨ha, List.mem_singleton.1 hb⟩
      · cases hb
    intro a _ hcycle
    obtain ⟨b, hab, hba⟩ := TransGen.tail'_iff.1 hcycle
    obtain ⟨hb, ha⟩ := hedge _ _ hba
    cases hab.cases_head with
    | inl hab => exact absurd (ha.symm.trans (hab.trans hb)) (by decide)
    | inr hex =>
      obtain ⟨c, hac, -⟩ := hex
      exact absurd ((hedge _ _ hac).1.symm.trans ha) (by decide)

/-- The run over a commit and its parent, up to `Done`. -/
theorem walk_enumerates_linear :
    ∃ tr s s', Lts.Run (Driven linearGraph) TimestampDiscovery.new tr s ∧
      Driven linearGraph s (.step .done) s' ∧
      emissions tr = [testId 1, testId 2] ∧
      Discovered tr (testId 2) := by
  have hfirst : linearGraph.Lists (testId 1) [⟨testId 2, none, true⟩] := by
    refine ⟨rfl, fun e he t ht => ?_⟩
    obtain rfl := List.mem_singleton.1 he
    cases ht
  have hlast : linearGraph.Lists (testId 2) [] := ⟨by decide, fun e he => by cases he⟩
  have hrun : Lts.Run (Driven linearGraph) TimestampDiscovery.new _ _ :=
    (((((Lts.Run.nil _).snoc (Driven.push (c := ⟨testId 1, none⟩) (by decide)
      (by intro t ht; cases ht) rfl)).snoc (Driven.step rfl)).snoc
      (Driven.emit rfl hfirst rfl)).snoc (Driven.step rfl)).snoc (Driven.emit rfl hlast rfl)
  have h := walk_enumerates linearGraph _ _ hrun
  exact ⟨_, _, _, hrun, Driven.step rfl, rfl, h.2.1 _ (by decide)⟩

end Mkit
