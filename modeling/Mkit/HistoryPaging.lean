import Mkit.HistoryWalk

/-!
# Paging and Lookahead of the History Walk

What a walk emits is decided by less than its state: by the ids of its live slots in order,
the recorded ids and whether dedup is live. `Frontier` is that much of it, and
`Frontier.Next` and `Frontier.expand` are a walk in which every timestamp is known and
nothing is ever saved. Every run of the host follows this ideal walk (`Tracks`): filling in
timestamps, dropping dead slots and restoring snapshots do not move it.

## Main results

* `paging_and_lookahead_irrelevant` — runs over the same seeds and edges emit the same ids in
  the same order, however they are cut into pages and whichever timestamps they supply.
-/

namespace Mkit

/-! ### The ideal walk -/

/-- The part of a walk that decides what it emits: the live ids in order, the recorded ids,
and whether dedup is live. -/
structure Frontier where
  pending : List Hash
  emitted : Finset Hash
  dedup : Bool

namespace Frontier

/-- The next id: the first of the greatest timestamps; it is taken out. -/
def Next (g : Graph) (f : Frontier) (id : Hash) (f' : Frontier) : Prop :=
  ∃ i, f.pending[i]? = some id ∧
    (∀ (j : ℕ) (c : Hash), f.pending[j]? = some c →
      g.timestamp c < g.timestamp id ∨ (g.timestamp c = g.timestamp id ∧ i ≤ j)) ∧
    f' = { f with pending := f.pending.eraseIdx i }

/-- Whether dedup is live after a node with these parents. -/
def dedupAfter (f : Frontier) (parents : List (Hash × Bool)) : Bool :=
  f.dedup || parents.length > 1 || !f.pending.isEmpty

/-- The parents that are queued. -/
def accepted (f : Frontier) (id : Hash) (parents : List (Hash × Bool)) : List Hash :=
  ((parents.filter (·.2)).filter fun e =>
    e.1 ≠ id ∧ ¬ (f.dedupAfter parents ∧ e.1 ∈ f.emitted)).map (·.1)

/-- The ids not recorded as emitted. -/
def dropDead (dedup : Bool) (emitted : Finset Hash) (pending : List Hash) : List Hash :=
  if dedup then pending.filter fun x => x ∉ emitted else pending

/-- Register a node and queue its marked parents, within the caps. -/
def expand (f : Frontier) (id : Hash) (parents : List (Hash × Bool)) :
    Except HistoryOrderError Frontier :=
  if FRONTIER_MAX < f.pending.length + (f.accepted id parents).length then .error .frontierFull
  else if f.dedupAfter parents ∧ id ∉ f.emitted ∧ EMITTED_MAX ≤ f.emitted.card then
    .error .emittedFull
  else
    let emitted := if f.dedupAfter parents then insert id f.emitted else f.emitted
    .ok
      { pending := dropDead (f.dedupAfter parents) emitted (f.pending ++ f.accepted id parents)
        emitted
        dedup := f.dedupAfter parents }

/-- The next id is determined. -/
theorem Next.unique {g : Graph} {f f₁ f₂ : Frontier} {x y : Hash} (h₁ : f.Next g x f₁)
    (h₂ : f.Next g y f₂) : x = y ∧ f₁ = f₂ := by
  obtain ⟨i, hi, himax, rfl⟩ := h₁
  obtain ⟨j, hj, hjmax, rfl⟩ := h₂
  have hij : i = j := by
    have h₁ := himax j y hj
    have h₂ := hjmax i x hi
    simp only [UInt64.lt_iff_toNat_lt, ← UInt64.toNat_inj] at h₁ h₂
    omega
  subst hij
  exact ⟨Option.some.inj (hi.symm.trans hj), rfl⟩

end Frontier

section Ideal

variable (g : Graph) (links : Hash → List (Hash × Bool))

/-- The ideal walk has emitted and registered these ids, in order, and stands at this
frontier. -/
inductive Reaches (f₀ : Frontier) : List Hash → Frontier → Prop
  | nil : Reaches f₀ [] f₀
  | snoc {out : List Hash} {f f' f'' : Frontier} {id : Hash} (h : Reaches f₀ out f)
      (hnext : f.Next g id f') (hexp : f'.expand id (links id) = .ok f'') :
      Reaches f₀ (out ++ [id]) f''

/-- The ideal walk emits these ids, in order; the last one need not be registered. -/
def Emits (f₀ : Frontier) (out : List Hash) : Prop :=
  out = [] ∨ ∃ o id f f', out = o ++ [id] ∧ Reaches g links f₀ o f ∧ f.Next g id f'

variable {g links} {f₀ : Frontier}

theorem Reaches.emits {out : List Hash} {f : Frontier} (h : Reaches g links f₀ out f) :
    Emits g links f₀ out := by
  cases h with
  | nil => exact .inl rfl
  | snoc h hnext _ => exact .inr ⟨_, _, _, _, rfl, h, hnext⟩

/-- The ideal walk is deterministic. -/
theorem Reaches.unique {out out' : List Hash} {f f' : Frontier} (h : Reaches g links f₀ out f)
    (h' : Reaches g links f₀ out' f') (hlen : out.length = out'.length) : out = out' ∧ f = f' := by
  induction h generalizing out' f' with
  | nil =>
    cases h' with
    | nil => exact ⟨rfl, rfl⟩
    | snoc => simp at hlen
  | snoc _ hnext hexp ih =>
    cases h' with
    | nil => simp at hlen
    | snoc h' hnext' hexp' =>
      obtain ⟨rfl, rfl⟩ := ih h' (by simpa using hlen)
      obtain ⟨rfl, rfl⟩ := hnext.unique hnext'
      exact ⟨rfl, Except.ok.inj (hexp.symm.trans hexp')⟩

/-- What the ideal walk emits is determined by how much it emits. -/
theorem Emits.unique {out out' : List Hash} (h : Emits g links f₀ out)
    (h' : Emits g links f₀ out') (hlen : out.length = out'.length) : out = out' := by
  rcases h with rfl | ⟨o, id, f, f₁, rfl, hr, hn⟩
  · exact (List.length_eq_zero_iff.1 hlen.symm).symm
  · rcases h' with rfl | ⟨o', id', f', f₁', rfl, hr', hn'⟩
    · simp at hlen
    · obtain ⟨rfl, rfl⟩ := hr.unique hr' (by simpa using hlen)
      obtain ⟨rfl, -⟩ := hn.unique hn'
      rfl

/-- Whatever the ideal walk emits, it emits every beginning of it. -/
theorem Emits.take {out : List Hash} (h : Emits g links f₀ out) (n : ℕ) :
    Emits g links f₀ (out.take n) := by
  have hreach : ∀ {o f}, Reaches g links f₀ o f → Emits g links f₀ (o.take n) := by
    intro o f hr
    induction hr with
    | nil => exact .inl List.take_nil
    | @snoc o _ _ _ _ hr hnext hexp ih =>
      by_cases hn : n ≤ o.length
      · rwa [List.take_append_of_le_length hn]
      · rw [List.take_of_length_le (by simp; omega)]
        exact (hr.snoc hnext hexp).emits
  rcases h with rfl | ⟨o, id, f, f', rfl, hr, hnext⟩
  · exact .inl List.take_nil
  · by_cases hn : n ≤ o.length
    · rw [List.take_append_of_le_length hn]
      exact hreach hr
    · rw [List.take_of_length_le (by simp; omega)]
      exact .inr ⟨o, id, f, f', rfl, hr, hnext⟩

/-- Of two emitted sequences, the shorter begins the longer. -/
theorem Emits.prefix_of_length_le {out out' : List Hash} (h : Emits g links f₀ out)
    (h' : Emits g links f₀ out') (hlen : out.length ≤ out'.length) : out <+: out' := by
  have htake := h.unique (h'.take out.length) (by rw [List.length_take]; omega)
  rw [htake]
  exact List.take_prefix _ _

/-- Nothing is emitted beyond a sequence after which the walk is at an end. -/
theorem Emits.prefix_of_ended {out out' : List Hash} (h : Emits g links f₀ out)
    (hend : ∀ o f id f', Reaches g links f₀ o f → o.length = out.length → ¬ f.Next g id f')
    (h' : Emits g links f₀ out') : out' <+: out := by
  refine h'.prefix_of_length_le h (not_lt.1 fun hlt => ?_)
  -- A longer sequence would step on from the end.
  have hlong := h'.take (out.length + 1)
  rcases hlong with hnil | ⟨o, id, f, f', heq, hr, hnext⟩
  · have := congrArg List.length hnil
    rw [List.length_take, List.length_nil] at this
    omega
  · have hlen := congrArg List.length heq
    rw [List.length_take, List.length_append, List.length_singleton] at hlen
    exact hend o f id f' hr (by omega) hnext

end Ideal

/-! ### Runs follow the ideal walk -/

namespace TimestampDiscovery

/-- What decides the emissions of a walk. -/
def view (s : TimestampDiscovery) : Frontier :=
  ⟨s.live.map (·.id), s.emitted, s.dedup_active⟩

/-- No slot is dead. -/
def AllLive (s : TimestampDiscovery) : Prop :=
  ∀ c ∈ s.pending, s.dedup_active = true → c.id ∉ s.emitted

variable {s : TimestampDiscovery}

theorem AllLive.live_eq (h : s.AllLive) : s.live = s.pending := by
  unfold live
  split
  · rename_i hd
    exact List.filter_eq_self.2 fun c hc => decide_eq_true (h c hc hd)
  · rfl

theorem live_ids (s : TimestampDiscovery) :
    s.live.map (·.id) = Frontier.dropDead s.dedup_active s.emitted (s.pending.map (·.id)) := by
  unfold live Frontier.dropDead
  split
  · rw [List.filter_map]
    rfl
  · rfl

/-- The view depends on the ids of the slots only. -/
theorem view_of_ids {pending : List PendingCandidate}
    (h : pending.map (·.id) = s.pending.map (·.id)) :
    ({ s with pending := pending } : TimestampDiscovery).view = s.view := by
  rw [view, view, live_ids, live_ids]
  dsimp only
  rw [h]

/-- Dropping the dead slots does not change the view. -/
theorem allLive_live (s : TimestampDiscovery) :
    ({ s with pending := s.live } : TimestampDiscovery).AllLive :=
  fun _ hc hd => (mem_live.1 hc).2 hd

theorem view_live (s : TimestampDiscovery) :
    ({ s with pending := s.live } : TimestampDiscovery).view = s.view := by
  rw [view, (allLive_live s).live_eq]
  rfl

/-- The edges without their timestamps. -/
def linksOf (edges : List ParentEdge) : List (Hash × Bool) :=
  edges.map fun e => (e.id, e.enqueue)

theorem dedupAfter_view (h : s.AllLive) (edges : List ParentEdge) :
    s.view.dedupAfter (linksOf edges) = s.dedupAfter edges := by
  simp [Frontier.dedupAfter, dedupAfter, view, linksOf, h.live_eq]

theorem accepted_view (h : s.AllLive) (id : Hash) (edges : List ParentEdge) :
    s.view.accepted id (linksOf edges) = (s.accepted id edges).map (·.id) := by
  rw [Frontier.accepted, accepted, dedupAfter_view h, linksOf, List.filter_map, List.filter_map,
    List.map_map, List.map_map]
  rfl

/-- Registering an id is expanding the view. -/
theorem emit_view {id : Hash} (hsel : s.selected = some id)
    (h : s.AllLive) (edges : List ParentEdge) :
    (s.emit edges).map view = s.view.expand id (linksOf edges) := by
  unfold emit Frontier.expand
  rw [hsel, accepted_view h, dedupAfter_view h]
  have hlen : s.view.pending.length = s.pending.length := by
    rw [view, h.live_eq, List.length_map]
  rw [hlen, List.length_map]
  simp only
  by_cases h₁ : FRONTIER_MAX < s.pending.length + (s.accepted id edges).length
  · rw [if_pos h₁, if_pos h₁]
    rfl
  · rw [if_neg h₁, if_neg h₁]
    by_cases h₂ : s.dedupAfter edges = true ∧ id ∉ s.emitted ∧ EMITTED_MAX ≤ s.emitted.card
    · rw [if_pos h₂]
      exact (if_pos h₂).symm
    · rw [if_neg h₂]
      refine Eq.trans ?_ (if_neg h₂).symm
      refine congrArg Except.ok ?_
      rw [view, live_ids]
      simp only [view, h.live_eq, List.map_append]

end TimestampDiscovery

/-- The host's choice of enqueued edges in a run. -/
def Follows (enq : Hash → List Bool) (tr : List Call) : Prop :=
  ∀ id edges, Call.emit id edges ∈ tr → edges.map (·.enqueue) = enq id

/-- The parents of a node with the host's choice. -/
def linksBy (g : Graph) (enq : Hash → List Bool) (id : Hash) : List (Hash × Bool) :=
  (g.parents id).zip (enq id)

/-- Edges listed for a node under a choice carry exactly its links. -/
theorem linksOf_eq {g : Graph} {enq : Hash → List Bool} {id : Hash} {edges : List ParentEdge}
    (he : g.Lists id edges) (henq : edges.map (·.enqueue) = enq id) :
    TimestampDiscovery.linksOf edges = linksBy g enq id := by
  rw [linksBy, ← he.1, ← henq, List.zip_map, List.zip_eq_zipWith, TimestampDiscovery.linksOf]
  simp [List.zipWith_self]

section Tracking

variable {g : Graph} {enq : Hash → List Bool} {f₀ : Frontier}

/-- A walk that has emitted `out` stands where the ideal walk does: registered up to the last
id, or with that id outstanding. -/
def Tracks (g : Graph) (enq : Hash → List Bool) (f₀ : Frontier) (out : List Hash)
    (s : TimestampDiscovery) : Prop :=
  (s.selected = none → Reaches g (linksBy g enq) f₀ out s.view) ∧
    ∀ id, s.selected = some id → s.AllLive ∧
      ∃ o f, out = o ++ [id] ∧ Reaches g (linksBy g enq) f₀ o f ∧ f.Next g id s.view

variable {s s' : TimestampDiscovery}

theorem Tracks.step {out : List Hash} {r : WalkStep}
    (h : Tracks g enq f₀ out s) (hk : ∀ c ∈ s.pending, g.Keys c.id c.timestamp)
    (hs : s.step = .ok (r, s')) : Tracks g enq f₀ (out ++ emissions [.step r]) s' := by
  obtain ⟨hsel, hcase⟩ := TimestampDiscovery.step_eq_ok hs
  have hreach := h.1 hsel
  rcases hcase with ⟨rfl, hnil, rfl⟩ | ⟨e, -, -, rfl, rfl⟩ | ⟨i, e, hi, hw, rfl, rfl⟩
  · refine ⟨fun _ => ?_, fun id hid => absurd (hsel.symm.trans hid) (by simp)⟩
    have hv := s.view_live
    rw [hnil] at hv
    rw [hv]
    exact (List.append_nil out).symm ▸ hreach
  · refine ⟨fun _ => ?_, fun id hid => absurd (hsel.symm.trans hid) (by simp)⟩
    rw [TimestampDiscovery.view_live]
    exact (List.append_nil out).symm ▸ hreach
  · refine ⟨fun hno => absurd hno (by simp), fun id hid => ?_⟩
    obtain rfl := Option.some.inj hid
    have hall : ({ s with pending := s.live.eraseIdx i, selected := some e.id } :
        TimestampDiscovery).AllLive := fun c hc hd =>
      (TimestampDiscovery.mem_live.1 (List.mem_of_mem_eraseIdx hc)).2 hd
    refine ⟨hall, out, s.view, rfl, hreach, i, ?_, ?_, ?_⟩
    · rw [TimestampDiscovery.view, List.getElem?_map, hi]
      rfl
    · intro j x hj
      rw [TimestampDiscovery.view, List.getElem?_map, Option.map_eq_some_iff] at hj
      obtain ⟨c, hc, rfl⟩ := hj
      exact greatest_of_wins (fun c hc => hk c (TimestampDiscovery.mem_live.1 hc).1) hi hw j c hc
    · rw [TimestampDiscovery.view, hall.live_eq, TimestampDiscovery.view]
      dsimp only
      rw [List.eraseIdx_map]

theorem Tracks.provideTimestamp {out : List Hash} {id : Hash}
    {ts : UInt64} (h : Tracks g enq f₀ out s) (hp : s.provideTimestamp id ts = .ok s') :
    Tracks g enq f₀ out s' := by
  obtain ⟨-, -, rfl⟩ := TimestampDiscovery.provideTimestamp_eq_ok.1 hp
  have hids : (s.pending.map (TimestampDiscovery.keyed id ts)).map (·.id) =
      s.pending.map (·.id) := by
    rw [List.map_map]
    exact List.map_congr_left fun c _ => TimestampDiscovery.keyed_id id ts c
  rw [Tracks, TimestampDiscovery.view_of_ids hids]
  refine ⟨h.1, fun x hx => ?_⟩
  obtain ⟨hall, hrest⟩ := h.2 x hx
  refine ⟨fun c hc hd => ?_, hrest⟩
  obtain ⟨d, hdm, rfl⟩ := List.mem_map.1 hc
  rw [TimestampDiscovery.keyed_id]
  exact hall d hdm hd

theorem Tracks.emit {out : List Hash} {id : Hash}
    {edges : List ParentEdge} (h : Tracks g enq f₀ out s) (hsel : s.selected = some id)
    (he : g.Lists id edges) (henq : edges.map (·.enqueue) = enq id)
    (hemit : s.emit edges = .ok s') : Tracks g enq f₀ out s' := by
  obtain ⟨hall, o, f, rfl, hreach, hnext⟩ := h.2 id hsel
  have hview := TimestampDiscovery.emit_view hsel hall edges
  rw [hemit, linksOf_eq he henq] at hview
  have hnone : s'.selected = none := by
    obtain ⟨_, -, -, -, rfl⟩ := TimestampDiscovery.emit_eq_ok.1 hemit
    rfl
  exact ⟨fun _ => hreach.snoc hnext hview.symm, fun x hx => absurd (hnone.symm.trans hx) (by simp)⟩

/-- The walk after its seeds. -/
theorem run_push {cs : List PendingCandidate}
    (h : Lts.Run (Driven g) TimestampDiscovery.new (cs.map .push) s) :
    s = { TimestampDiscovery.new with pending := cs } := by
  induction cs using List.reverseRecOn generalizing s with
  | nil => exact h.eq_of_nil
  | append_singleton cs c ih =>
    rw [List.map_append] at h
    obtain ⟨s', h₁, ha⟩ := h.snoc_inv
    rw [ih h₁] at ha
    cases ha with
    | push _ _ hp =>
      obtain ⟨-, -, -, rfl⟩ := TimestampDiscovery.push_eq_ok.1 hp
      rfl

end Tracking

/-- A run that pushes the seeds first, each with or without its timestamp, and then enqueues
edges as `enq` says. -/
def SeededRun (g : Graph) (enq : Hash → List Bool) (seeds : List Hash) (tr : List Call)
    (s : TimestampDiscovery) : Prop :=
  ∃ cs : List PendingCandidate, cs.map (·.id) = seeds ∧
    Lts.Run (Driven g) TimestampDiscovery.new (cs.map .push ++ tr) s ∧
    (∀ c, Call.push c ∉ tr) ∧ Follows enq tr

/-- The walk is at an end: `Done`, or the outstanding id cannot be registered. -/
def Ended (g : Graph) (enq : Hash → List Bool) (s : TimestampDiscovery) : Prop :=
  (∃ s', s.step = .ok (.done, s')) ∨
    ∃ id edges e, s.selected = some id ∧ g.Lists id edges ∧ edges.map (·.enqueue) = enq id ∧
      s.emit edges = .error e

section Theorems

variable {g : Graph} {enq : Hash → List Bool} {seeds : List Hash} {tr : List Call}
  {s : TimestampDiscovery}

/-- Every run follows the ideal walk from its seeds. -/
theorem SeededRun.tracks (h : SeededRun g enq seeds tr s) :
    (∃ tr₀, Sound g tr₀ s) ∧ Tracks g enq ⟨seeds, ∅, false⟩ (emissions tr) s := by
  obtain ⟨cs, rfl, hrun, hpush, henq⟩ := h
  obtain ⟨s₀, hrun₀, hrun⟩ := hrun.split
  have hstart := sound_of_run hrun₀
  obtain rfl := run_push hrun₀
  have hinv : (∃ tr₀, Sound g tr₀ s) ∧ ((∀ c, Call.push c ∉ tr) → Follows enq tr →
      Tracks g enq ⟨cs.map (·.id), ∅, false⟩ (emissions tr) s) := by
    refine Lts.Run.invariant (I := fun tr s => (∃ tr₀, Sound g tr₀ s) ∧
      ((∀ c, Call.push c ∉ tr) → Follows enq tr →
        Tracks g enq ⟨cs.map (·.id), ∅, false⟩ (emissions tr) s)) hrun ⟨⟨_, hstart⟩, ?_⟩ ?_
    · intro _ _
      exact ⟨fun _ => Reaches.nil, fun id hid => by cases hid⟩
    · rintro tr s a s' ⟨⟨tr₀, hs⟩, ht⟩ hd
      refine ⟨⟨_, hs.driven hd⟩, fun hpush henq => ?_⟩
      have ht := ht (fun c hc => hpush c (List.mem_append_left _ hc))
        (fun id edges hmem => henq id edges (List.mem_append_left _ hmem))
      rw [emissions_snoc]
      cases hd with
      | push => exact absurd (List.mem_append_right _ (List.mem_singleton.2 rfl)) (hpush _)
      | step hstep => exact ht.step hs.keys hstep
      | provideTimestamp hp => exact (List.append_nil (emissions tr)).symm ▸ ht.provideTimestamp hp
      | emit hsel he hemit =>
        have hfollow := henq _ _ (List.mem_append_right _ (List.mem_singleton.2 rfl))
        exact (List.append_nil (emissions tr)).symm ▸ ht.emit hsel he hfollow hemit
      | snapshot henc hdec =>
        obtain rfl := hs.snapshot_eq henc hdec
        exact (List.append_nil (emissions tr)).symm ▸ ht
  exact ⟨hinv.1, hinv.2 hpush henq⟩

variable {f₀ : Frontier}

theorem Tracks.emits {out : List Hash} (h : Tracks g enq f₀ out s) :
    Emits g (linksBy g enq) f₀ out := by
  cases hsel : s.selected with
  | none => exact (h.1 hsel).emits
  | some id =>
    obtain ⟨-, o, f, rfl, hr, hnext⟩ := h.2 id hsel
    exact .inr ⟨o, id, f, _, rfl, hr, hnext⟩

/-- Once a walk is at an end, the ideal walk goes no further. -/
theorem Tracks.no_next_of_ended {out : List Hash}
    (h : Tracks g enq f₀ out s) (hend : Ended g enq s) {o : List Hash} {f f' : Frontier}
    {id : Hash} (hr : Reaches g (linksBy g enq) f₀ o f) (hlen : o.length = out.length) :
    ¬ f.Next g id f' := by
  rcases hend with ⟨s', hs⟩ | ⟨x, edges, e, hsel, he, henq, hemit⟩
  · -- `Done`: the frontier is empty.
    obtain ⟨hsel, hcase⟩ := TimestampDiscovery.step_eq_ok hs
    rcases hcase with ⟨-, hnil, -⟩ | ⟨e, -, -, hr', -⟩ | ⟨i, e, -, -, hr', -⟩
    · obtain ⟨-, rfl⟩ := hr.unique (h.1 hsel) hlen
      rintro ⟨i, hi, -⟩
      rw [TimestampDiscovery.view, hnil] at hi
      simp at hi
    · cases hr'
    · cases hr'
  · -- A cap: the last id is handed out and can never be registered.
    obtain ⟨hall, o', f₁, rfl, hr₁, hnext₁⟩ := h.2 x hsel
    have hview := TimestampDiscovery.emit_view hsel hall edges
    rw [hemit, linksOf_eq he henq] at hview
    cases hr with
    | nil => simp at hlen
    | snoc hr hnext hexp =>
      obtain ⟨rfl, rfl⟩ := hr.unique hr₁ (by simpa using hlen)
      obtain ⟨rfl, rfl⟩ := hnext.unique hnext₁
      rw [hexp] at hview
      cases hview

end Theorems

/-- **Paging and lookahead do not change the walk.** Take two runs over the same graph with
the same seeds and the same enqueued edges. They may differ in which seeds and parents carry
their timestamps, in when timestamps are provided, and in where the walk is saved and
restored, even with an id outstanding. Then one emits a beginning of what the other emits; a
run that is at an end has emitted all the other ever emits; two runs at an end have emitted
the same sequence; and every state reached is saved and restored exactly. -/
theorem paging_and_lookahead_irrelevant (g : Graph) (enq : Hash → List Bool)
    (seeds : List Hash) (tr₁ tr₂ : List Call) (s₁ s₂ : TimestampDiscovery)
    (h₁ : SeededRun g enq seeds tr₁ s₁) (h₂ : SeededRun g enq seeds tr₂ s₂) :
    (emissions tr₁ <+: emissions tr₂ ∨ emissions tr₂ <+: emissions tr₁) ∧
    (Ended g enq s₁ → emissions tr₂ <+: emissions tr₁) ∧
    (Ended g enq s₁ → Ended g enq s₂ → emissions tr₁ = emissions tr₂) ∧
    (∃ b, s₁.encode = some b ∧ TimestampDiscovery.decode b = .ok s₁) := by
  obtain ⟨⟨tr₀, hsound⟩, ht₁⟩ := h₁.tracks
  obtain ⟨-, ht₂⟩ := h₂.tracks
  have he₁ := ht₁.emits
  have he₂ := ht₂.emits
  have hend₁ : Ended g enq s₁ → emissions tr₂ <+: emissions tr₁ := fun hend =>
    he₁.prefix_of_ended (fun o f id f' hr hlen => ht₁.no_next_of_ended hend hr hlen) he₂
  have hend₂ : Ended g enq s₂ → emissions tr₁ <+: emissions tr₂ := fun hend =>
    he₂.prefix_of_ended (fun o f id f' hr hlen => ht₂.no_next_of_ended hend hr hlen) he₁
  refine ⟨?_, hend₁, fun e₁ e₂ => ?_, ?_⟩
  · rcases le_total (emissions tr₁).length (emissions tr₂).length with hle | hle
    · exact .inl (he₁.prefix_of_length_le he₂ hle)
    · exact .inr (he₂.prefix_of_length_le he₁ hle)
  · exact (hend₂ e₂).eq_of_length_le (hend₁ e₁).length_le
  · have henc := hsound.valid.encode_eq
    exact ⟨_, henc, TimestampDiscovery.decode_eq_ok_iff.2 ⟨hsound.valid, henc⟩⟩

/-- Over a commit and its parent: one run without any timestamp, one with all of them that is
saved and restored with an id outstanding and again between pages. -/
theorem paging_and_lookahead_irrelevant_linear :
    ∃ tr₁ tr₂ s₁ s₂, SeededRun linearGraph (fun id => if id = testId 1 then [true] else [])
        [testId 1] tr₁ s₁ ∧
      SeededRun linearGraph (fun id => if id = testId 1 then [true] else [])
        [testId 1] tr₂ s₂ ∧
      tr₁.length ≠ tr₂.length ∧ emissions tr₁ = emissions tr₂ := by
  have hnone : ∀ id, linearGraph.Keys id none := fun _ _ ht => by cases ht
  have hsome : ∀ id, linearGraph.Keys id (some 100) := fun _ t ht => (Option.some.inj ht).symm
  have hlists : ∀ ts, linearGraph.Keys (testId 2) ts →
      linearGraph.Lists (testId 1) [⟨testId 2, ts, true⟩] := by
    refine fun ts hts => ⟨rfl, fun e he => ?_⟩
    obtain rfl := List.mem_singleton.1 he
    exact hts
  have hlast : linearGraph.Lists (testId 2) [] := ⟨by decide, fun e he => by cases he⟩
  have hfollows : ∀ (id : Hash) (edges : List ParentEdge),
      (id = testId 1 ∧ edges.map (·.enqueue) = [true]) ∨ (id = testId 2 ∧ edges = []) →
      edges.map (·.enqueue) = (if id = testId 1 then [true] else []) := by
    rintro id edges (⟨rfl, h⟩ | ⟨rfl, rfl⟩)
    · rw [if_pos rfl, h]
    · decide
  have h₁ : SeededRun linearGraph (fun id => if id = testId 1 then [true] else []) [testId 1]
      [.step (.emit (testId 1)), .emit (testId 1) [⟨testId 2, none, true⟩],
        .step (.emit (testId 2)), .emit (testId 2) []]
      ⟨[], ∅, false, true, none⟩ := by
    refine ⟨[⟨testId 1, none⟩], rfl, ?_, by simp, ?_⟩
    · exact (((((Lts.Run.nil _).snoc (Driven.push (by decide) (hnone _) rfl)).snoc
        (Driven.step rfl)).snoc (Driven.emit rfl (hlists none (hnone _)) rfl)).snoc
        (Driven.step rfl)).snoc (Driven.emit rfl hlast rfl)
    · intro id edges hmem
      refine hfollows id edges ?_
      simp at hmem
      rcases hmem with ⟨rfl, rfl⟩ | ⟨rfl, rfl⟩
      · exact .inl ⟨rfl, rfl⟩
      · exact .inr ⟨rfl, rfl⟩
  obtain ⟨b, hb⟩ : ∃ b, TimestampDiscovery.encode ⟨[], ∅, false, false, some (testId 1)⟩ =
      some b := ⟨_, rfl⟩
  obtain ⟨c, hc⟩ : ∃ c, TimestampDiscovery.encode
      ⟨[⟨testId 2, some 100⟩], ∅, false, true, none⟩ = some c := ⟨_, rfl⟩
  have h₂ : SeededRun linearGraph (fun id => if id = testId 1 then [true] else []) [testId 1]
      [.step (.emit (testId 1)), .snapshot b, .emit (testId 1) [⟨testId 2, some 100, true⟩],
        .snapshot c, .step (.emit (testId 2)), .emit (testId 2) []]
      ⟨[], ∅, false, true, none⟩ := by
    refine ⟨[⟨testId 1, some 100⟩], rfl, ?_, by simp, ?_⟩
    · exact (((((((Lts.Run.nil _).snoc (Driven.push (by decide) (hsome _) rfl)).snoc
        (Driven.step rfl)).snoc (Driven.snapshot hb (TimestampDiscovery.decode_eq_ok_iff.2
          ⟨⟨by decide, by decide, by decide⟩, hb⟩))).snoc
        (Driven.emit rfl (hlists _ (hsome _)) rfl)).snoc
        (Driven.snapshot hc (TimestampDiscovery.decode_eq_ok_iff.2
          ⟨⟨by decide, by decide, by decide⟩, hc⟩))).snoc
        (Driven.step rfl)).snoc (Driven.emit rfl hlast rfl)
    · intro id edges hmem
      refine hfollows id edges ?_
      simp at hmem
      rcases hmem with ⟨rfl, rfl⟩ | ⟨rfl, rfl⟩
      · exact .inl ⟨rfl, rfl⟩
      · exact .inr ⟨rfl, rfl⟩
  refine ⟨_, _, _, _, h₁, h₂, by simp, ?_⟩
  exact (paging_and_lookahead_irrelevant linearGraph _ _ _ _ _ _ h₁ h₂).2.2.1
    (.inl ⟨_, rfl⟩) (.inl ⟨_, rfl⟩)

end Mkit
