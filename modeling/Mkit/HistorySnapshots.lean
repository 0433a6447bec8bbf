import Mkit.HistoryOrder
import Mkit.Lib.Effect

/-!
# Snapshots of a History Walk

The methods of `TimestampDiscovery` take `&mut self` (`history_order.rs`). They are modelled
here in the order in which they write, and shown to be the pure operations of
`Mkit.HistoryOrder` carried out in place: a refused call has written nothing. So every state
between two calls is one that `decode` accepts, whatever was called before and whether or not
it was refused.

## Main results

* `implements_perform` — a call is its pure operation, and a refusal leaves no trace;
* `snapshots_exact` — snapshots of reachable walks round trip, and snapshots are canonical.
-/

namespace Mkit

open Effect TimestampDiscovery

namespace InPlace

/-- Append a frontier candidate. -/
def push (candidate : PendingCandidate) :
    ExceptT HistoryOrderError (StateM TimestampDiscovery) PUnit := do
  let s ← get
  if s.sealed then throw .walkStarted
  else if s.selected = some candidate.id then throw .selectedCandidate
  else if FRONTIER_MAX ≤ s.pending.length then throw .frontierFull
  else set { s with pending := s.pending ++ [candidate] }

/-- Remove a slot and note its id as outstanding. -/
def select (idx : ℕ) (e : PendingCandidate) :
    ExceptT HistoryOrderError (StateM TimestampDiscovery) WalkStep := do
  let s ← get
  set { s with pending := s.pending.eraseIdx idx }
  let s ← get
  set { s with selected := some e.id }
  return .emit e.id

/-- The part of `step` behind the cleanup of dead slots. -/
def selectNext : ExceptT HistoryOrderError (StateM TimestampDiscovery) WalkStep := do
  let s ← get
  match s.pending with
  | [] => return .done
  | [e] => select 0 e
  | _ =>
    match s.pending.find? fun e => e.timestamp.isNone with
    | some e => return .needTimestamp e.id
    | none =>
      match minByKey s.pending.zipIdx with
      | some (e, idx) => select idx e
      | none => return .done

/-- Select the next step. Dead slots are dropped behind the only refusal. -/
def step : ExceptT HistoryOrderError (StateM TimestampDiscovery) WalkStep := do
  let s ← get
  if s.selected.isSome then throw .candidateOutstanding
  else if s.dedup_active then do
    set { s with pending := s.pending.filter fun e => e.id ∉ s.emitted }
    selectNext
  else selectNext

/-- The scan of `provide_timestamp`: whether the id is pending, unless one of its slots holds
another timestamp. -/
def findSlots (id : Hash) (timestamp : UInt64) :
    Bool → List PendingCandidate → Except HistoryOrderError Bool
  | any, [] => .ok any
  | any, e :: es =>
    if e.id ≠ id then findSlots id timestamp any es
    else
      match e.timestamp with
      | none => findSlots id timestamp true es
      | some recorded =>
        if recorded ≠ timestamp then .error (.conflictingTimestamp id recorded timestamp)
        else findSlots id timestamp true es

/-- Report the timestamp of a pending candidate. -/
def provideTimestamp (id : Hash) (timestamp : UInt64) :
    ExceptT HistoryOrderError (StateM TimestampDiscovery) PUnit := do
  let s ← get
  let any ← liftM (findSlots id timestamp false s.pending)
  if !any then throw (.notPending id)
  else
    let fill (e : PendingCandidate) :=
      if e.id = id then { e with timestamp := some timestamp } else e
    set { s with pending := s.pending.map fill }

/-- Register the outstanding id. Both caps are checked before the first of the five writes. -/
def emit (parents : List ParentEdge) :
    ExceptT HistoryOrderError (StateM TimestampDiscovery) PUnit := do
  let s ← get
  match s.selected with
  | none => throw .noSelectedCandidate
  | some id =>
    let dedup_after := s.dedupAfter parents
    let accepted := s.accepted id parents
    if FRONTIER_MAX < s.pending.length + accepted.length then throw .frontierFull
    else if dedup_after ∧ id ∉ s.emitted ∧ EMITTED_MAX ≤ s.emitted.card then
      throw .emittedFull
    else do
      modify fun s => { s with dedup_active := dedup_after }
      if dedup_after then modify fun s => { s with emitted := insert id s.emitted }
      modify fun s => { s with sealed := true }
      modify fun s => { s with pending := s.pending ++ accepted }
      modify fun s => { s with selected := none }

end InPlace

/-! ### The pure operations in place -/

theorem implements_push (c : PendingCandidate) :
    Implements (InPlace.push c) fun s => (s.push c).map (Prod.mk ⟨⟩) := by
  intro s
  simp only [InPlace.push, exec_get_bind, TimestampDiscovery.push]
  split
  · rfl
  · split
    · rfl
    · split <;> rfl

theorem exec_select (idx : ℕ) (e : PendingCandidate) (s : TimestampDiscovery) :
    exec (InPlace.select idx e) s = settle (.ok (s.select idx e)) s := rfl

/-- Among live slots the selection is the pure step. -/
theorem exec_selectNext {s : TimestampDiscovery} (hsel : s.selected = none)
    (hlive : s.live = s.pending) : exec InPlace.selectNext s = settle s.step s := by
  rw [InPlace.selectNext, exec_get_bind, TimestampDiscovery.step, if_neg (by simp [hsel])]
  simp only [hlive]
  obtain ⟨pending, emitted, dedup_active, sealed, selected⟩ := s
  rcases pending with - | ⟨a, - | ⟨b, l⟩⟩
  · rfl
  · exact exec_select 0 a _
  · simp only
    cases (a :: b :: l).find? fun e => e.timestamp.isNone with
    | some e => rfl
    | none =>
      cases minByKey (a :: b :: l).zipIdx with
      | none => rfl
      | some e => exact exec_select e.2 e.1 _

/-- Dead slots are dropped once. -/
theorem live_live (s : TimestampDiscovery) : live { s with pending := s.live } = s.live := by
  unfold live
  split
  · rw [List.filter_filter]
    simp
  · rfl

theorem step_live (s : TimestampDiscovery) :
    TimestampDiscovery.step { s with pending := s.live } = s.step := by
  unfold TimestampDiscovery.step
  rw [live_live]

/-- Behind its only refusal a step succeeds, so what it wrote before does not matter. -/
theorem implements_step : Implements InPlace.step TimestampDiscovery.step := by
  intro s
  rw [InPlace.step, exec_get_bind]
  by_cases hsel : s.selected.isSome = true
  · rw [if_pos hsel, TimestampDiscovery.step, if_pos hsel]
    rfl
  · rw [if_neg hsel]
    have hnone : s.selected = none := by simpa using hsel
    have hdrop : exec (if s.dedup_active = true then do
          set { s with pending := s.pending.filter fun e => e.id ∉ s.emitted }
          InPlace.selectNext
        else InPlace.selectNext) s = exec InPlace.selectNext { s with pending := s.live } := by
      unfold live
      split
      · rw [exec_set_bind]
      · rfl
    rw [hdrop, exec_selectNext (s := { s with pending := s.live }) hnone (live_live s),
      step_live]
    obtain ⟨r, s', hs⟩ := exists_step hnone
    rw [hs]
    rfl

/-- The scan finds a disagreeing slot first, and else whether there is a slot at all. -/
theorem findSlots_eq (id : Hash) (ts : UInt64) (any : Bool) (es : List PendingCandidate) :
    InPlace.findSlots id ts any es =
      match es.findSome? fun e => if e.id = id then e.timestamp.filter (· ≠ ts) else none with
      | some recorded => .error (.conflictingTimestamp id recorded ts)
      | none => .ok (any || es.any fun e => e.id = id) := by
  induction es generalizing any with
  | nil => simp [InPlace.findSlots]
  | cons e es ih =>
    rw [InPlace.findSlots]
    by_cases hid : e.id = id
    · rw [if_neg (not_not.2 hid)]
      cases ht : e.timestamp with
      | none => simp [ih, hid, ht]
      | some recorded =>
        by_cases hne : recorded = ts
        · simp [ih, hid, ht, hne]
        · simp [hid, ht, hne, Option.filter_some]
    · rw [if_pos hid, ih]
      simp [hid]

theorem implements_provideTimestamp (id : Hash) (ts : UInt64) :
    Implements (InPlace.provideTimestamp id ts) fun s =>
      (s.provideTimestamp id ts).map (Prod.mk ⟨⟩) := by
  intro s
  simp only [InPlace.provideTimestamp, exec_get_bind, exec_liftExcept_bind, findSlots_eq,
    TimestampDiscovery.provideTimestamp, Bool.false_or]
  cases s.pending.findSome? fun e =>
      if e.id = id then e.timestamp.filter (· ≠ ts) else none with
  | some recorded => rfl
  | none =>
    simp only
    cases s.pending.any fun e => e.id = id with
    | false => rfl
    | true => rfl

theorem implements_emit (parents : List ParentEdge) :
    Implements (InPlace.emit parents) fun s => (s.emit parents).map (Prod.mk ⟨⟩) := by
  intro s
  simp only [InPlace.emit, exec_get_bind, TimestampDiscovery.emit]
  cases s.selected with
  | none => rfl
  | some id =>
    simp only
    split
    · rfl
    · split
      · rfl
      · cases s.dedupAfter parents with
        | false => rfl
        | true => rfl

/-! ### Calls in any order -/

/-- A call of one of the methods that take `&mut self`. -/
inductive MethodCall where
  | push (candidate : PendingCandidate)
  | step
  | provideTimestamp (id : Hash) (timestamp : UInt64)
  | emit (parents : List ParentEdge)

namespace MethodCall

/-- Make the call. -/
def perform : MethodCall → ExceptT HistoryOrderError (StateM TimestampDiscovery) (Option WalkStep)
  | .push candidate => do
    InPlace.push candidate
    return none
  | .step => do
    let r ← InPlace.step
    return some r
  | .provideTimestamp id timestamp => do
    InPlace.provideTimestamp id timestamp
    return none
  | .emit parents => do
    InPlace.emit parents
    return none

/-- The pure operation behind the call. -/
def apply (s : TimestampDiscovery) :
    MethodCall → Except HistoryOrderError (Option WalkStep × TimestampDiscovery)
  | .push candidate => (s.push candidate).map (Prod.mk none)
  | .step => s.step.map (Prod.map some id)
  | .provideTimestamp id timestamp => (s.provideTimestamp id timestamp).map (Prod.mk none)
  | .emit parents => (s.emit parents).map (Prod.mk none)

end MethodCall

/-- **Refused calls leave no trace.** Each call, with its writes in the order the source makes
them, is its pure operation carried out in place. -/
theorem implements_perform (m : MethodCall) : Implements m.perform fun s => m.apply s := by
  -- A method without a result comes as its operation with the unit.
  have hunit : ∀ {x : ExceptT HistoryOrderError (StateM TimestampDiscovery) PUnit}
      {f : TimestampDiscovery → Except HistoryOrderError TimestampDiscovery},
      Implements x (fun s => (f s).map (Prod.mk ⟨⟩)) →
      Implements (x >>= fun _ => pure (none : Option WalkStep))
        fun s => (f s).map (Prod.mk none) := by
    intro x f h s
    rw [h.map (fun _ => none) s]
    change settle (((f s).map (Prod.mk PUnit.unit)).map (Prod.map (fun _ => none) id)) s =
      settle ((f s).map (Prod.mk none)) s
    rcases f s with e | t
    · rfl
    · rfl
  cases m with
  | push c => exact hunit (implements_push c)
  | step => exact implements_step.map some
  | provideTimestamp id ts => exact hunit (implements_provideTimestamp id ts)
  | emit parents => exact hunit (implements_emit parents)

/-- A success of any call keeps what walks keep between calls. -/
theorem TimestampDiscovery.Valid.apply {s s' : TimestampDiscovery} (h : s.Valid)
    {m : MethodCall} {r : Option WalkStep} (hm : m.apply s = .ok (r, s')) : s'.Valid := by
  have hok : ∀ {α : Type} {x : Except HistoryOrderError α}
      {g : α → Option WalkStep × TimestampDiscovery}, x.map g = .ok (r, s') →
      ∃ a, x = .ok a ∧ g a = (r, s') := by
    intro α x g hx
    rcases x with e | a
    · cases hx
    · exact ⟨a, rfl, Except.ok.inj hx⟩
  cases m with
  | push c =>
    obtain ⟨t, ht, hg⟩ := hok hm
    exact (Prod.mk.inj hg).2 ▸ h.push ht
  | step =>
    obtain ⟨t, ht, hg⟩ := hok hm
    exact (Prod.mk.inj hg).2 ▸ h.step ht
  | provideTimestamp id ts =>
    obtain ⟨t, ht, hg⟩ := hok hm
    exact (Prod.mk.inj hg).2 ▸ h.provideTimestamp ht
  | emit parents =>
    obtain ⟨t, ht, hg⟩ := hok hm
    exact (Prod.mk.inj hg).2 ▸ h.emit ht

/-- The walk after these calls, the refused ones included. -/
def after (s : TimestampDiscovery) (calls : List MethodCall) : TimestampDiscovery :=
  calls.foldl (fun s m => (exec m.perform s).2) s

/-- Any calls, refused or not, keep what walks keep between calls. -/
theorem TimestampDiscovery.Valid.after {s : TimestampDiscovery} (h : s.Valid)
    (calls : List MethodCall) : (after s calls).Valid := by
  induction calls generalizing s with
  | nil => exact h
  | cons m calls ih =>
    exact ih ((implements_perform m).preserves (fun s r s' hs hm => hs.apply hm) h)

/-- **Snapshots are exact.** A walk reached from an empty one by any calls has a snapshot, and
restoring it gives the walk back; a snapshot that restores to a walk is the one that walk
encodes to; a call that is refused leaves the walk as it was. -/
theorem snapshots_exact : (∀ calls : List MethodCall,
      (after new calls).pending.length ≤ FRONTIER_MAX ∧
        (after new calls).emitted.card ≤ EMITTED_MAX ∧
        ((after new calls).dedup_active = true ↔ (after new calls).emitted ≠ ∅) ∧
        ∃ b, (after new calls).encode = some b ∧ decode b = .ok (after new calls)) ∧
      (∀ (b : Bytes) (s : TimestampDiscovery), decode b = .ok s → s.encode = some b) ∧
      ∀ (m : MethodCall) (s s' : TimestampDiscovery) (e : HistoryOrderError),
        exec m.perform s = (.error e, s') → s' = s := by
  refine ⟨fun calls => ?_, fun b s h => (decode_eq_ok_iff.1 h).2, fun m s s' e h =>
    (implements_perform m).atomic s s' e h⟩
  have hv : (after new calls).Valid := valid_new.after calls
  exact ⟨hv.pending_le, hv.emitted_le, hv.dedup_iff, _, hv.encode_eq,
    decode_eq_ok_iff.2 ⟨hv, hv.encode_eq⟩⟩

/-- An id pushed and handed out: its snapshot is restored, and a second step is refused. -/
theorem snapshots_exact_outstanding :
    ∃ s b, s = after new [.push ⟨ZERO, none⟩, .step] ∧ s.selected = some ZERO ∧
      s.encode = some b ∧ decode b = .ok s ∧ (exec (MethodCall.perform .step) s).2 = s := by
  obtain ⟨-, -, -, b, hb, hd⟩ := snapshots_exact.1 [.push ⟨ZERO, none⟩, .step]
  exact ⟨_, b, rfl, rfl, hb, hd, snapshots_exact.2.2 .step _ _ .candidateOutstanding rfl⟩

end Mkit
