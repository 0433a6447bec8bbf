import Mkit.Server.Kv

/-!
# Resolving Increments

A backend turns the increments of a batch into puts before it writes anything
(`Batch::resolve_increments`, `store/kv.rs`). A counter is read from the store only if no earlier
write of the batch is about its key; `pending` remembers what those left.

The meaning of a batch is a run over the contents of a store, one write after another, where an
increment reads the contents as they are then. Reading can fail, and then the contents under that
key are the failure.

## Main results

* `resolveIncrements_spec` — the resolved writes have the meaning of the original ones, and
  resolving fails exactly where the run does;
* `applyWrites_eq_resolved` — on rows, resolving and then writing is what `applyWrites` does.
-/

namespace Mkit.Server

variable {ε : Type}

/-! ### Resolving -/

/-- The number in a counter; an absent one is zero. -/
def counterValue (invalid_counter : String → ε) : Option Value → Except ε UInt64
  | none => .ok 0
  | some v =>
    if v.length ≠ 8 then .error (invalid_counter "increment counter is not an 8-byte u64")
    else .ok (UInt64.ofNat (Wire.ofLeBytes v.reverse))

section Resolve

variable (read : Key → Except ε (Option Value)) (invalid_counter : String → ε)

/-- The value of a counter, as earlier writes left it or as the store holds it. -/
def currentValue (pending : SortedMap Key (Option Value)) (k : Key) : Except ε (Option Value) :=
  match pending.get k with
  | some value => .ok value
  | none => read k

/-- The loop of `resolveIncrements`. -/
def resolveFrom : List Write → SortedMap Key (Option Value) → Except ε (List Write)
  | [], _ => .ok []
  | .put k v :: writes, pending => do
    let resolved ← resolveFrom writes (pending.insert k (some v))
    pure (.put k v :: resolved)
  | .delete k :: writes, pending => do
    let resolved ← resolveFrom writes (pending.insert k none)
    pure (.delete k :: resolved)
  | .increment k :: writes, pending => do
    let current ← currentValue read pending k
    let counter ← counterValue invalid_counter current
    match Words.checkedAdd counter 1 with
    | none => throw (invalid_counter "increment counter overflow")
    | some next => do
      let resolved ← resolveFrom writes (pending.insert k (some (keys.be64 next)))
      pure (.put k (keys.be64 next) :: resolved)

def Write.isIncrement : Write → Bool
  | .increment _ => true
  | .put _ _ | .delete _ => false

/-- Turn the increments into puts. The batch is changed only when all of them succeed. -/
def Batch.resolveIncrements (b : Batch) : Except ε Unit × Batch :=
  if !b.writes.any Write.isIncrement then (.ok (), b)
  else
    match resolveFrom read invalid_counter b.writes .empty with
    | .ok resolved => (.ok (), { b with writes := resolved })
    | .error e => (.error e, b)

end Resolve

/-! ### Running -/

/-- What a store holds, as far as it can be read. -/
abbrev Contents (ε : Type) := Key → Except ε (Option Value)

/-- A counter after an increment: the big-endian number and one, if there is room. -/
def increased : Option Value → Option Value
  | none => some (keys.be64 1)
  | some v =>
    if v.length = 8 ∧ v ≠ keys.be64 (UInt64.ofNat (2 ^ 64 - 1)) then
      some (Wire.beBytes 8 (Wire.ofLeBytes v.reverse + 1))
    else none

/-- The contents after one write. -/
def Write.run (c : Contents ε) : Write → Option (Contents ε)
  | .put k v => some (Function.update c k (.ok (some v)))
  | .delete k => some (Function.update c k (.ok none))
  | .increment k =>
    match c k with
    | .error _ => none
    | .ok current => (increased current).map fun v => Function.update c k (.ok (some v))

/-- The contents after the writes, one after another. -/
def runWrites (c : Contents ε) (writes : List Write) : Option (Contents ε) :=
  writes.foldlM Write.run c

/-- Why a counter cannot be increased: it cannot be read, is no counter, or is full. -/
inductive Refuses (invalid_counter : String → ε) : Except ε (Option Value) → ε → Prop
  | unread (e : ε) : Refuses invalid_counter (.error e) e
  | malformed {v : Value} : v.length ≠ 8 →
      Refuses invalid_counter (.ok (some v))
        (invalid_counter "increment counter is not an 8-byte u64")
  | full : Refuses invalid_counter (.ok (some (keys.be64 (UInt64.ofNat (2 ^ 64 - 1)))))
      (invalid_counter "increment counter overflow")

/-- The run meets an increment of a counter that cannot be increased. -/
inductive RunFails (invalid_counter : String → ε) : Contents ε → List Write → ε → Prop
  | here {c : Contents ε} {k : Key} {writes : List Write} {e : ε} :
      Refuses invalid_counter (c k) e →
        RunFails invalid_counter c (.increment k :: writes) e
  | later {c c' : Contents ε} {w : Write} {writes : List Write} {e : ε} :
      w.run c = some c' → RunFails invalid_counter c' writes e →
        RunFails invalid_counter c (w :: writes) e

section Meaning

variable {read : Key → Except ε (Option Value)} {invalid_counter : String → ε}
  {pending : SortedMap Key (Option Value)}

theorem currentValue_empty : currentValue read .empty = read := rfl

/-- What a write leaves pending is what it writes to the contents. -/
theorem currentValue_insert (k : Key) (o : Option Value) : currentValue read (pending.insert k o) =
      Function.update (currentValue read pending) k (.ok o) := by
  funext x
  rw [currentValue, SortedMap.get_insert]
  by_cases hx : x = k
  · subst hx
    rw [if_pos rfl, Function.update_self]
  · rw [if_neg hx, Function.update_of_ne hx]
    rfl

/-- A value of eight bytes is the counter it is read as. -/
theorem be64_counter {v : Value} (h : v.length = 8) :
    (UInt64.ofNat (Wire.ofLeBytes v.reverse)).toNat = Wire.ofLeBytes v.reverse ∧
      keys.be64 (UInt64.ofNat (Wire.ofLeBytes v.reverse)) = v := by
  have hlength : v.reverse.length = 8 := by rw [List.length_reverse, h]
  have hlt := Wire.ofLeBytes_lt v.reverse
  rw [hlength] at hlt
  have hnat : (UInt64.ofNat (Wire.ofLeBytes v.reverse)).toNat = Wire.ofLeBytes v.reverse := by
    rw [UInt64.toNat_ofNat', Nat.mod_eq_of_lt (hlt.trans_eq (by norm_num))]
  refine ⟨hnat, ?_⟩
  have hbytes := Wire.leBytes_ofLeBytes v.reverse
  rw [hlength] at hbytes
  rw [keys.be64, hnat, Wire.beBytes, hbytes, List.reverse_reverse]

/-- A counter can be increased, or is refused for one reason. -/
theorem counterValue_cases (invalid_counter : String → ε) (current : Option Value) :
    (∃ counter next, counterValue invalid_counter current = .ok counter ∧
        Words.checkedAdd counter 1 = some next ∧ increased current = some (keys.be64 next)) ∨
      increased current = none ∧ ∃ e, Refuses invalid_counter (.ok current) e ∧
        (counterValue invalid_counter current = .error e ∨
          ∃ counter, counterValue invalid_counter current = .ok counter ∧
            Words.checkedAdd counter 1 = none ∧
            e = invalid_counter "increment counter overflow") := by
  cases current with
  | none => exact .inl ⟨0, 1, rfl, rfl, rfl⟩
  | some v =>
    by_cases hlength : v.length = 8
    · obtain ⟨hnat, hbytes⟩ := be64_counter hlength
      have hvalue : counterValue invalid_counter (some v) =
          .ok (UInt64.ofNat (Wire.ofLeBytes v.reverse)) :=
        if_neg (not_not.2 hlength)
      generalize UInt64.ofNat (Wire.ofLeBytes v.reverse) = counter at hnat hbytes hvalue
      cases hnext : Words.checkedAdd counter 1 with
      | none =>
        have hmax : counter = UInt64.ofNat (2 ^ 64 - 1) := by
          rw [Words.checkedAdd] at hnext
          split at hnext
          · cases hnext
          · rename_i hge
            have hlt := counter.toNat_lt
            have hone : (1 : UInt64).toNat = 1 := rfl
            rw [← UInt64.toNat_inj, UInt64.toNat_ofNat']
            omega
        subst hmax
        have hfull : ¬ (v.length = 8 ∧ v ≠ keys.be64 (UInt64.ofNat (2 ^ 64 - 1))) :=
          fun h => h.2 hbytes.symm
        refine .inr ⟨if_neg hfull, _, ?_, .inr ⟨_, hvalue, hnext, rfl⟩⟩
        rw [← hbytes]
        exact .full
      | some next =>
        have hsum := Words.checkedAdd_eq_some.1 hnext
        have hone : (1 : UInt64).toNat = 1 := rfl
        have hroom : v.length = 8 ∧ v ≠ keys.be64 (UInt64.ofNat (2 ^ 64 - 1)) := by
          refine ⟨hlength, fun hv => ?_⟩
          have heq := keys.be64_injective (hbytes.trans hv)
          have hlt := next.toNat_lt
          rw [heq, UInt64.toNat_ofNat'] at hsum
          omega
        refine .inl ⟨counter, next, hvalue, hnext, ?_⟩
        rw [increased, if_pos hroom, ← hnat, keys.be64, hsum, hone]
    · refine .inr ⟨if_neg fun h => hlength h.1, _, .malformed hlength, .inl ?_⟩
      exact if_pos hlength

theorem Refuses.unique {r : Except ε (Option Value)} {e e' : ε}
    (h : Refuses invalid_counter r e) (h' : Refuses invalid_counter r e') : e = e' := by
  have hfull : (keys.be64 (UInt64.ofNat (2 ^ 64 - 1))).length = 8 := keys.length_be64 _
  cases h with
  | unread =>
    cases h' with
    | unread => rfl
  | malformed hlength =>
    generalize hr : (Except.ok (some _) : Except ε (Option Value)) = r at h'
    cases h' with
    | unread => cases hr
    | malformed => rfl
    | full =>
      cases hr
      exact absurd hfull hlength
  | full =>
    generalize hr : (Except.ok (some _) : Except ε (Option Value)) = r at h'
    cases h' with
    | unread => cases hr
    | malformed hlength =>
      cases hr
      exact absurd hfull hlength
    | full => rfl

/-- An increment of a counter that is refused ends the run. -/
theorem Refuses.run_eq_none {c : Contents ε} {k : Key} {e : ε}
    (h : Refuses invalid_counter (c k) e) : (Write.increment k).run c = none := by
  rw [Write.run]
  generalize c k = r at h
  cases h with
  | unread => rfl
  | malformed hlength =>
    dsimp only
    rw [increased, if_neg fun h => hlength h.1]
    rfl
  | full =>
    dsimp only
    rw [increased, if_neg fun h => h.2 rfl]
    rfl

/-- **One write is resolved.** It becomes a write without an increment that leaves the same
contents, or it increments a counter that is refused. -/
theorem resolveFrom_cons (w : Write) (writes : List Write) :
    (∃ w' pending', w'.isIncrement = false ∧
        w.run (currentValue read pending) = some (currentValue read pending') ∧
        w'.run (currentValue read pending) = some (currentValue read pending') ∧
        resolveFrom read invalid_counter (w :: writes) pending =
          (resolveFrom read invalid_counter writes pending').map (w' :: ·)) ∨
      ∃ k e, w = .increment k ∧ w.run (currentValue read pending) = none ∧
        Refuses invalid_counter (currentValue read pending k) e ∧
        resolveFrom read invalid_counter (w :: writes) pending = .error e := by
  cases w with
  | put k v =>
    refine .inl ⟨.put k v, pending.insert k (some v), rfl, ?_, ?_, rfl⟩ <;>
      rw [currentValue_insert] <;> rfl
  | delete k =>
    refine .inl ⟨.delete k, pending.insert k none, rfl, ?_, ?_, rfl⟩ <;>
      rw [currentValue_insert] <;> rfl
  | increment k =>
    cases hcurrent : currentValue read pending k with
    | error e =>
      refine .inr ⟨k, e, rfl, ?_, hcurrent ▸ .unread e, ?_⟩
      · rw [Write.run, hcurrent]
      · rw [resolveFrom, hcurrent]
        rfl
    | ok current =>
      rcases counterValue_cases invalid_counter current with
        ⟨counter, next, hcounter, hnext, hvalue⟩ | ⟨hvalue, e, hrefuses, hcases⟩
      · refine .inl ⟨.put k (keys.be64 next), pending.insert k (some (keys.be64 next)), rfl,
          ?_, ?_, ?_⟩
        · rw [currentValue_insert, Write.run, hcurrent]
          dsimp only
          rw [hvalue]
          rfl
        · rw [currentValue_insert]
          rfl
        · rw [resolveFrom, hcurrent]
          change (do
            let counter ← counterValue invalid_counter current
            _) = _
          rw [hcounter]
          change (match Words.checkedAdd counter 1 with
            | none => _
            | some next => _) = _
          rw [hnext]
          rfl
      · refine .inr ⟨k, e, rfl, ?_, hcurrent ▸ hrefuses, ?_⟩
        · rw [Write.run, hcurrent]
          dsimp only
          rw [hvalue]
          rfl
        · rw [resolveFrom, hcurrent]
          change (do
            let counter ← counterValue invalid_counter current
            _) = _
          rcases hcases with herror | ⟨counter, hcounter, hnext, rfl⟩
          · rw [herror]
            rfl
          · rw [hcounter]
            change (match Words.checkedAdd counter 1 with
              | none => _
              | some next => _) = _
            rw [hnext]
            rfl

theorem runWrites_cons {c : Contents ε} {w : Write} (writes : List Write) :
    runWrites c (w :: writes) = (w.run c).bind fun c' => runWrites c' writes :=
  List.foldlM_cons

/-- Writes without an increment are resolved to themselves. -/
theorem resolveFrom_of_plain {writes : List Write} (h : ∀ w ∈ writes, w.isIncrement = false) :
    resolveFrom read invalid_counter writes pending = .ok writes := by
  induction writes generalizing pending with
  | nil => rfl
  | cons w writes ih =>
    rw [List.forall_mem_cons] at h
    cases w with
    | put k v =>
      rw [resolveFrom, ih h.2]
      rfl
    | delete k =>
      rw [resolveFrom, ih h.2]
      rfl
    | increment k => exact absurd h.1 nofun

/-- What is resolved has no increments left and runs to the same contents. -/
theorem resolveFrom_eq_ok {writes resolved : List Write}
    (h : resolveFrom read invalid_counter writes pending = .ok resolved) :
    (∀ w ∈ resolved, w.isIncrement = false) ∧
      ∃ c, runWrites (currentValue read pending) writes = some c ∧
        runWrites (currentValue read pending) resolved = some c := by
  induction writes generalizing pending resolved with
  | nil =>
    obtain rfl := Except.ok.inj h
    exact ⟨fun w hw => absurd hw List.not_mem_nil, _, rfl, rfl⟩
  | cons w writes ih =>
    rcases resolveFrom_cons w writes with
      ⟨w', pending', hplain, hrun, hrun', heq⟩ | ⟨k, e, -, -, -, heq⟩
    · rw [heq] at h
      rcases hrest : resolveFrom read invalid_counter writes pending' with e | rest
      · rw [hrest] at h
        exact nomatch h
      · rw [hrest] at h
        obtain rfl := Except.ok.inj h
        obtain ⟨hall, c, hc, hc'⟩ := ih hrest
        refine ⟨List.forall_mem_cons.2 ⟨hplain, hall⟩, c, ?_, ?_⟩
        · rw [runWrites_cons, hrun]
          exact hc
        · rw [runWrites_cons, hrun']
          exact hc'
    · rw [heq] at h
      exact nomatch h

/-- Resolving fails exactly where the run does, and for the same reason. -/
theorem resolveFrom_eq_error_iff {writes : List Write} {e : ε} :
    resolveFrom read invalid_counter writes pending = .error e ↔
      RunFails invalid_counter (currentValue read pending) writes e := by
  induction writes generalizing pending with
  | nil => exact ⟨(fun h => nomatch h), fun h => nomatch h⟩
  | cons w writes ih =>
    rcases resolveFrom_cons w writes with
      ⟨w', pending', -, hrun, -, heq⟩ | ⟨k, e', rfl, hnone, hrefuses, heq⟩
    · have hmap : resolveFrom read invalid_counter (w :: writes) pending = .error e ↔
          resolveFrom read invalid_counter writes pending' = .error e := by
        rw [heq]
        cases resolveFrom read invalid_counter writes pending' with
        | ok rest => exact ⟨(fun h => nomatch h), fun h => nomatch h⟩
        | error e' => exact Iff.rfl
      rw [hmap, ih]
      refine ⟨.later hrun, fun h => ?_⟩
      cases h with
      | here hrefuses => exact absurd hrun (hrefuses.run_eq_none ▸ nofun)
      | later hrun' hfails =>
        obtain rfl := Option.some.inj (hrun.symm.trans hrun')
        exact hfails
    · rw [heq, Except.error.injEq]
      constructor
      · rintro rfl
        exact .here hrefuses
      · intro h
        cases h with
        | here hrefuses' => exact hrefuses.unique hrefuses'
        | later hrun' => exact absurd (hnone.symm.trans hrun') nofun

end Meaning

/-- **Increments are resolved exactly.** For every batch and every store, as far as it can be
read: if resolving succeeds, the batch has no increments left, and its writes run to the contents
the original ones run to. It fails if and only if the run meets an increment of a counter that
cannot be read, is not eight bytes or is full; then the batch is as it was. -/
theorem resolveIncrements_spec (read : Key → Except ε (Option Value))
    (invalid_counter : String → ε) (b : Batch) :
    (∀ b', b.resolveIncrements read invalid_counter = (.ok (), b') →
      b'.preconditions = b.preconditions ∧ (∀ w ∈ b'.writes, w.isIncrement = false) ∧
        ∃ c, runWrites read b.writes = some c ∧ runWrites read b'.writes = some c) ∧
    (∀ e, (b.resolveIncrements read invalid_counter).1 = .error e ↔
      RunFails invalid_counter read b.writes e) ∧
    ∀ e b', b.resolveIncrements read invalid_counter = (.error e, b') → b' = b := by
  have hloop : ∀ e, resolveFrom read invalid_counter b.writes .empty = .error e ↔
      RunFails invalid_counter read b.writes e := fun e => resolveFrom_eq_error_iff
  rw [Batch.resolveIncrements]
  cases hany : b.writes.any Write.isIncrement with
  | false =>
    have hplain : ∀ w ∈ b.writes, w.isIncrement = false := by simpa using hany
    have hresolved : resolveFrom read invalid_counter b.writes .empty = .ok b.writes :=
      resolveFrom_of_plain hplain
    obtain ⟨-, c, hrun, -⟩ := resolveFrom_eq_ok hresolved
    refine ⟨fun b' h => ?_, fun e => ?_, fun e b' h => ?_⟩
    · obtain rfl := (Prod.mk.inj h).2
      exact ⟨rfl, hplain, c, hrun, hrun⟩
    · rw [← hloop, hresolved]
      exact ⟨(fun h => nomatch h), fun h => nomatch h⟩
    · exact ((Prod.mk.inj h).2).symm
  | true =>
    rcases hrun : resolveFrom read invalid_counter b.writes .empty with e | resolved
    · refine ⟨(fun b' h => nomatch (Prod.mk.inj h).1), fun e' => ?_, fun e' b' h => ?_⟩
      · rw [← hloop, hrun]
        exact ⟨fun h => congrArg _ (Except.error.inj h), fun h => congrArg _ (Except.error.inj h)⟩
      · exact ((Prod.mk.inj h).2).symm
    · obtain ⟨hplain, hc⟩ := resolveFrom_eq_ok hrun
      refine ⟨fun b' h => ?_, fun e => ?_, fun e b' h => nomatch (Prod.mk.inj h).1⟩
      · obtain rfl := (Prod.mk.inj h).2
        exact ⟨rfl, hplain, hc⟩
      · rw [← hloop, hrun]
        exact ⟨(fun h => nomatch h), fun h => nomatch h⟩

/-- Three increments around a delete: the first two see the store, the last one does not. -/
theorem resolveIncrements_spec_shadowed :
    ∃ c, runWrites (ε := StoreError) (fun _ => .ok (some (keys.be64 6)))
        [.increment [1], .increment [1], .delete [1], .increment [1]] = some c ∧
      runWrites (ε := StoreError) (fun _ => .ok (some (keys.be64 6)))
        [.put [1] (keys.be64 7), .put [1] (keys.be64 8), .delete [1], .put [1] (keys.be64 1)] =
          some c :=
  ((resolveIncrements_spec (fun _ => .ok (some (keys.be64 6))) StoreError.corrupt
    ⟨[], [.increment [1], .increment [1], .delete [1], .increment [1]]⟩).1
    ⟨[], [.put [1] (keys.be64 7), .put [1] (keys.be64 8), .delete [1], .put [1] (keys.be64 1)]⟩
    (by rfl)).2.2

/-! ### On rows -/

/-- The contents of a partition that can be read. -/
def rowContents (rows : Rows) : Contents StoreError :=
  fun k => .ok (rows.get k)

theorem rowContents_injective : Function.Injective rowContents := fun _ _ h =>
  SortedMap.eq_of_get fun k => Except.ok.inj (congrFun h k)

theorem update_rowContents (rows : Rows) (k : Key) (o : Option Value) :
    Function.update (rowContents rows) k (.ok o) = rowContents (rows.update k o) := by
  funext x
  rw [rowContents, SortedMap.get_update]
  by_cases hx : x = k
  · subst hx
    rw [Function.update_self, if_pos rfl]
  · rw [Function.update_of_ne hx, if_neg hx]
    rfl

/-- A write that can be run is applied to the rows. -/
theorem apply_of_run {rows : Rows} {w : Write} {c : Contents StoreError}
    (h : w.run (rowContents rows) = some c) :
    ∃ rows', w.apply rows = .ok rows' ∧ c = rowContents rows' := by
  cases w with
  | put k v =>
    obtain rfl := Option.some.inj h
    exact ⟨_, rfl, update_rowContents rows k (some v)⟩
  | delete k =>
    obtain rfl := Option.some.inj h
    exact ⟨_, rfl, update_rowContents rows k none⟩
  | increment k =>
    change (increased (rows.get k)).map _ = some c at h
    obtain ⟨v, hv, rfl⟩ := Option.map_eq_some_iff.1 h
    refine ⟨rows.insert k v, ?_, update_rowContents rows k (some v)⟩
    rcases counterValue_cases StoreError.corrupt (rows.get k) with
      ⟨counter, next, hcounter, hnext, hvalue⟩ | ⟨hvalue, -⟩
    · obtain rfl := Option.some.inj (hv.symm.trans hvalue)
      rw [Write.apply]
      cases hget : rows.get k with
      | none =>
        rw [hget] at hcounter
        obtain rfl := Except.ok.inj hcounter
        obtain rfl := Option.some.inj hnext
        rfl
      | some v =>
        rw [hget, counterValue] at hcounter
        dsimp only
        split at hcounter
        · cases hcounter
        · rename_i hlength
          obtain rfl := Except.ok.inj hcounter
          rw [if_neg hlength, hnext]
    · cases hv.symm.trans hvalue

theorem apply_of_refuses {rows : Rows} {k : Key} {e : StoreError}
    (h : Refuses .corrupt (rowContents rows k) e) : (Write.increment k).apply rows = .error e := by
  rw [rowContents] at h
  rw [Write.apply]
  generalize rows.get k = current at h
  generalize hr : (Except.ok current : Except StoreError (Option Value)) = r at h
  cases h with
  | unread => cases hr
  | malformed hlength =>
    cases hr
    exact if_pos hlength
  | full =>
    cases hr
    rfl

/-- Resolving on the way, from rows that the pending values describe. -/
theorem applyWrites_of_resolveFrom {start rows : Rows} {pending : SortedMap Key (Option Value)}
    (hcurrent : currentValue (rowContents start) pending = rowContents rows) (writes : List Write) :
    (resolveFrom (rowContents start) .corrupt writes pending >>= applyWrites rows) =
      applyWrites rows writes := by
  induction writes generalizing rows pending with
  | nil => rfl
  | cons w writes ih =>
    have hcons : ∀ w' writes', applyWrites rows (w' :: writes') =
        w'.apply rows >>= fun rows' => applyWrites rows' writes' := fun _ _ => List.foldlM_cons
    rcases @resolveFrom_cons _ (rowContents start) .corrupt pending w writes with
      ⟨w', pending', -, hrun, hrun', heq⟩ | ⟨k, e, rfl, -, hrefuses, heq⟩
    · rw [hcurrent] at hrun hrun'
      obtain ⟨rows₁, hw, hcurrent'⟩ := apply_of_run hrun
      obtain ⟨rows₂, hw', heq'⟩ := apply_of_run hrun'
      obtain rfl := rowContents_injective (hcurrent'.symm.trans heq')
      rw [heq, hcons, hw]
      refine Eq.trans ?_ (ih hcurrent')
      cases resolveFrom (rowContents start) .corrupt writes pending' with
      | error e => rfl
      | ok resolved => exact (hcons w' resolved).trans (by rw [hw']; rfl)
    · rw [hcurrent] at hrefuses
      rw [heq, hcons, apply_of_refuses hrefuses]
      rfl

/-- **Resolving and then writing.** A backend that resolves the increments against its rows and
then makes the writes does what the sequential model of a batch says, failures included. -/
theorem applyWrites_eq_resolved (rows : Rows) (b : Batch) : applyWrites rows b.writes =
      match b.resolveIncrements (rowContents rows) .corrupt with
      | (.ok (), b') => applyWrites rows b'.writes
      | (.error e, _) => .error e := by
  have hloop : (resolveFrom (rowContents rows) .corrupt b.writes .empty >>= applyWrites rows) =
      applyWrites rows b.writes := applyWrites_of_resolveFrom rfl b.writes
  rw [Batch.resolveIncrements]
  cases hany : b.writes.any Write.isIncrement with
  | false => rfl
  | true =>
    rw [← hloop]
    cases resolveFrom (rowContents rows) .corrupt b.writes .empty <;> rfl

end Mkit.Server
