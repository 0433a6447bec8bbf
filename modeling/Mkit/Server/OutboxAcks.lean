import Mkit.Server.OutboxRuns

/-!
# Acknowledgements

An acknowledgement takes one terminal row off the queue: it deletes the row and its index and
puts a smaller backlog where the batch last wrote one. Its guards name the row, the index and the
backlog it was planned on, so committing it keeps the accounts (`Effects.ack`).
-/

namespace Mkit.Server

open Effect

variable {S : Serde}

/-! ### The last write of the backlog -/

theorem rposition_eq_none {α : Type} {p : α → Bool} {l : List α} (h : rposition p l = none) :
    ∀ a ∈ l, p a = false := by
  induction l with
  | nil => exact nofun
  | cons a l ih =>
    rw [rposition] at h
    cases hl : rposition p l with
    | some i => simp [hl] at h
    | none =>
      cases ha : p a with
      | true => simp [hl, ha] at h
      | false => exact List.forall_mem_cons.2 ⟨ha, ih hl⟩

theorem rposition_eq_some {α : Type} {p : α → Bool} {l : List α} {i : ℕ}
    (h : rposition p l = some i) :
    ∃ before a after, l = before ++ a :: after ∧ before.length = i ∧ p a = true ∧
      ∀ b ∈ after, p b = false := by
  induction l generalizing i with
  | nil => cases h
  | cons a l ih =>
    rw [rposition] at h
    cases hl : rposition p l with
    | some j =>
      rw [hl] at h
      obtain rfl := Option.some.inj h
      obtain ⟨before, a', after, rfl, rfl, ha, hafter⟩ := ih hl
      exact ⟨a :: before, a', after, rfl, rfl, ha, hafter⟩
    | none =>
      cases ha : p a with
      | false => simp [hl, ha] at h
      | true =>
        simp only [hl, ha, if_true, Option.some.injEq] at h
        exact ⟨[], a, l, rfl, h, ha, rposition_eq_none hl⟩

/-- The writes of an acknowledgement behind those planned: the row and its index go, and the
backlog is written where it was last written. -/
inductive AckWrites (k index : Key) (w : Write) (ws : List Write) : Option Write → List Write → Prop
  | first (h : ∀ u ∈ ws, u.key ≠ w.key) :
      AckWrites k index w ws none (ws ++ [.delete k, .delete index] ++ [w])
  | again {before after : List Write} {last : Write} (h : ws = before ++ last :: after)
      (hkey : last.key = w.key) (hafter : ∀ u ∈ after, u.key ≠ w.key) :
      AckWrites k index w ws (some last)
        (before ++ w :: (after ++ [.delete k, .delete index]))

theorem ackWrites_of_rposition (k index : Key) (w : Write) (ws : List Write) :
    AckWrites k index w ws
      ((rposition (fun u => u.key == w.key) ws).bind fun i => ws[i]?)
      (match rposition (fun u => u.key == w.key) ws with
        | some i => (ws ++ [Write.delete k, .delete index]).set i w
        | none => ws ++ [.delete k, .delete index] ++ [w]) := by
  cases hp : rposition (fun u => u.key == w.key) ws with
  | none => exact .first fun u hu => by simpa using rposition_eq_none hp u hu
  | some i =>
    obtain ⟨before, last, after, rfl, rfl, hkey, hafter⟩ := rposition_eq_some hp
    have hget : (before ++ last :: after)[before.length]? = some last := by simp
    have hset : (before ++ last :: after ++ [Write.delete k, .delete index]).set before.length w =
        before ++ w :: (after ++ [.delete k, .delete index]) := by
      simp
    dsimp only [Option.bind_some]
    rw [hget, hset]
    exact .again rfl (by simpa using hkey) fun u hu => by simpa using hafter u hu

variable {k index : Key} {w : Write} {ws ws' : List Write} {last : Option Write}

/-- Every write of the acknowledgement is a planned one, the backlog's, or takes the row or its
index away. -/
theorem AckWrites.mem (h : AckWrites k index w ws last ws') {u : Write} (hu : u ∈ ws') :
    u ∈ ws ∨ u = w ∨ u = .delete k ∨ u = .delete index := by
  cases h with
  | first h =>
    simp only [List.mem_append, List.mem_cons, List.not_mem_nil, or_false] at hu
    tauto
  | again h hkey hafter =>
    subst h
    simp only [List.mem_append, List.mem_cons, List.not_mem_nil, or_false] at hu ⊢
    tauto

/-- What was planned for other keys stays planned, and the row goes. -/
theorem AckWrites.subset (h : AckWrites k index w ws last ws') :
    (∀ u ∈ ws, u.key ≠ w.key → u ∈ ws') ∧ .delete k ∈ ws' := by
  cases h with
  | first h => exact ⟨fun u hu _ => by simp [hu], by simp⟩
  | again h hkey hafter =>
    subst h
    refine ⟨fun u hu hne => ?_, by simp⟩
    rcases List.mem_append.1 hu with hu | hu
    · simp [hu]
    · rcases List.mem_cons.1 hu with rfl | hu
      · exact absurd hkey hne
      · simp [hu]

/-- The acknowledgement queues nothing. -/
theorem AckWrites.queuedSeqs_eq (h : AckWrites k index w ws last ws')
    (hw : keys.ofClass keys.TAG_OUTCOME_PENDING w.key = false) :
    queuedSeqs ws' = queuedSeqs ws := by
  have hone : ∀ u : Write, u.key = w.key → queuedSeqs [u] = [] := fun u hu =>
    queuedSeqs_eq_nil fun v hv => by rwa [List.mem_singleton.1 hv, hu]
  have hdeletes : queuedSeqs [Write.delete k, .delete index] = [] := rfl
  cases h with
  | first h => rw [queuedSeqs_append, queuedSeqs_append, hone w rfl, hdeletes, List.append_nil,
      List.append_nil]
  | again h hkey hafter =>
    have hcons : ∀ (u : Write) (vs : List Write), u.key = w.key →
        queuedSeqs (u :: vs) = queuedSeqs vs := fun u vs hu => by
      rw [← List.singleton_append, queuedSeqs_append, hone u hu, List.nil_append]
    rw [h, queuedSeqs_append, queuedSeqs_append, hcons _ _ rfl, hcons _ _ hkey,
      queuedSeqs_append, hdeletes, List.append_nil]

/-- What the acknowledgement makes of the rows, from what was planned before. -/
theorem AckWrites.apply (h : AckWrites k index w ws last ws') {o : Option Value}
    (hw : w.value? = some o) (hlast : ∀ u ∈ last, u.value?.isSome = true) (hk : k ≠ w.key)
    (hindex : index ≠ w.key) {rows rows' : Rows} (happly : applyWrites rows ws' = .ok rows') :
    ∃ mid, applyWrites rows ws = .ok mid ∧
      rows' = ((mid.erase k).erase index).update w.key o ∧
      (last = none → mid.get w.key = rows.get w.key) ∧
      ∀ u ∈ last, u.value? = some (mid.get w.key) := by
  cases h with
  | first h =>
    rw [List.append_assoc] at happly
    obtain ⟨mid, hmid, hrest⟩ := applyWrites_append_eq_ok.1 happly
    obtain ⟨mid', hdeletes, hrest⟩ := applyWrites_append_eq_ok.1 hrest
    obtain rfl := Except.ok.inj hdeletes
    obtain ⟨last, hwrite, hrest⟩ := applyWrites_cons_eq_ok.1 hrest
    rw [Write.apply_eq_update hw] at hwrite
    obtain rfl := Except.ok.inj hwrite
    obtain rfl := Except.ok.inj hrest
    exact ⟨mid, hmid, rfl, fun _ => applyWrites_get hmid fun u hu => (h u hu).symm, nofun⟩
  | @again before after last h hkey hafter =>
    subst h
    obtain ⟨o₀, ho₀⟩ := Option.isSome_iff_exists.1 (hlast last rfl)
    have hafter' : ∀ u ∈ after ++ [Write.delete k, .delete index], u.key ≠ w.key := by
      intro u hu
      rcases List.mem_append.1 hu with hu | hu
      · exact hafter u hu
      · simp only [List.mem_cons, List.not_mem_nil, or_false] at hu
        rcases hu with rfl | rfl
        · exact hk
        · exact hindex
    have hold := applyWrites_replace happly hw ho₀ hkey hafter'
    have hnew := applyWrites_last happly hw hafter'
    rw [← List.cons_append, ← List.append_assoc] at hold
    obtain ⟨mid, hmid, hrest⟩ := applyWrites_append_eq_ok.1 hold
    have hdeletes : (mid.erase k).erase index = rows'.update w.key o₀ := Except.ok.inj hrest
    refine ⟨mid, hmid, ?_, nofun, ?_⟩
    · rw [hdeletes, SortedMap.update_update]
      refine SortedMap.eq_of_get fun x => ?_
      by_cases hx : x = w.key
      · rw [hx, SortedMap.get_update_self, hnew]
      · rw [SortedMap.get_update_of_ne _ _ hx]
    · rintro u ⟨⟩
      rw [ho₀, ← hkey, applyWrites_last hmid ho₀ fun u hu => hkey ▸ hafter u hu]

/-! ### What an acknowledgement plans -/

/-- An acknowledgement of a terminal row was planned. -/
structure Acknowledges (S : Serde) (rid : Bytes) (value : Value) (seq : UInt64)
    (oc : Option Value) (plan plan' : Plan) (planned left : Backlog) (last : Option Write) :
    Prop where
  terminal : terminalValue S value = true
  size : (UInt64.ofNat ((rowKey rid).length + value.length)).toNat =
    (rowKey rid).length + value.length
  free : ∀ w ∈ plan.writes, w.key ≠ rowKey rid
  observed : ∃ observed, counterOf S oc = .ok observed ∧
    plannedBacklog S observed last = .ok planned
  discount : discount planned (UInt64.ofNat ((rowKey rid).length + value.length)) = .ok left
  pre : ∀ p ∈ plan.pre, p ∈ plan'.pre
  row : .equals (rowKey rid) value ∈ plan'.pre
  index : .equals (indexKey seq rid) [] ∈ plan'.pre
  snapshot : guardOf keys.outcomeBacklog oc ∈ plan'.pre
  writes : AckWrites (rowKey rid) (indexKey seq rid) (backlogWrite S left) plan.writes last
    plan'.writes

theorem backlogWrite_key (left : Backlog) : (backlogWrite S left).key = keys.outcomeBacklog := by
  rw [backlogWrite]
  split <;> rfl

theorem yields_planAck {rid : Bytes} {value : Value} {seq : UInt64} {oc : Option Value}
    {plan plan' : Plan} {u : PUnit} (h : Yields (planAck S rid value seq oc) plan u plan') :
    ∃ planned left last, Acknowledges S rid value seq oc plan plan' planned left last := by
  rw [planAck] at h
  obtain ⟨-, h⟩ := yields_check.1 h
  obtain ⟨record, hrecord, h⟩ := yields_liftExcept_bind.1 h
  obtain ⟨hterminal, h⟩ := yields_check.1 h
  obtain ⟨k, hk, h⟩ := yields_liftExcept_bind.1 h
  obtain ⟨hrid, rfl⟩ := keys.reservation_eq_ok.1 hk
  obtain ⟨index, hindex, h⟩ := yields_liftExcept_bind.1 h
  obtain ⟨-, -, rfl⟩ := keys.outcomePending_eq_ok.1 hindex
  rw [yields_get_bind] at h
  obtain ⟨hfree, h⟩ := yields_check.1 h
  obtain ⟨observed, hobserved, h⟩ := yields_liftExcept_bind.1 h
  obtain ⟨hexisting, h⟩ := yields_check.1 h
  obtain ⟨planned, hplanned, h⟩ := yields_liftExcept_bind.1 h
  obtain ⟨left, hleft, h⟩ := yields_liftExcept_bind.1 h
  obtain rfl := yields_set.1 h
  refine ⟨planned, left, (rposition (fun w => w.key == keys.outcomeBacklog) plan.writes).bind
    fun i => plan.writes[i]?, ?_⟩
  exact {
    terminal := by
      rw [terminalValue_of_decode hrecord]
      simpa using hterminal
    size := by
      have hkey := length_rowKey_le hrid
      have hvalue := length_le_of_decodeReservation hrecord
      rw [UInt64.toNat_ofNat', Nat.mod_eq_of_lt]
      rw [MAX_KEY_BYTES] at hkey
      rw [MAX_VALUE_BYTES] at hvalue
      omega
    free := by simpa [rowKey] using hfree
    observed := by
      refine ⟨observed, ?_, hplanned⟩
      cases oc with
      | none => cases hobserved
      | some v => exact hobserved
    discount := hleft
    pre := fun p hp => by split <;> simp [hp]
    row := by split <;> simp [rowKey]
    index := by split <;> simp [indexKey]
    snapshot := by
      split
      · simp
      · rename_i hsome
        rw [Option.isNone_iff_eq_none] at hsome
        obtain ⟨p, hp⟩ := Option.ne_none_iff_exists'.1 hsome
        have hmem := List.mem_of_find?_eq_some hp
        rw [hp] at hexisting
        have heq : p = guardOf keys.outcomeBacklog oc := by simpa using hexisting
        simp [← heq, hmem]
    writes := by
      have hwrites := ackWrites_of_rposition (rowKey rid) (indexKey seq rid) (backlogWrite S left)
        plan.writes
      rw [backlogWrite_key] at hwrites
      exact hwrites }

theorem discount_eq_ok {planned left : Backlog} {size : UInt64}
    (h : discount planned size = .ok left) : left.rows.toNat + 1 = planned.rows.toNat ∧
      left.bytes.toNat + size.toNat = planned.bytes.toNat ∧
        (left.rows = 0 ↔ left.bytes = 0) := by
  rw [discount] at h
  cases hrows : Words.checkedSub planned.rows 1 with
  | none => simp [hrows] at h
  | some rows =>
    cases hbytes : Words.checkedSub planned.bytes size with
    | none => simp [hrows, hbytes] at h
    | some bytes =>
      rw [hrows, hbytes] at h
      dsimp only at h
      split at h
      case isTrue => cases h
      case isFalse hsame =>
        obtain rfl := Except.ok.inj h
        have hone : (1 : UInt64).toNat = 1 := rfl
        have hr := Words.checkedSub_eq_some.1 hrows
        have hb := Words.checkedSub_eq_some.1 hbytes
        refine ⟨?_, ?_, by simpa using hsame⟩
        · change rows.toNat + 1 = planned.rows.toNat
          omega
        · change bytes.toNat + size.toNat = planned.bytes.toNat
          omega

/-- The backlog the planned writes leave is the one they are planned on. -/
theorem counterOf_planned {observed planned : Backlog} {last : Option Write} {oc v : Option Value}
    (hobserved : counterOf S oc = .ok observed)
    (hplanned : plannedBacklog S observed last = .ok planned) (hnone : last = none → v = oc)
    (hlast : ∀ u ∈ last, u.value? = some v) : counterOf S v = .ok planned := by
  cases last with
  | none =>
    rw [hnone rfl, hobserved]
    exact hplanned
  | some u =>
    have hv := hlast u rfl
    cases u with
    | put k value =>
      obtain rfl := Option.some.inj hv
      exact hplanned
    | delete k =>
      obtain rfl := Option.some.inj hv
      exact hplanned
    | increment k => cases hv

theorem value?_of_plannedBacklog {observed planned : Backlog} {last : Option Write}
    (h : plannedBacklog S observed last = .ok planned) : ∀ u ∈ last, u.value?.isSome = true := by
  rintro u rfl
  cases u with
  | put => rfl
  | delete => rfl
  | increment => cases h

/-- The row of what is left of a backlog. -/
def leftRow (S : Serde) (left : Backlog) : Option Value :=
  if left.rows = 0 then none else some (encodeBacklog S left)

theorem backlogWrite_value (left : Backlog) :
    (backlogWrite S left).value? = some (leftRow S left) := by
  rw [backlogWrite, leftRow]
  by_cases h : left.rows = 0 <;> simp [h, Write.value?]

/-- What an acknowledgement makes of a batch. -/
theorem Effects.ack {rows rows' : Rows} {now : UInt64} {plan plan' : Plan} {rid : Bytes}
    {value : Value} {seq : UInt64} {oc : Option Value} {planned left : Backlog}
    {last : Option Write} (hplan : ∀ mid, applyWrites rows plan.writes = .ok mid →
      Effects S rows plan.writes mid)
    (ha : Acknowledges S rid value seq oc plan plan' planned left last)
    (hguards : ∀ p ∈ plan'.pre, p.Holds rows now)
    (happly : applyWrites rows plan'.writes = .ok rows') : Effects S rows plan'.writes rows' := by
  obtain ⟨observed, hobserved, hplanned⟩ := ha.observed
  have hkey := backlogWrite_key (S := S) left
  have hrowne : rowKey rid ≠ (backlogWrite S left).key := by
    rw [hkey]
    exact outside_backlog.ne_rowKey rid
  have hindexne : indexKey seq rid ≠ (backlogWrite S left).key := by
    rw [hkey]
    exact outside_backlog.ne_indexKey seq rid
  obtain ⟨mid, hmid, rfl, hnone, hlast⟩ := ha.writes.apply (backlogWrite_value left)
    (value?_of_plannedBacklog hplanned) hrowne hindexne happly
  rw [hkey] at hnone hlast ⊢
  have h := hplan mid hmid
  -- The row and its index stand as they were read.
  have hrow : mid.get (rowKey rid) = some value :=
    (applyWrites_get hmid fun w hw => (ha.free w hw).symm).trans (hguards _ ha.row)
  have hindex : Indexed mid seq rid := by
    refine (applyWrites_get hmid fun w hw heq => ?_).trans (hguards _ ha.index)
    obtain ⟨w', hw', hkey'⟩ := h.paired w hw seq rid heq.symm
    exact ha.free w' hw' hkey'
  have hcounter := counterOf_planned hobserved hplanned
    (fun hl => (hnone hl).trans (holds_guardOf.1 (hguards _ ha.snapshot))) hlast
  obtain ⟨hrows, hbytes⟩ := h.accounted.counter.eq_of_decode hcounter
  obtain ⟨hleft, hleftBytes, hzero⟩ := discount_eq_ok ha.discount
  rw [ha.size] at hleftBytes
  -- One row and its bytes leave the counts.
  have hcounts := counts_update_row (S := S) mid rid none
  rw [hrow, Option.elim_some, Option.elim_some, (weight_of_terminal rid ha.terminal).1,
    (weight_of_terminal rid ha.terminal).2] at hcounts
  have herase := counts_update (S := S) (mid.erase (rowKey rid))
    (not_row_indexKey seq rid) none
  have hupdate := counts_update (S := S)
    ((mid.erase (rowKey rid)).erase (indexKey seq rid)) outside_backlog.1 (leftRow S left)
  have hcountRows : rowCount S (((mid.erase (rowKey rid)).erase (indexKey seq rid)).update
      keys.outcomeBacklog (leftRow S left)) = left.rows.toNat := by
    have hindexed : rowCount S ((mid.erase (rowKey rid)).erase (indexKey seq rid)) =
      rowCount S (mid.erase (rowKey rid)) := herase.1
    have hless : rowCount S (mid.erase (rowKey rid)) + 1 = rowCount S mid := hcounts.1
    omega
  have hcountBytes : byteCount S (((mid.erase (rowKey rid)).erase (indexKey seq rid)).update
      keys.outcomeBacklog (leftRow S left)) = left.bytes.toNat := by
    have hindexed : byteCount S ((mid.erase (rowKey rid)).erase (indexKey seq rid)) =
      byteCount S (mid.erase (rowKey rid)) := herase.2
    have hless : byteCount S (mid.erase (rowKey rid)) + ((rowKey rid).length + value.length) =
      byteCount S mid := hcounts.2
    omega
  have hos : (((mid.erase (rowKey rid)).erase (indexKey seq rid)).update keys.outcomeBacklog
      (leftRow S left)).get keys.outboxSequence = mid.get keys.outboxSequence := by
    rw [SortedMap.get_update_of_ne _ _ (by decide),
      SortedMap.get_erase_of_ne _ (outside_sequence.ne_indexKey seq rid).symm,
      SortedMap.get_erase_of_ne _ (outside_sequence.ne_rowKey rid).symm]
  have hsame : SameQueue ((mid.erase (rowKey rid)).erase (indexKey seq rid))
      (((mid.erase (rowKey rid)).erase (indexKey seq rid)).update keys.outcomeBacklog
        (leftRow S left)) :=
    ⟨fun rid' => SortedMap.get_update_of_ne _ _ (outside_backlog.ne_rowKey rid'), fun k hk =>
      SortedMap.get_update_of_ne _ _ fun heq => by
        rw [heq, outside_backlog.2] at hk
        cases hk⟩
  have hqueued := ha.writes.queuedSeqs_eq (hkey ▸ outside_backlog.2)
  refine ⟨⟨?_, ?_⟩, fun w hw seq' rid' heq => ?_, fun rid' value' hv ht => ?_, ?_, ?_, ?_⟩
  · rw [hos]
    exact (h.accounted.queue.acked hindex).congr hsame
  · rw [SortedMap.get_update_self, hcountRows, hcountBytes, leftRow]
    by_cases hr : left.rows = 0
    · rw [if_pos hr, hr, hzero.1 hr]
      exact .inl ⟨rfl, rfl, rfl⟩
    · rw [if_neg hr]
      exact .inr ⟨left, rfl, rfl, rfl⟩
  · obtain ⟨hsubset, hdelete⟩ := ha.writes.subset
    rcases ha.writes.mem hw with hw | rfl | rfl | rfl
    · obtain ⟨w', hw', hkey'⟩ := h.paired w hw seq' rid' heq
      refine ⟨w', hsubset w' hw' ?_, hkey'⟩
      rw [hkey', hkey]
      exact outside_backlog.ne_rowKey rid'
    · rw [hkey] at heq
      exact absurd heq.symm (outside_backlog.ne_indexKey seq' rid')
    · exact absurd heq (rowKey_ne_indexKey rid rid' seq')
    · obtain ⟨-, rfl⟩ := indexKey_inj heq
      exact ⟨_, hdelete, rfl⟩
  · rw [SortedMap.get_update_of_ne _ _ (outside_backlog.ne_rowKey rid'),
      SortedMap.get_erase_of_ne _ (rowKey_ne_indexKey rid' rid seq), SortedMap.get_erase]
    split
    · exact .inr rfl
    · exact h.kept rid' value' hv ht
  · rw [hqueued]
    exact h.ascending
  · rw [hqueued, hos]
    exact h.fresh
  · rw [hos]
    exact h.monotone

end Mkit.Server
