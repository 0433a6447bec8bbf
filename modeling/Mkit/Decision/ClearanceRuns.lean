import Mkit.Decision.Clearance
import Mkit.Lib.Run

/-!
# Runs of Published Clearance

A `Ledger` is what the host keeps for one ref: the publication row, every accepted advance as
it was last recorded, and — as history — the advances the published prefix passed, in the
state they had then, with the components the last deletion left. A step decides clearance on
facts that describe the ledger faithfully and applies the decision.

`published_prefix_safe` is what every run from an empty publication guarantees: the boundary
never passes the prefix nor the prefix the sequence, the prefix never moves back, it passed
publishable advances only, the published components are those of the advance at the prefix or
the ones a deletion left, and what a deletion cut off is never published again.
-/

namespace Mkit.Decision

/-- Cleared, or resolved with the takedown complete; not flagged; every obligation
publishable. -/
structure ClearanceAdvance.Publishable (a : ClearanceAdvance) : Prop where
  state : a.state = .cleared ∨ a.state = .resolved ∧ a.takedownComplete = true
  unflagged : a.flagged = false
  obligations : ∀ state ∈ a.obligations, state.publishable = true

/-- What the host keeps for one ref. -/
structure Ledger where
  generation : UInt64
  sequence : UInt64
  publishedPrefix : UInt64
  deletionBoundary : UInt64
  head : Option Hash
  packmap : Option Hash
  /-- The accepted advances, as last recorded. -/
  retained : List ClearanceAdvance
  /-- The advances the published prefix passed, as they were when it did. -/
  passed : List ClearanceAdvance
  /-- The head and packmap the last deletion left. -/
  survivors : Option Hash × Option Hash

namespace Ledger

/-- A publication that has accepted nothing. -/
def empty (generation : UInt64) : Ledger :=
  ⟨generation, 0, 0, 0, none, none, [], [], (none, none)⟩

/-- The publication row, at the revision it was observed. -/
def prior (s : Ledger) (revision : Revision) : PriorPublication :=
  ⟨s.generation, s.sequence, s.publishedPrefix, s.deletionBoundary, s.head, s.packmap, revision⟩

/-- The rows with `changed` in the place of the advance it is a new version of. -/
def substitute (changed : ClearanceAdvance) (rows : List ClearanceAdvance) :
    List ClearanceAdvance :=
  rows.map fun row => if row.sequence = changed.sequence then changed else row

/-- Facts that describe a ledger: its publication row, and at a recheck the advances past the
published prefix with the changed one substituted. -/
structure Faithful (s : Ledger) (facts : ClearanceFacts) : Prop where
  prior : facts.prior = s.prior facts.prior.revision
  suffix : facts.moment = .recheck → facts.suffix = substitute facts.changed
    (s.retained.filter fun row => decide (s.publishedPrefix < row.sequence))

/-- The rows after a decision: an acceptance appends the advance, a recheck records its new
version. -/
def recorded (s : Ledger) (facts : ClearanceFacts) : List ClearanceAdvance :=
  match facts.moment with
  | .acceptance => s.retained ++ [facts.changed]
  | .recheck => substitute facts.changed s.retained

/-- The last accepted sequence after a decision. -/
def accepted (s : Ledger) (facts : ClearanceFacts) : UInt64 :=
  match facts.moment with
  | .acceptance => facts.changed.sequence
  | .recheck => s.sequence

/-- Apply a decision. -/
def apply (s : Ledger) (facts : ClearanceFacts) : ClearanceDecision → Ledger
  | .retain _ => { s with sequence := s.accepted facts, retained := s.recorded facts }
  | .advancePrefix publishedPrefix head packmap deletionBoundary =>
    { generation := s.generation
      sequence := s.accepted facts
      publishedPrefix := publishedPrefix
      deletionBoundary := deletionBoundary
      head := head
      packmap := packmap
      retained := s.recorded facts
      passed :=
        if facts.deleted then s.passed
        else s.passed ++ (s.recorded facts).filter fun row =>
          decide (s.publishedPrefix < row.sequence ∧ row.sequence ≤ publishedPrefix)
      survivors :=
        if facts.deleted then
          (if facts.changed.head.isSome then s.head else none,
            if facts.changed.packmap.isSome then s.packmap else none)
        else s.survivors }

/-- One decision on faithful facts, applied. -/
def Step (B : Blake3) (s : Ledger) (facts : ClearanceFacts) (s' : Ledger) : Prop :=
  s.Faithful facts ∧ ∃ limits guarded, decideClearance B facts limits = .ok guarded ∧
    s' = s.apply facts guarded.decision

variable {B : Blake3} {s : Ledger} {d : ClearanceDecision}

theorem step_of_clearance {facts : ClearanceFacts}
    {limits : ClearanceLimits} (hfaithful : s.Faithful facts)
    (h : clearance facts limits = .ok d) : Step B s facts (s.apply facts d) := by
  refine ⟨hfaithful, limits, ⟨facts.repository, d, facts.guards B⟩, ?_, rfl⟩
  rw [decideClearance, h]
  rfl

/-! ### What one decision can be -/

theorem optionAnd_eq {α : Type} (a b : Option α) :
    optionAnd a b = if a.isSome then b else none := by
  cases a <;> rfl

/-- Eligibility of a publishable state is publishability. -/
theorem publishable_of_ready {facts : ClearanceFacts} (h : ready facts = .ok true) :
    facts.changed.Publishable := by
  rw [ready] at h
  split_ifs at h with hstate
  · rw [eligible] at h
    split_ifs at h with hlocal htakedown
    · cases h
    · cases h
    · rw [Bool.or_eq_true, not_or, Bool.not_eq_true, Bool.not_eq_true, Bool.not_eq_false'] at hlocal
      refine ⟨?_, hlocal.1, List.all_eq_true.1 hlocal.2⟩
      cases hs : facts.changed.state with
      | cleared => exact .inl rfl
      | resolved => exact .inr ⟨rfl, by simpa [hs] using htakedown⟩
      | _ => rw [hs] at hstate; cases hstate
  · cases h

/-- The local facts of a retained advance are publishability. -/
theorem publishable_of_local {record : ClearanceAdvance}
    (h : locallyPublishable record = true) : record.Publishable := by
  simp only [locallyPublishable, Bool.and_eq_true, Bool.not_eq_true', Bool.or_eq_true,
    decide_eq_true_eq] at h
  obtain ⟨⟨⟨hstate, hflagged⟩, hobligations⟩, htakedown⟩ := h
  refine ⟨?_, hflagged, List.all_eq_true.1 hobligations⟩
  cases hs : record.state with
  | cleared => exact .inl rfl
  | resolved => exact .inr ⟨rfl, htakedown.resolve_left (by simp [hs])⟩
  | _ => rw [hs] at hstate; cases hstate

/-- A record of a faithful suffix is reduced to its own components, and a publishable step is
a publishable record. -/
theorem prefixStep_eq_ok {facts : ClearanceFacts} {record : ClearanceAdvance}
    {step : PrefixStep} (hown : record.sequence = facts.changed.sequence → record = facts.changed)
    (h : prefixStep facts record = .ok step) :
    step.sequence = record.sequence ∧ step.head = record.head ∧ step.packmap = record.packmap ∧
      (step.publishable = true → record.Publishable) := by
  simp only [prefixStep, Wire.bind_eq_ok] at h
  obtain ⟨publishable, hp, h⟩ := h
  obtain rfl := Except.ok.inj h
  refine ⟨rfl, rfl, rfl, fun hpub => ?_⟩
  obtain rfl : publishable = true := hpub
  rw [recordPublishable] at hp
  split_ifs at hp with hchanged
  · rw [hown hchanged]
    exact publishable_of_ready hp
  · exact publishable_of_local (Except.ok.inj hp)

variable {l : List ClearanceAdvance}

/-- The walk over the suffix stops after an initial run of publishable records, at the
components of the last one. -/
theorem contiguousPrefix_eq {facts : ClearanceFacts} {steps : List PrefixStep}
    (hown : ∀ a ∈ l, a.sequence = facts.changed.sequence → a = facts.changed)
    (h : l.mapM (prefixStep facts) = .ok steps) (p : UInt64) (head packmap : Option Hash) :
    ∃ run, run <+: l ∧ (∀ a ∈ run, a.Publishable) ∧
      contiguousPrefix p head packmap steps =
        run.getLast?.elim (p, head, packmap) fun a => (a.sequence, a.head, a.packmap) := by
  induction l generalizing steps p head packmap with
  | nil =>
    obtain rfl := Except.ok.inj h
    exact ⟨[], List.nil_prefix, by simp, rfl⟩
  | cons a l ih =>
    rw [List.mapM_cons] at h
    simp only [Wire.bind_eq_ok] at h
    obtain ⟨step, ha, rest, hl, h⟩ := h
    obtain rfl := Except.ok.inj h
    obtain ⟨hseq, hhead, hpackmap, hpub⟩ := prefixStep_eq_ok (hown a List.mem_cons_self) ha
    cases hstep : step.publishable with
    | false => exact ⟨[], List.nil_prefix, by simp, by simp [contiguousPrefix, hstep]⟩
    | true =>
      obtain ⟨run, hrun, hall, heq⟩ :=
        ih (fun b hb => hown b (List.mem_cons_of_mem a hb)) hl a.sequence a.head a.packmap
      refine ⟨a :: run, List.cons_prefix_cons.2 ⟨rfl, hrun⟩,
        List.forall_mem_cons.2 ⟨hpub hstep, hall⟩, ?_⟩
      rw [contiguousPrefix, hstep, hseq, hhead, hpackmap, List.getLast?_cons]
      rw [Bool.not_true, if_neg (by simp), heq]
      cases run.getLast? <;> rfl

/-! ### The rows of a ledger -/

theorem sequences_substitute (changed : ClearanceAdvance) (rows : List ClearanceAdvance) :
    sequences (substitute changed rows) = sequences rows := by
  rw [sequences, sequences, substitute, List.map_map]
  refine List.map_congr_left fun row _ => ?_
  rw [Function.comp_apply]
  split_ifs with h
  · rw [h]
  · rfl

/-- Substituting a row keeps its sequence, so it commutes with a selection by sequence. -/
theorem filter_substitute (changed : ClearanceAdvance) (rows : List ClearanceAdvance)
    (select : UInt64 → Bool) : (substitute changed rows).filter (fun row => select row.sequence) =
      substitute changed (rows.filter fun row => select row.sequence) := by
  rw [substitute, substitute, List.filter_map]
  congr 1
  refine List.filter_congr fun row _ => ?_
  rw [Function.comp_apply]
  split_ifs with h
  · rw [h]
  · rfl

variable {p m : ℕ}

/-- Of consecutive advances, those up to a sequence are the first ones. -/
theorem filter_le_eq_take
    (h : sequences l = List.range' (p + 1) m) {q : UInt64} {k : ℕ} (hq : q.toNat = p + k) :
    l.filter (fun a => decide (a.sequence ≤ q)) = l.take k := by
  have hlow : ∀ a ∈ l.take k, a.sequence ≤ q := by
    intro a ha
    have hmem : a.sequence.toNat ∈ (sequences l).take k := by
      rw [sequences, ← List.map_take]
      exact List.mem_map_of_mem ha
    have hk : a.sequence.toNat < p + 1 + k := by
      rcases le_total k m with hkm | hkm
      · rw [h, List.take_range'_of_length_ge hkm, List.mem_range'_1] at hmem
        exact hmem.2
      · rw [h, List.take_range'_of_length_le hkm, List.mem_range'_1] at hmem
        omega
    rw [UInt64.le_iff_toNat_le]
    omega
  have hhigh : ∀ a ∈ l.drop k, ¬ a.sequence ≤ q := by
    intro a ha
    have hmem : a.sequence.toNat ∈ (sequences l).drop k := by
      rw [sequences, ← List.map_drop]
      exact List.mem_map_of_mem ha
    rw [h, List.drop_range', List.mem_range'_1] at hmem
    rw [UInt64.le_iff_toNat_le]
    omega
  conv_lhs => rw [← List.take_append_drop k l]
  rw [List.filter_append, List.filter_eq_self.2 fun a ha => decide_eq_true (hlow a ha),
    List.filter_eq_nil_iff.2 fun a ha => by simpa using hhigh a ha, List.append_nil]

/-- What one step does to the publication: it keeps it, moves the prefix over publishable
advances, or cuts it off at a deletion. -/
inductive Moved (s s' : Ledger) : Prop
  | kept (hsequence : s.sequence.toNat ≤ s'.sequence.toNat)
      (hpublished : s'.publishedPrefix = s.publishedPrefix)
      (hboundary : s'.deletionBoundary = s.deletionBoundary)
      (hhead : s'.head = s.head) (hpackmap : s'.packmap = s.packmap)
      (hpassed : s'.passed = s.passed) (hsurvivors : s'.survivors = s.survivors)
  | advanced (new : List ClearanceAdvance) (last : ClearanceAdvance)
      (hnew : sequences new = List.range' (s.publishedPrefix.toNat + 1) new.length)
      (hall : ∀ a ∈ new, a.Publishable) (hlast : new.getLast? = some last)
      (hpublished : s'.publishedPrefix = last.sequence)
      (hsequence : s'.publishedPrefix.toNat ≤ s'.sequence.toNat)
      (hboundary : s'.deletionBoundary = s.deletionBoundary)
      (hhead : s'.head = last.head) (hpackmap : s'.packmap = last.packmap)
      (hpassed : s'.passed = s.passed ++ new) (hsurvivors : s'.survivors = s.survivors)
  | deleted (hsequence : s'.sequence.toNat = s.sequence.toNat + 1)
      (hpublished : s'.publishedPrefix = s'.sequence)
      (hboundary : s'.deletionBoundary = s'.sequence)
      (hvalue : (s'.head, s'.packmap) = s'.survivors) (hpassed : s'.passed = s.passed)

/-- The rows of a ledger are its accepted advances, in order. -/
def Rows (s : Ledger) : Prop :=
  sequences s.retained = List.range' 1 s.sequence.toNat

/-- Both kinds of decision leave the rows of the moment. -/
theorem rows_apply {facts : ClearanceFacts}
    (h : sequences (s.recorded facts) = List.range' 1 (s.accepted facts).toNat)
    (d : ClearanceDecision) : (s.apply facts d).Rows := by
  cases d <;> exact h

/-- The first of consecutive advances are consecutive. -/
theorem sequences_of_prefix {run : List ClearanceAdvance} (hrun : run <+: l)
    (h : sequences l = List.range' p m) : sequences run = List.range' p run.length := by
  obtain ⟨rest, rfl⟩ := hrun
  have hlen : m = run.length + rest.length := by
    simpa [sequences] using (congrArg List.length h).symm
  have htake := congrArg (List.take run.length) h
  rw [sequences, List.map_append, List.take_left' (by simp),
    List.take_range'_of_length_ge (by omega)] at htake
  exact htake

/-- The last of consecutive advances carries the last sequence. -/
theorem sequence_of_getLast? {run : List ClearanceAdvance} {last : ClearanceAdvance}
    (h : sequences run = List.range' (p + 1) run.length) (hlast : run.getLast? = some last) :
    last.sequence.toNat = p + run.length := by
  have hseq := congrArg List.getLast? h
  rw [sequences, List.getLast?_map, hlast, List.getLast?_range'] at hseq
  have hpos : run.length ≠ 0 := by
    intro hnil
    rw [List.length_eq_zero_iff.1 hnil] at hlast
    cases hlast
  rw [if_neg hpos, Option.map_some, Option.some.injEq] at hseq
  omega

theorem rows_append (h : s.Rows) {a : ClearanceAdvance}
    (ha : a.sequence.toNat = s.sequence.toNat + 1) :
    sequences (s.retained ++ [a]) = List.range' 1 a.sequence.toNat := by
  rw [sequences, List.map_append, ← sequences, h, ha, List.range'_1_concat, List.map_singleton,
    ha, Nat.add_comm]

/-- An acceptance records the next advance; it publishes it when the prefix was complete. -/
theorem moved_of_acceptance {facts : ClearanceFacts}
    (hrows : s.Rows) (hle : s.publishedPrefix ≤ s.sequence) (hfaithful : s.Faithful facts)
    (hmoment : facts.moment = .acceptance) (hdeleted : facts.deleted = false)
    (h : acceptance facts = .ok d) : (s.apply facts d).Rows ∧ s.Moved (s.apply facts d) := by
  simp only [acceptance, Wire.bind_eq_ok, refuseIf_eq_ok, okOr_eq_ok,
    Words.checkedAdd_eq_some, not_or, not_not] at h
  obtain ⟨sequence, hsequence, -, ⟨rfl, -⟩, isReady, hready, h⟩ := h
  rw [hfaithful.prior] at hsequence
  have hnext : facts.changed.sequence.toNat = s.sequence.toNat + 1 := hsequence
  have hrecorded : s.recorded facts = s.retained ++ [facts.changed] := by
    rw [recorded, hmoment]
  have haccepted : s.accepted facts = facts.changed.sequence := by
    rw [accepted, hmoment]
  refine ⟨rows_apply (by rw [hrecorded, haccepted, rows_append hrows hnext]) d, ?_⟩
  obtain rfl := Except.ok.inj h
  split_ifs with hmoves
  · obtain ⟨rfl, hsum⟩ := hmoves
    have hfull : s.publishedPrefix.toNat = s.sequence.toNat := by
      have hsat := congrArg UInt64.toNat hsum
      rw [Words.toNat_saturatingAdd, hfaithful.prior] at hsat
      have hlt := facts.changed.sequence.toNat_lt
      have hle' := UInt64.le_iff_toNat_le.1 hle
      change min (s.publishedPrefix.toNat + 1) _ = _ at hsat
      omega
    have hboundary : facts.prior.deletionBoundary = s.deletionBoundary := by
      rw [hfaithful.prior]
      rfl
    have hpassed : (s.recorded facts).filter (fun row => decide (s.publishedPrefix < row.sequence ∧
        row.sequence ≤ facts.changed.sequence)) = [facts.changed] := by
      have hold : ∀ row ∈ s.retained, ¬ s.publishedPrefix < row.sequence := by
        intro row hrow
        have hmem : row.sequence.toNat ∈ sequences s.retained := List.mem_map_of_mem hrow
        rw [hrows, List.mem_range'_1] at hmem
        rw [UInt64.lt_iff_toNat_lt]
        omega
      rw [hrecorded, List.filter_append,
        List.filter_eq_nil_iff.2 fun row hrow => by simp [hold row hrow], List.nil_append]
      refine List.filter_eq_self.2 ?_
      simp only [List.mem_singleton, decide_eq_true_eq, forall_eq, UInt64.lt_iff_toNat_lt,
        UInt64.le_refl, and_true]
      omega
    refine .advanced [facts.changed] facts.changed ?_ ?_ rfl rfl ?_ hboundary rfl rfl ?_ ?_
    · simp [sequences, hnext, hfull]
    · simpa using publishable_of_ready hready
    · simp [apply, haccepted]
    · simp only [apply, hdeleted, hpassed]
      rfl
    · simp [apply, hdeleted]
  · refine .kept ?_ rfl rfl rfl rfl rfl rfl
    rw [retain, apply, haccepted]
    change s.sequence.toNat ≤ facts.changed.sequence.toNat
    omega

/-- A recheck records the new version of a retained advance and publishes an initial run of
the suffix. -/
theorem moved_of_recheck {facts : ClearanceFacts} {limits : ClearanceLimits}
    (hrows : s.Rows) (hle : s.publishedPrefix ≤ s.sequence)
    (hfaithful : s.Faithful facts) (hvalid : ExpectedSuffix facts limits)
    (hmoment : facts.moment = .recheck) (hdeleted : facts.deleted = false)
    (h : recheck facts = .ok d) : (s.apply facts d).Rows ∧ s.Moved (s.apply facts d) := by
  have hrecorded : s.recorded facts = substitute facts.changed s.retained := by
    rw [recorded, hmoment]
  have haccepted : s.accepted facts = s.sequence := by
    rw [accepted, hmoment]
  refine ⟨rows_apply (by rw [hrecorded, haccepted, sequences_substitute, hrows]) d, ?_⟩
  simp only [recheck, Wire.bind_eq_ok, refuseIf_eq_ok] at h
  obtain ⟨-, -, -, -, isReady, -, -, -, steps, hsteps, h⟩ := h
  have hsuffix := hfaithful.suffix hmoment
  have hown : ∀ a ∈ facts.suffix, a.sequence = facts.changed.sequence → a = facts.changed := by
    intro a ha hseq
    rw [hsuffix, substitute] at ha
    obtain ⟨row, -, rfl⟩ := List.mem_map.1 ha
    split_ifs at hseq ⊢ with hrow
    · rfl
    · exact absurd hseq hrow
  obtain ⟨run, hrun, hall, hreached⟩ := contiguousPrefix_eq hown hsteps
    facts.prior.publishedPrefix facts.prior.head facts.prior.packmap
  rw [hreached] at h
  obtain rfl := Except.ok.inj h
  have hpublished : facts.prior.publishedPrefix = s.publishedPrefix := by
    rw [hfaithful.prior]
    rfl
  cases hlast : run.getLast? with
  | none =>
    rw [Option.elim_none, if_pos rfl]
    refine .kept ?_ rfl rfl rfl rfl rfl rfl
    rw [retain, apply, haccepted]
  | some last =>
    have hnew := sequences_of_prefix hrun hvalid.sequences_eq
    rw [hpublished] at hnew
    have hseq := sequence_of_getLast? hnew hlast
    have hpos : run ≠ [] := by
      rintro rfl
      cases hlast
    have hlen := List.length_pos_iff.2 hpos
    have hne : last.sequence ≠ facts.prior.publishedPrefix := by
      intro heq
      rw [heq, hpublished] at hseq
      omega
    rw [Option.elim_some, if_neg hne]
    have hpassed : (s.recorded facts).filter (fun row =>
        decide (s.publishedPrefix < row.sequence ∧ row.sequence ≤ last.sequence)) = run := by
      have htake := filter_le_eq_take hvalid.sequences_eq (hpublished ▸ hseq)
      rw [List.prefix_iff_eq_take.1 hrun, ← htake, hsuffix, hrecorded,
        ← filter_substitute _ _ fun q => decide (s.publishedPrefix < q), List.filter_filter]
      refine List.filter_congr fun row _ => ?_
      rw [Bool.and_comm, Bool.decide_and]
    refine .advanced run last hnew hall hlast rfl ?_ ?_ rfl rfl ?_ ?_
    · have hbound : run.length ≤ facts.suffix.length := hrun.length_le
      have hall := congrArg List.length hvalid.sequences_eq
      rw [sequences, List.length_map, List.length_range', hpublished] at hall
      have hprior : facts.prior.sequence = s.sequence := by
        rw [hfaithful.prior]
        rfl
      rw [hprior] at hall
      have hle' := UInt64.le_iff_toNat_le.1 hle
      simp only [apply, haccepted]
      omega
    · rw [hfaithful.prior]
      rfl
    · simp only [apply, hdeleted, hpassed]
      rfl
    · simp [apply, hdeleted]

/-- A deletion cuts the publication off at the next sequence. -/
theorem moved_of_deletion {facts : ClearanceFacts}
    (hrows : s.Rows) (hfaithful : s.Faithful facts) (hmoment : facts.moment = .acceptance)
    (hdeleted : facts.deleted = true) (h : deletion facts = .ok d) :
    (s.apply facts d).Rows ∧ s.Moved (s.apply facts d) := by
  simp only [deletion, Wire.bind_eq_ok, refuseIf_eq_ok, okOr_eq_ok, Words.checkedAdd_eq_some,
    not_not] at h
  obtain ⟨sequence, hsequence, -, rfl, h⟩ := h
  rw [hfaithful.prior] at hsequence
  have hnext : facts.changed.sequence.toNat = s.sequence.toNat + 1 := hsequence
  have hrecorded : s.recorded facts = s.retained ++ [facts.changed] := by
    rw [recorded, hmoment]
  have haccepted : s.accepted facts = facts.changed.sequence := by
    rw [accepted, hmoment]
  refine ⟨rows_apply (by rw [hrecorded, haccepted, rows_append hrows hnext]) d, ?_⟩
  obtain rfl := Except.ok.inj h
  refine .deleted ?_ ?_ ?_ ?_ ?_
  · simp only [apply, haccepted, hnext]
  · simp only [apply, haccepted]
  · simp only [apply, haccepted]
  · rw [hfaithful.prior]
    simp only [apply, hdeleted, if_true, optionAnd_eq]
    rfl
  · simp only [apply, hdeleted, if_true]

/-- A deletion is never decided at a recheck: its advance is the next one, and the suffix of a
recheck holds only accepted ones. -/
theorem deletion_of_recheck {facts : ClearanceFacts} {limits : ClearanceLimits}
    (hvalid : ExpectedSuffix facts limits) (hle : facts.prior.publishedPrefix ≤ facts.prior.sequence)
    (d : ClearanceDecision) : deletion facts ≠ .ok d := by
  intro h
  simp only [deletion, Wire.bind_eq_ok, refuseIf_eq_ok, okOr_eq_ok, Words.checkedAdd_eq_some,
    not_not] at h
  obtain ⟨sequence, hsequence, -, rfl, -⟩ := h
  obtain ⟨a, ha, hseq⟩ := hvalid.changed
  have hmem : a.sequence.toNat ∈ sequences facts.suffix := List.mem_map_of_mem ha
  rw [hvalid.sequences_eq, List.mem_range'_1, hseq, hsequence] at hmem
  have hle' := UInt64.le_iff_toNat_le.1 hle
  have hone : (1 : UInt64).toNat = 1 := rfl
  omega

variable {s' : Ledger}

/-- The cases of one step. -/
theorem moved_of_step {facts : ClearanceFacts} (hrows : s.Rows)
    (hle : s.publishedPrefix ≤ s.sequence) (h : Step B s facts s') : s'.Rows ∧ s.Moved s' := by
  obtain ⟨hfaithful, limits, guarded, hdecide, rfl⟩ := h
  simp only [decideClearance, clearance, Wire.bind_eq_ok] at hdecide
  obtain ⟨d, ⟨⟨⟩, hvalid, hd⟩, hguarded⟩ := hdecide
  obtain rfl := Except.ok.inj hguarded
  have hvalid := validate_eq_ok hvalid
  cases hdeleted : facts.deleted with
  | true =>
    rw [if_pos hdeleted] at hd
    cases hmoment : facts.moment with
    | acceptance => exact moved_of_deletion hrows hfaithful hmoment hdeleted hd
    | recheck =>
      exact absurd hd (deletion_of_recheck (hvalid.suffix hmoment) hvalid.prefix_le d)
  | false =>
    rw [if_neg (by simp [hdeleted])] at hd
    cases hmoment : facts.moment with
    | acceptance =>
      rw [if_pos hmoment] at hd
      exact moved_of_acceptance hrows hle hfaithful hmoment hdeleted hd
    | recheck =>
      rw [if_neg (by simp [hmoment])] at hd
      exact moved_of_recheck hrows hle hfaithful (hvalid.suffix hmoment) hmoment hdeleted hd

/-! ### Whole runs -/

/-- What holds of a ledger at any time. -/
structure Wf (s : Ledger) : Prop where
  rows : s.Rows
  published_le : s.publishedPrefix ≤ s.sequence
  boundary_le : s.deletionBoundary ≤ s.publishedPrefix
  /-- The prefix passed every advance between the boundary and itself. -/
  covered : ∀ n : UInt64, s.deletionBoundary < n → n ≤ s.publishedPrefix →
    ∃ a ∈ s.passed, a.sequence = n
  publishable : ∀ a ∈ s.passed, a.Publishable
  value : s.publishedPrefix = s.deletionBoundary ∧ (s.head, s.packmap) = s.survivors ∨
    ∃ a ∈ s.passed, a.sequence = s.publishedPrefix ∧ s.head = a.head ∧ s.packmap = a.packmap

theorem wf_empty (generation : UInt64) : (empty generation).Wf where
  rows := rfl
  published_le := UInt64.le_refl 0
  boundary_le := UInt64.le_refl 0
  covered := fun n hn hn' => absurd (UInt64.lt_of_lt_of_le hn hn') (UInt64.lt_irrefl 0)
  publishable := by simp [empty]
  value := .inl ⟨rfl, rfl⟩

/-- A consecutive sequence is among the consecutive advances. -/
theorem exists_mem_of_sequences
    (h : sequences l = List.range' p m) {n : UInt64} (hn : p ≤ n.toNat) (hn' : n.toNat < p + m) :
    ∃ a ∈ l, a.sequence = n := by
  have hmem : n.toNat ∈ sequences l := by
    rw [h, List.mem_range'_1]
    exact ⟨hn, hn'⟩
  obtain ⟨a, ha, hseq⟩ := List.mem_map.1 hmem
  exact ⟨a, ha, UInt64.toNat_inj.1 hseq⟩

/-- A move keeps the invariant. -/
theorem Wf.moved (hwf : s.Wf) (hrows : s'.Rows) (h : s.Moved s') : s'.Wf := by
  have hpublished_le := UInt64.le_iff_toNat_le.1 hwf.published_le
  have hboundary_le := UInt64.le_iff_toNat_le.1 hwf.boundary_le
  cases h with
  | kept hsequence hpublished hboundary hhead hpackmap hpassed hsurvivors =>
    refine ⟨hrows, ?_, ?_, ?_, ?_, ?_⟩
    · rw [UInt64.le_iff_toNat_le, hpublished]
      omega
    · rw [hpublished, hboundary]
      exact hwf.boundary_le
    · rw [hpublished, hboundary, hpassed]
      exact hwf.covered
    · rw [hpassed]
      exact hwf.publishable
    · rw [hpublished, hboundary, hpassed, hhead, hpackmap, hsurvivors]
      exact hwf.value
  | advanced new last hnew hall hlast hpublished hsequence hboundary hhead hpackmap hpassed
      hsurvivors =>
      have hseq := sequence_of_getLast? hnew hlast
      have hmem : last ∈ new := List.mem_of_getLast? hlast
      refine ⟨hrows, UInt64.le_iff_toNat_le.2 hsequence, ?_, fun n hn hn' => ?_, ?_, .inr ?_⟩
      · rw [UInt64.le_iff_toNat_le, hpublished, hboundary]
        omega
      · rw [hpassed]
        rw [hboundary] at hn
        rw [hpublished, UInt64.le_iff_toNat_le, hseq] at hn'
        -- An advance past the old prefix is one of the new ones.
        by_cases hold : n ≤ s.publishedPrefix
        · obtain ⟨a, ha, han⟩ := hwf.covered n hn hold
          exact ⟨a, List.mem_append_left new ha, han⟩
        · rw [UInt64.not_le, UInt64.lt_iff_toNat_lt] at hold
          obtain ⟨a, ha, han⟩ := exists_mem_of_sequences hnew (n := n) (by omega) (by omega)
          exact ⟨a, List.mem_append_right s.passed ha, han⟩
      · rw [hpassed]
        exact List.forall_mem_append.2 ⟨hwf.publishable, hall⟩
      · rw [hpassed]
        exact ⟨last, List.mem_append_right s.passed hmem, hpublished.symm, hhead, hpackmap⟩
  | deleted hsequence hpublished hboundary hvalue hpassed =>
    refine ⟨hrows, ?_, ?_, fun n hn hn' => ?_, ?_, .inl ⟨?_, hvalue⟩⟩
    · rw [hpublished]
      exact UInt64.le_refl _
    · rw [hpublished, hboundary]
      exact UInt64.le_refl _
    · rw [hboundary] at hn
      rw [hpublished] at hn'
      exact absurd (UInt64.lt_of_lt_of_le hn hn') (UInt64.lt_irrefl _)
    · rw [hpassed]
      exact hwf.publishable
    · rw [hpublished, hboundary]

theorem Wf.step {facts : ClearanceFacts} (hwf : s.Wf) (h : Step B s facts s') : s'.Wf := by
  obtain ⟨hrows, hmoved⟩ := moved_of_step hwf.rows hwf.published_le h
  exact hwf.moved hrows hmoved

variable {tr : List ClearanceFacts}

theorem wf_of_run (hwf : s.Wf) (h : Lts.Run (Step B) s tr s') : s'.Wf :=
  h.invariant (I := fun _ t => t.Wf) hwf fun _ _ _ _ ht hstep => ht.step hstep

/-- What is published later than a state: nothing is taken back, and nothing at or below the
published prefix of that state is added. -/
structure Later (s s' : Ledger) : Prop where
  published_le : s.publishedPrefix ≤ s'.publishedPrefix
  passed : ∃ new, s'.passed = s.passed ++ new ∧ ∀ a ∈ new, s.publishedPrefix < a.sequence

theorem Later.moved {t t' : Ledger} (h : s.Later t) (hwf : t.Wf) (hmoved : t.Moved t') :
    s.Later t' := by
  obtain ⟨hle, old, hold, hafter⟩ := h
  have hpublished_le := UInt64.le_iff_toNat_le.1 hwf.published_le
  have hle' := UInt64.le_iff_toNat_le.1 hle
  cases hmoved with
  | kept hsequence hpublished hboundary hhead hpackmap hpassed hsurvivors =>
    exact ⟨hpublished ▸ hle, old, hpassed.trans hold, hafter⟩
  | advanced new last hnew hall hlast hpublished hsequence hboundary hhead hpackmap hpassed
      hsurvivors =>
      have hseq := sequence_of_getLast? hnew hlast
      refine ⟨?_, old ++ new, ?_, List.forall_mem_append.2 ⟨hafter, fun a ha => ?_⟩⟩
      · rw [UInt64.le_iff_toNat_le, hpublished]
        omega
      · rw [hpassed, hold, List.append_assoc]
      · have hmem : a.sequence.toNat ∈ sequences new := List.mem_map_of_mem ha
        rw [hnew, List.mem_range'_1] at hmem
        rw [UInt64.lt_iff_toNat_lt]
        omega
  | deleted hsequence hpublished hboundary hvalue hpassed =>
    refine ⟨?_, old, hpassed.trans hold, hafter⟩
    rw [UInt64.le_iff_toNat_le, hpublished]
    omega

theorem later_of_run (hwf : s.Wf) (h : Lts.Run (Step B) s tr s') : s.Later s' := by
  refine (h.invariant (I := fun _ t => t.Wf ∧ s.Later t) ⟨hwf, UInt64.le_refl _, [], by simp⟩
    fun _ t _ t' ht hstep => ?_).2
  obtain ⟨hrows, hmoved⟩ := moved_of_step ht.1.rows ht.1.published_le hstep
  exact ⟨ht.1.moved hrows hmoved, ht.2.moved ht.1 hmoved⟩

/-- **Published prefix safety.** In every run from an empty publication: the deletion boundary
is at or below the published prefix, and the prefix at or below the sequence; every advance
between boundary and prefix was passed, and whatever was passed was publishable then; the
published head and packmap are those of the advance at the prefix or the ones the last
deletion left; and however the run goes on, the prefix never decreases and nothing at or below
the boundary is published. -/
theorem published_prefix_safe {B : Blake3} {generation : UInt64} {tr : List ClearanceFacts}
    {s : Ledger} (h : Lts.Run (Step B) (empty generation) tr s) :
    s.deletionBoundary ≤ s.publishedPrefix ∧ s.publishedPrefix ≤ s.sequence ∧
      (∀ n, s.deletionBoundary < n → n ≤ s.publishedPrefix → ∃ a ∈ s.passed, a.sequence = n) ∧
      (∀ a ∈ s.passed, a.Publishable) ∧
      (s.publishedPrefix = s.deletionBoundary ∧ (s.head, s.packmap) = s.survivors ∨
        ∃ a ∈ s.passed, a.sequence = s.publishedPrefix ∧ s.head = a.head ∧
          s.packmap = a.packmap) ∧
      ∀ tr' s', Lts.Run (Step B) s tr' s' → s.publishedPrefix ≤ s'.publishedPrefix ∧
        ∃ new, s'.passed = s.passed ++ new ∧ ∀ a ∈ new, s.deletionBoundary < a.sequence := by
  have hwf := wf_of_run (wf_empty generation) h
  refine ⟨hwf.boundary_le, hwf.published_le, hwf.covered, hwf.publishable, hwf.value,
    fun tr' s' h' => ?_⟩
  obtain ⟨hle, new, hnew, hafter⟩ := later_of_run hwf h'
  exact ⟨hle, new, hnew, fun a ha => UInt64.lt_of_le_of_lt hwf.boundary_le (hafter a ha)⟩

/-- An advance of the sample run: its components are named after its sequence. -/
def sampleAdvance (sequence : UInt64) (state : ClearanceState) : ClearanceAdvance where
  sequence := sequence
  generation := 7
  operation := ZERO
  head := some (ByteArr.fill HASH_LEN sequence.toUInt8)
  packmap := none
  state := state
  additions := []
  dependencies := []
  externalSuppliers := []
  obligations := []
  obligationRevisions := []
  takedownComplete := false
  flagged := false
  revision := ZERO

/-- The facts of one decision of the sample run. -/
def sampleFacts (s : Ledger) (moment : ClearanceMoment) (changed : ClearanceAdvance)
    (deleted : Bool) : ClearanceFacts where
  repository := ZERO
  moment := moment
  prior := s.prior ZERO
  changed := changed
  previousState := .pending
  suffix := match moment with
    | .acceptance => []
    | .recheck => substitute changed
        (s.retained.filter fun row => decide (s.publishedPrefix < row.sequence))
  witnesses := []
  lifecycle := .notOffered
  deleted := deleted

theorem faithful_sampleFacts (s : Ledger) (moment : ClearanceMoment)
    (changed : ClearanceAdvance) (deleted : Bool) :
    s.Faithful (sampleFacts s moment changed deleted) where
  prior := rfl
  suffix := by
    intro hmoment
    obtain rfl : moment = .recheck := hmoment
    rfl

/-- A pending advance, a cleared one behind it, the clearing of the first, and a deletion. -/
def sampleDecisions : List (ClearanceMoment × ClearanceAdvance × Bool) :=
  [(.acceptance, sampleAdvance 1 .pending, false), (.acceptance, sampleAdvance 2 .cleared, false),
    (.recheck, sampleAdvance 1 .cleared, false), (.acceptance, sampleAdvance 3 .pending, true)]

/-- Decide and apply the sample decisions one after the other. -/
def sampleRun : Ledger → List (ClearanceMoment × ClearanceAdvance × Bool) → Option Ledger
  | s, [] => some s
  | s, (moment, changed, deleted) :: rest =>
    match clearance (sampleFacts s moment changed deleted) ⟨64, 4096, 1024⟩ with
    | .ok d => sampleRun (s.apply (sampleFacts s moment changed deleted) d) rest
    | .error _ => none

theorem run_of_sampleRun {s₀ : Ledger}
    {ds : List (ClearanceMoment × ClearanceAdvance × Bool)} (h₀ : Lts.Run (Step B) s₀ tr s)
    (h : sampleRun s ds = some s') : ∃ tr', Lts.Run (Step B) s₀ tr' s' := by
  induction ds generalizing s tr with
  | nil =>
    obtain rfl := Option.some.inj h
    exact ⟨tr, h₀⟩
  | cons c ds ih =>
    obtain ⟨moment, changed, deleted⟩ := c
    rw [sampleRun] at h
    cases hd : clearance (sampleFacts s moment changed deleted) ⟨64, 4096, 1024⟩ with
    | error e =>
      rw [hd] at h
      cases h
    | ok d =>
      rw [hd] at h
      dsimp only at h
      exact ih (h₀.snoc (step_of_clearance (faithful_sampleFacts s moment changed deleted) hd)) h

/-- The sample run publishes both advances and then cuts them off, keeping the head the
deletion names. -/
theorem published_prefix_safe_sample :
    ∃ tr s, Lts.Run (Step toyBlake3) (empty 7) tr s ∧ s.publishedPrefix = 3 ∧
      s.deletionBoundary = 3 ∧ s.head = some (ByteArr.fill HASH_LEN 2) ∧
      sequences s.passed = [1, 2] ∧ ∀ a ∈ s.passed, a.Publishable := by
  obtain ⟨s, hs⟩ : ∃ s, sampleRun (empty 7) sampleDecisions = some s :=
    Option.isSome_iff_exists.1 (by decide +kernel)
  obtain ⟨tr, htr⟩ := run_of_sampleRun (B := toyBlake3) (Lts.Run.nil _) hs
  have hvalues : (sampleRun (empty 7) sampleDecisions).map (fun s =>
      (s.publishedPrefix, s.deletionBoundary, s.head, sequences s.passed)) =
      some (3, 3, some (ByteArr.fill HASH_LEN 2), [1, 2]) := by
    decide +kernel
  rw [hs, Option.map_some, Option.some.injEq, Prod.mk.injEq, Prod.mk.injEq,
    Prod.mk.injEq] at hvalues
  obtain ⟨hpublished, hboundary, hhead, hpassed⟩ := hvalues
  exact ⟨tr, s, htr, hpublished, hboundary, hhead, hpassed,
    (published_prefix_safe htr).2.2.2.1⟩

end Ledger

end Mkit.Decision
