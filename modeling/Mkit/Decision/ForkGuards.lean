import Mkit.Decision.ForkAdvance

/-!
# Fork Guards Determine the Facts

Every fact that an activation or a completion reads is in one of the guards it returns: as a
revision, or in the input stream of a commitment. Where all guards of one set of facts are
guards of another, with the same fences enabled, the two sets are equal in everything that is
read, so the decisions are equal too.
-/

namespace Mkit.Decision.Fork

open Commit

/-! ### Streams -/

@[simp] theorem phaseTag_inj {a b : ForkAdvancePhase} : phaseTag a = phaseTag b ↔ a = b := by
  cases a <;> cases b <;> decide

@[simp] theorem contextTag_inj {a b : ForkPairContext} : contextTag a = contextTag b ↔ a = b := by
  cases a <;> cases b <;> decide

@[simp] theorem partBytes_inj {a b : UInt16} :
    UInt64.ofNat a.toNat = UInt64.ofNat b.toNat ↔ a = b := by
  constructor
  · intro h
    have ha := a.toNat_lt
    have hb := b.toNat_lt
    have hnat := congrArg UInt64.toNat h
    rw [UInt64.toNat_ofNat', UInt64.toNat_ofNat', Nat.mod_eq_of_lt (by omega),
      Nat.mod_eq_of_lt (by omega)] at hnat
    exact UInt16.toNat_inj.1 hnat
  · rintro rfl
    rfl

@[simp] theorem stream_bytes (c : Commit) (value : Bytes) :
    (c.bytes value).stream = c.stream ++ (u64Bytes (UInt64.ofNat value.length) ++ value) := by
  simp [Commit.bytes]

/-- The bytes of a result in a stream. -/
def resultBytes (value : ForkResult) : Bytes :=
  u64Bytes (UInt64.ofNat value.branch.length) ++ (value.branch ++ (value.source.bytes ++
    (u64Bytes value.sourceSequence ++ (value.tip.bytes ++ (value.packmap.bytes ++
    (u64Bytes value.packs ++ (u64Bytes value.bytes ++ (u64Bytes value.indexEntries ++
    (value.packDigest.bytes ++ value.destinationGeneration.bytes)))))))))

@[simp] theorem stream_result (c : Commit) (value : ForkResult) :
    (result c value).stream = c.stream ++ resultBytes value := by
  simp only [result, resultBytes, stream_revision, stream_hash, stream_u64, stream_bytes,
    List.append_assoc]

variable {x y : Bytes}

/-- Results whose branch names fit a machine word are told apart. -/
theorem resultBytes_append {a b : ForkResult} (ha : a.branch.length < 2 ^ 64)
    (hb : b.branch.length < 2 ^ 64) (h : resultBytes a ++ x = resultBytes b ++ y) :
    a = b ∧ x = y := by
  simp only [resultBytes, List.append_assoc, u64Bytes_append] at h
  obtain ⟨hlen, h⟩ := h
  have hlen := congrArg UInt64.toNat hlen
  rw [UInt64.toNat_ofNat', UInt64.toNat_ofNat', Nat.mod_eq_of_lt ha, Nat.mod_eq_of_lt hb] at hlen
  obtain ⟨hbranch, h⟩ := List.append_inj h hlen
  simp only [bytes_append, u64Bytes_append] at h
  obtain ⟨hsource, hsequence, htip, hpackmap, hpacks, hbytes, hentries, hdigest, hgeneration,
    hrest⟩ := h
  cases a
  cases b
  simp_all

/-- The bytes of a witness or its absence in a stream. -/
def witnessBytes : Option ForkWitness → Bytes
  | some w => 1 :: (w.generation.bytes ++ (u64Bytes w.sequence ++
      ([if w.published then 1 else 0] ++ ([if w.held then 1 else 0] ++
      [if w.boundary then 1 else 0]))))
  | none => [0]

@[simp] theorem stream_witness (c : Commit) (w : Option ForkWitness) :
    (witness c w).stream = c.stream ++ witnessBytes w := by
  cases w <;> simp [witness, witnessBytes]

theorem witnessBytes_append {a b : Option ForkWitness}
    (h : witnessBytes a ++ x = witnessBytes b ++ y) : a = b ∧ x = y := by
  cases a with
  | none =>
    cases b with
    | none => simpa [witnessBytes] using h
    | some b => simp [witnessBytes] at h
  | some a =>
    cases b with
    | none => simp [witnessBytes] at h
    | some b =>
      simp only [witnessBytes, List.cons_append, List.append_assoc, List.cons.injEq, true_and,
        bytes_append, u64Bytes_append, List.nil_append, boolByte_inj] at h
      obtain ⟨hgeneration, hsequence, hpublished, hheld, hboundary, hrest⟩ := h
      cases a
      cases b
      simp_all

theorem ForkAdvanceFacts.progress_inj {a b : ForkAdvanceFacts}
    (h : a.progressCommit.stream = b.progressCommit.stream) :
    a.binding = b.binding ∧ a.progress.phase = b.progress.phase ∧
      a.progress.cursor = b.progress.cursor ∧ a.progress.part = b.progress.part ∧
      a.constructionExpiresMs = b.constructionExpiresMs := by
  simpa only [progressCommit, stream_u64, stream_u8, stream_hash, List.append_assoc,
    List.append_cancel_left_eq, bytes_append, List.cons_append, List.nil_append, List.cons.injEq,
    u64Bytes_append, u64Bytes_inj, phaseTag_inj, partBytes_inj] using h

/-- The bytes of a saved result or its absence in a stream. -/
def savedBytes : Option ForkResult → Bytes
  | some saved => 1 :: resultBytes saved
  | none => [0]

theorem savedBytes_append {a b : Option ForkResult}
    (ha : ∀ r ∈ a, r.branch.length < 2 ^ 64) (hb : ∀ r ∈ b, r.branch.length < 2 ^ 64)
    (h : savedBytes a ++ x = savedBytes b ++ y) : a = b ∧ x = y := by
  cases a with
  | none =>
    cases b with
    | none => simpa [savedBytes] using h
    | some b => simp [savedBytes] at h
  | some a =>
    cases b with
    | none => simp [savedBytes] at h
    | some b =>
      simp only [savedBytes, List.cons_append, List.cons.injEq, true_and] at h
      obtain ⟨rfl, hrest⟩ := resultBytes_append (ha a rfl) (hb b rfl) h
      exact ⟨rfl, hrest⟩

theorem stream_acceptedCommit (expected : ForkResult) (accepted : Option ForkResult)
    (packs : List Hash) : (acceptedCommit expected accepted packs).stream =
      (Commit.new ACCEPTED_DOMAIN).stream ++ (resultBytes expected ++ (savedBytes accepted ++
        countedBytes ByteArr.bytes packs)) := by
  cases accepted <;> simp [acceptedCommit, savedBytes]

theorem acceptedCommit_inj {expected expected' : ForkResult} {accepted accepted' : Option ForkResult}
    {packs packs' : List Hash} (hexpected : expected.branch.length < 2 ^ 64)
    (hexpected' : expected'.branch.length < 2 ^ 64)
    (haccepted : ∀ r ∈ accepted, r.branch.length < 2 ^ 64)
    (haccepted' : ∀ r ∈ accepted', r.branch.length < 2 ^ 64)
    (hpacks : packs.length < 2 ^ 64) (hpacks' : packs'.length < 2 ^ 64)
    (h : (acceptedCommit expected accepted packs).stream =
      (acceptedCommit expected' accepted' packs').stream) :
    expected = expected' ∧ accepted = accepted' ∧ packs = packs' := by
  rw [stream_acceptedCommit, stream_acceptedCommit, List.append_cancel_left_eq] at h
  obtain ⟨hresult, hrest⟩ := resultBytes_append hexpected hexpected' h
  obtain ⟨hsaved, hcounted⟩ := savedBytes_append haccepted haccepted' hrest
  rw [← List.append_nil (countedBytes _ packs), ← List.append_nil (countedBytes _ packs')]
    at hcounted
  exact ⟨hresult, hsaved,
    (countedBytes_append (fun h => bytes_append.1 h) hpacks hpacks' hcounted).1⟩

theorem lifecycleCommit_inj {a b : ForkLifecycleProtection}
    (h : (lifecycleCommit a).stream = (lifecycleCommit b).stream) :
    a = .notOffered ∧ b = .notOffered ∨ ∃ incarnation current current',
      a = .managed incarnation current ∧ b = .managed incarnation current' ∧
        current.isSome = current'.isSome := by
  cases a with
  | notOffered =>
    cases b with
    | notOffered => exact .inl ⟨rfl, rfl⟩
    | managed incarnation' current' => simp [lifecycleCommit] at h
  | managed incarnation current =>
    cases b with
    | notOffered => simp [lifecycleCommit] at h
    | managed incarnation' current' =>
      simp only [lifecycleCommit, stream_bool, stream_revision, stream_u8, List.append_assoc,
        List.append_cancel_left_eq, List.cons_append, List.nil_append, List.cons.injEq,
        true_and, bytes_append, boolByte_inj, and_true] at h
      obtain ⟨rfl, hsome⟩ := h
      exact .inr ⟨incarnation, current, current', rfl, rfl, hsome⟩

theorem ForkMembershipUnit.stream_inj {a b : ForkMembershipUnit}
    (h : a.commit.stream = b.commit.stream) : a = b := by
  simp only [commit, stream_u8, stream_witness, stream_revision, stream_hash, List.append_assoc,
    List.append_cancel_left_eq, bytes_append] at h
  obtain ⟨hpack, hrevision, h⟩ := h
  obtain ⟨hexpected, h⟩ := witnessBytes_append h
  obtain ⟨hlive, h⟩ := witnessBytes_append h
  obtain ⟨hpublished, h⟩ := witnessBytes_append h
  rw [List.cons.injEq, contextTag_inj] at h
  cases a
  cases b
  simp_all

theorem ForkClearanceProof.stream_inj {a b : ForkClearanceProof}
    (hdenial : a.denialRevision = b.denialRevision)
    (h : a.commit.stream = b.commit.stream) : a = b := by
  simp only [commit, stream_u64, stream_revision, stream_hash, List.append_assoc,
    List.append_cancel_left_eq, bytes_append, u64Bytes_inj] at h
  cases a
  cases b
  simp_all

theorem ForkCompletionFacts.completion_inj {a b : ForkCompletionFacts}
    (h : a.completionCommit.stream = b.completionCommit.stream) :
    a.completedCursor = b.completedCursor ∧ a.completedPart = b.completedPart ∧
      a.completedPacks = b.completedPacks ∧ a.completedDigest = b.completedDigest ∧
      a.expectedBarrierOwner = b.expectedBarrierOwner := by
  simpa only [completionCommit, stream_u64, stream_hash, List.append_assoc,
    List.append_cancel_left_eq, bytes_append, u64Bytes_append, partBytes_inj,
    ← ByteArr.ext_iff] using h

/-! ### Groups of guards -/

/-- What a fork guard is about. -/
inductive GuardGroup where
  | advance
  | lifecycle
  | accepted
  | unit
  | proof
  | completion
  | other
deriving DecidableEq

/-- The group of a guard. -/
def group : RequiredGuard → GuardGroup
  | .row _ row _ =>
    match row with
    | .forkProgress | .forkRecordedAuthority | .forkAuthority | .forkRecordedEpoch | .forkEpoch
    | .forkReservationRecorded _ | .forkReservationCurrent _ => .advance
    | .forkLifecycleProfile => .lifecycle
    | .forkAccepted => .accepted
    | .forkUnit _ => .unit
    | .forkProof _ | .forkDenial _ => .proof
    | .forkCompletion => .completion
    | _ => .other
  | .repository _ _ => .lifecycle
  | _ => .other

section Groups

variable {B : Blake3}

variable {A : ForkAdvanceFacts} {g : RequiredGuard}

theorem group_advance (h : g ∈ A.guards B) : group g = .advance := by
  obtain ⟨binding, destination, progress, recorded, current, epoch, reservation, expires⟩ := A
  cases epoch <;> cases reservation <;>
    simp only [ForkAdvanceFacts.guards, Option.elim_none, Option.elim_some, List.append_nil,
      List.cons_append, List.nil_append, List.mem_cons, List.not_mem_nil, or_false] at h
  · rcases h with rfl | rfl | rfl <;> rfl
  · rcases h with rfl | rfl | rfl | rfl | rfl <;> rfl
  · rcases h with rfl | rfl | rfl | rfl | rfl <;> rfl
  · rcases h with rfl | rfl | rfl | rfl | rfl | rfl | rfl <;> rfl

theorem group_lifecycle {repository : RepositoryId} {protection : ForkLifecycleProtection}
    (h : g ∈ lifecycleGuards B repository protection) : group g = .lifecycle := by
  have hcases : (∃ expected, g = .repository repository expected) ∨
      g = .row repository .forkLifecycleProfile
        (.present ((lifecycleCommit protection).finish B) ZERO) := by
    obtain _ | ⟨incarnation, _ | expected⟩ := protection
    · exact .inr (by simpa [lifecycleGuards] using h)
    · exact .inr (by simpa [lifecycleGuards] using h)
    · simp only [lifecycleGuards, List.cons_append, List.nil_append, List.mem_cons,
        List.not_mem_nil, or_false] at h
      exact h.imp (fun h => ⟨expected, h⟩) id
  obtain ⟨expected, rfl⟩ | rfl := hcases
  · rfl
  · rfl

/-- The guards of a proof. -/
def proofGuards (B : Blake3) (repository : RepositoryId) (proof : Option ForkClearanceProof) :
    List RequiredGuard :=
  proof.elim [] fun proof =>
    [.row repository (.forkProof proof.pack)
        (.present (proof.commit.finish B) proof.applyAttempt),
      .row repository (.forkDenial proof.pack) (revisionRow proof.denialRevision)]

theorem group_proof {repository : RepositoryId} {proof : Option ForkClearanceProof}
    (h : g ∈ proofGuards B repository proof) : group g = .proof := by
  cases proof with
  | none => exact absurd h List.not_mem_nil
  | some proof =>
    simp only [proofGuards, Option.elim_some, List.mem_cons, List.not_mem_nil, or_false] at h
    rcases h with rfl | rfl <;> rfl

variable {F : ForkActivationFacts}

/-- The guards of activation facts, group by group. -/
theorem mem_activation : g ∈ F.guards B ↔ g ∈ F.advance.guards B ∨
      g ∈ lifecycleGuards B F.advance.destination F.lifecycle ∨
      g = acceptedRow B F.advance.destination F.advance.progress.revision F.expectedResult
        F.acceptedResult F.inheritedPacks ∨
      g = .row F.advance.destination (.forkUnit F.unit.pack)
        (.present (F.unit.commit.finish B) F.unit.inheritedRevision) ∨
      g ∈ proofGuards B F.advance.destination F.proof := by
  simp only [ForkActivationFacts.guards, proofGuards, List.mem_append, List.mem_cons,
    List.not_mem_nil, or_false, or_assoc]

/-- The guards of completion facts, group by group. -/
theorem mem_completion {F : ForkCompletionFacts} : g ∈ F.guards B ↔ g ∈ F.advance.guards B ∨
      g ∈ lifecycleGuards B F.advance.destination F.lifecycle ∨
      g = acceptedRow B F.advance.destination F.advance.progress.revision F.expectedResult
        F.acceptedResult [] ∨
      g = .row F.advance.destination .forkCompletion
        (.present (F.completionCommit.finish B) F.advance.progress.revision) := by
  simp only [ForkCompletionFacts.guards, List.mem_append, List.mem_cons, List.not_mem_nil,
    or_false, or_assoc]

/-- The guards of activation facts in one group. -/
def ForkActivationFacts.groupOf (B : Blake3) (F : ForkActivationFacts) (g : RequiredGuard) :
    GuardGroup → Prop
  | .advance => g ∈ F.advance.guards B
  | .lifecycle => g ∈ lifecycleGuards B F.advance.destination F.lifecycle
  | .accepted => g = acceptedRow B F.advance.destination F.advance.progress.revision
      F.expectedResult F.acceptedResult F.inheritedPacks
  | .unit => g = .row F.advance.destination (.forkUnit F.unit.pack)
      (.present (F.unit.commit.finish B) F.unit.inheritedRevision)
  | .proof => g ∈ proofGuards B F.advance.destination F.proof
  | _ => False

/-- A guard of activation facts is one of its group. -/
theorem groupOf_activation (h : g ∈ F.guards B) : F.groupOf B g (group g) := by
  obtain hmem | hmem | rfl | rfl | hmem := mem_activation.1 h
  · rw [group_advance hmem]
    exact hmem
  · rw [group_lifecycle hmem]
    exact hmem
  · rfl
  · rfl
  · rw [group_proof hmem]
    exact hmem

/-- The guards of completion facts in one group. -/
def ForkCompletionFacts.groupOf (B : Blake3) (F : ForkCompletionFacts) (g : RequiredGuard) :
    GuardGroup → Prop
  | .advance => g ∈ F.advance.guards B
  | .lifecycle => g ∈ lifecycleGuards B F.advance.destination F.lifecycle
  | .accepted => g = acceptedRow B F.advance.destination F.advance.progress.revision
      F.expectedResult F.acceptedResult []
  | .completion => g = .row F.advance.destination .forkCompletion
      (.present (F.completionCommit.finish B) F.advance.progress.revision)
  | _ => False

/-- A guard of completion facts is one of its group. -/
theorem groupOf_completion {F : ForkCompletionFacts} (h : g ∈ F.guards B) :
    F.groupOf B g (group g) := by
  obtain hmem | hmem | rfl | rfl := mem_completion.1 h
  · rw [group_advance hmem]
    exact hmem
  · rw [group_lifecycle hmem]
    exact hmem
  · rfl
  · rfl

/-- Fork facts yield no validity bound. -/
theorem ne_validThrough (h : group g ≠ .other) : ∀ t, g ≠ .validThrough t := by
  rintro t rfl
  exact h rfl

/-! ### Agreement -/

/-- The fences a job enables. -/
def SameFences (a b : ForkAdvanceFacts) : Prop :=
  a.grantEpoch.isSome = b.grantEpoch.isSome ∧ a.reservation.isSome = b.reservation.isSome

variable {S : List Bytes}

/-- Equal commitments of streams in a set without collisions. -/
theorem stream_eq {c c' : Commit} (hfree : CollisionFreeOn B {x | x ∈ S})
    (hc : c.stream ∈ S) (hc' : c'.stream ∈ S) (h : c.finish B = c'.finish B) :
    c.stream = c'.stream :=
  stream_eq_of_finish hfree hc hc' h

theorem observation_inj {a b : ForkObservation} (h : observation a = observation b) : a = b := by
  cases a <;> cases b <;> simp_all [observation, revisionRow]

theorem mem_advance : g ∈ A.guards B ↔
      g = .row A.destination .forkProgress
        (.present (A.progressCommit.finish B) A.progress.revision) ∨
      g = .row A.destination .forkRecordedAuthority (observation A.recordedAuthority) ∨
      g = .row A.destination .forkAuthority (observation A.authority) ∨
      (∃ epoch ∈ A.grantEpoch,
        g = .row A.destination .forkRecordedEpoch (observation epoch.recorded) ∨
        g = .row A.destination .forkEpoch (observation epoch.current)) ∨
      ∃ fence ∈ A.reservation,
        g = .row A.destination (.forkReservationRecorded fence.reservation)
          (revisionRow fence.expected) ∨
        g = .row A.destination (.forkReservationCurrent fence.reservation)
          (observation fence.current) := by
  obtain ⟨binding, destination, progress, recorded, current, epoch, reservation, expires⟩ := A
  cases epoch <;> cases reservation <;> simp [ForkAdvanceFacts.guards, or_assoc]

section Rows

variable {A : ForkAdvanceFacts} {r : RepositoryId} {e : Observed Hash} {id : ReservationId}

theorem row_forkProgress : .row r .forkProgress e ∈ A.guards B ↔ r = A.destination ∧
    e = .present (A.progressCommit.finish B) A.progress.revision := by
  rw [mem_advance]
  simp

theorem row_forkRecordedAuthority : .row r .forkRecordedAuthority e ∈ A.guards B ↔
    r = A.destination ∧ e = observation A.recordedAuthority := by
  rw [mem_advance]
  simp

theorem row_forkAuthority : .row r .forkAuthority e ∈ A.guards B ↔
    r = A.destination ∧ e = observation A.authority := by
  rw [mem_advance]
  simp

theorem row_forkRecordedEpoch : .row r .forkRecordedEpoch e ∈ A.guards B ↔
    ∃ epoch ∈ A.grantEpoch, r = A.destination ∧ e = observation epoch.recorded := by
  rw [mem_advance]
  simp

theorem row_forkEpoch : .row r .forkEpoch e ∈ A.guards B ↔
    ∃ epoch ∈ A.grantEpoch, r = A.destination ∧ e = observation epoch.current := by
  rw [mem_advance]
  simp

theorem row_forkReservationRecorded : .row r (.forkReservationRecorded id) e ∈ A.guards B ↔
    ∃ fence ∈ A.reservation, r = A.destination ∧ id = fence.reservation ∧
      e = revisionRow fence.expected := by
  rw [mem_advance]
  simp

theorem row_forkReservationCurrent : .row r (.forkReservationCurrent id) e ∈ A.guards B ↔
    ∃ fence ∈ A.reservation, r = A.destination ∧ id = fence.reservation ∧
      e = observation fence.current := by
  rw [mem_advance]
  simp

end Rows

variable {A' : ForkAdvanceFacts}

/-- The epoch fence of facts whose guards are among others. -/
theorem epoch_agrees (hfences : SameFences A A')
    (h : ∀ g ∈ A.guards B, g ∈ A'.guards B) : A.grantEpoch = A'.grantEpoch := by
  cases hA : A.grantEpoch with
  | none =>
    have hnone := hfences.1
    rw [hA] at hnone
    exact (Option.isNone_iff_eq_none.1 (by simpa using hnone.symm)).symm
  | some epoch =>
    obtain ⟨epoch', hepoch', -, hrecorded⟩ :=
      row_forkRecordedEpoch.1 (h _ (row_forkRecordedEpoch.2 ⟨epoch, hA, rfl, rfl⟩))
    obtain ⟨epoch'', hepoch'', -, hcurrent⟩ :=
      row_forkEpoch.1 (h _ (row_forkEpoch.2 ⟨epoch, hA, rfl, rfl⟩))
    obtain rfl : epoch' = epoch'' := Option.mem_unique hepoch' hepoch''
    have heq : epoch = epoch' := by
      obtain ⟨recorded, current⟩ := epoch
      obtain ⟨recorded', current'⟩ := epoch'
      rw [ForkEpochFence.mk.injEq]
      exact ⟨observation_inj hrecorded, observation_inj hcurrent⟩
    rw [heq]
    exact (Option.mem_def.1 hepoch').symm

/-- The reservation fence of facts whose guards are among others. -/
theorem reservation_agrees (hfences : SameFences A A')
    (h : ∀ g ∈ A.guards B, g ∈ A'.guards B) : A.reservation = A'.reservation := by
  cases hA : A.reservation with
  | none =>
    have hnone := hfences.2
    rw [hA] at hnone
    exact (Option.isNone_iff_eq_none.1 (by simpa using hnone.symm)).symm
  | some fence =>
    obtain ⟨fence', hfence', -, hid, hexpected⟩ := row_forkReservationRecorded.1
      (h _ (row_forkReservationRecorded.2 ⟨fence, hA, rfl, rfl, rfl⟩))
    obtain ⟨fence'', hfence'', -, -, hcurrent⟩ := row_forkReservationCurrent.1
      (h _ (row_forkReservationCurrent.2 ⟨fence, hA, rfl, rfl, rfl⟩))
    obtain rfl : fence' = fence'' := Option.mem_unique hfence' hfence''
    rw [revisionRow, revisionRow, Observed.present.injEq] at hexpected
    have heq : fence = fence' := by
      obtain ⟨reservation, expected, current⟩ := fence
      obtain ⟨reservation', expected', current'⟩ := fence'
      rw [ForkReservationFence.mk.injEq]
      exact ⟨hid, hexpected.1, observation_inj hcurrent⟩
    rw [heq]
    exact (Option.mem_def.1 hfence').symm

/-- Where its guards are guards of other facts with the same fences, an advance is equal. -/
theorem advance_agrees (hfree : CollisionFreeOn B {x | x ∈ S}) (hA : A.progressCommit.stream ∈ S)
    (hA' : A'.progressCommit.stream ∈ S) (hfences : SameFences A A')
    (h : ∀ g ∈ A.guards B, g ∈ A'.guards B) : A = A' := by
  have hepoch := epoch_agrees hfences h
  have hreservation := reservation_agrees hfences h
  obtain ⟨hdestination, hprogress⟩ :=
    row_forkProgress.1 (h _ (row_forkProgress.2 ⟨rfl, rfl⟩))
  obtain ⟨-, hrecorded⟩ :=
    row_forkRecordedAuthority.1 (h _ (row_forkRecordedAuthority.2 ⟨rfl, rfl⟩))
  obtain ⟨-, hauthority⟩ := row_forkAuthority.1 (h _ (row_forkAuthority.2 ⟨rfl, rfl⟩))
  rw [Observed.present.injEq] at hprogress
  obtain ⟨hbinding, hphase, hcursor, hpart, hexpires⟩ :=
    ForkAdvanceFacts.progress_inj (stream_eq hfree hA hA' hprogress.1)
  have hrevision := hprogress.2
  obtain ⟨binding, destination, ⟨phase, cursor, part, revision⟩, recorded, authority, epoch,
    reservation, expires⟩ := A
  obtain ⟨binding', destination', ⟨phase', cursor', part', revision'⟩, recorded', authority', epoch',
    reservation', expires'⟩ := A'
  simp only [ForkAdvanceFacts.mk.injEq, ForkProgress.mk.injEq]
  exact ⟨hbinding, hdestination, ⟨hphase, hcursor, hpart, hrevision⟩, observation_inj hrecorded,
    observation_inj hauthority, hepoch, hreservation, hexpires⟩

/-- A lifecycle protection whose guards are guards of another is equal to it. -/
theorem lifecycle_agrees (repository : RepositoryId) {a b : ForkLifecycleProtection}
    (hfree : CollisionFreeOn B {x | x ∈ S})
    (ha : (lifecycleCommit a).stream ∈ S) (hb : (lifecycleCommit b).stream ∈ S)
    (h : ∀ g ∈ lifecycleGuards B repository a, g ∈ lifecycleGuards B repository b) : a = b := by
  have hprofile : RequiredGuard.row repository .forkLifecycleProfile
      (.present ((lifecycleCommit a).finish B) ZERO) ∈ lifecycleGuards B repository b :=
    h _ (List.mem_append_right _ (List.mem_singleton.2 rfl))
  have hcommit : (lifecycleCommit a).finish B = (lifecycleCommit b).finish B := by
    obtain _ | ⟨incarnation, _ | expected⟩ := b
    · simpa [lifecycleGuards] using hprofile
    · simpa [lifecycleGuards] using hprofile
    · simpa [lifecycleGuards] using hprofile
  obtain ⟨rfl, rfl⟩ | ⟨incarnation, current, current', rfl, rfl, hsome⟩ :=
    lifecycleCommit_inj (stream_eq hfree ha hb hcommit)
  · rfl
  · cases current with
    | none =>
      have hnone : current' = none := Option.isNone_iff_eq_none.1 (by simpa using hsome.symm)
      rw [hnone]
    | some expected =>
      obtain ⟨expected', rfl⟩ := Option.isSome_iff_exists.1 hsome.symm
      have hrow := h (.repository repository expected) (by simp [lifecycleGuards])
      simp only [lifecycleGuards, List.cons_append, List.nil_append, List.mem_cons,
        RequiredGuard.repository.injEq, true_and, reduceCtorEq, List.not_mem_nil, or_false] at hrow
      rw [hrow]

/-- A proof whose guards are guards of another is equal to it. -/
theorem proof_agrees (repository : RepositoryId) {p : ForkClearanceProof}
    {o : Option ForkClearanceProof} (hfree : CollisionFreeOn B {x | x ∈ S})
    (hp : p.commit.stream ∈ S) (ho : ∀ q ∈ o, q.commit.stream ∈ S)
    (h : ∀ g ∈ proofGuards B repository (some p), g ∈ proofGuards B repository o) : o = some p := by
  have hproof := h (.row repository (.forkProof p.pack)
    (.present (p.commit.finish B) p.applyAttempt)) (by simp [proofGuards])
  have hdenial := h (.row repository (.forkDenial p.pack) (revisionRow p.denialRevision))
    (by simp [proofGuards])
  cases o with
  | none => exact absurd hproof List.not_mem_nil
  | some q =>
    simp only [proofGuards, Option.elim_some, List.mem_cons, RequiredGuard.row.injEq, true_and,
      GuardRow.forkProof.injEq, GuardRow.forkDenial.injEq, reduceCtorEq, false_and, and_false,
      false_or, or_false, List.not_mem_nil, Observed.present.injEq, revisionRow] at hproof hdenial
    rw [ForkClearanceProof.stream_inj hdenial.2.1
      (stream_eq hfree hp (ho q rfl) hproof.2.1)]

/-- The input streams of the commitments in the guards of an activation. -/
def ForkActivationFacts.streams (F : ForkActivationFacts) : List Bytes :=
  [F.advance.progressCommit.stream, (lifecycleCommit F.lifecycle).stream,
    (acceptedCommit F.expectedResult F.acceptedResult F.inheritedPacks).stream,
    F.unit.commit.stream] ++ F.proof.toList.map (·.commit.stream)

/-- The input streams of the commitments in the guards of a completion. -/
def ForkCompletionFacts.streams (F : ForkCompletionFacts) : List Bytes :=
  [F.advance.progressCommit.stream, (lifecycleCommit F.lifecycle).stream,
    (acceptedCommit F.expectedResult F.acceptedResult []).stream, F.completionCommit.stream]

/-- Names and inventories whose lengths fit a machine word. -/
structure Sized (expected : ForkResult) (accepted : Option ForkResult) (packs : List Hash) :
    Prop where
  expected : expected.branch.length < 2 ^ 64
  accepted : ∀ r ∈ accepted, r.branch.length < 2 ^ 64
  packs : packs.length < 2 ^ 64

/-- **Activation guards determine the facts.** Facts whose guards are all guards of others, with
the same fences enabled, are equal to these; the others may hold a proof where these have none. -/
theorem activation_agrees {F' : ForkActivationFacts}
    (hfree : CollisionFreeOn B {x | x ∈ F.streams ++ F'.streams})
    (hfences : SameFences F.advance F'.advance)
    (hF : Sized F.expectedResult F.acceptedResult F.inheritedPacks)
    (hF' : Sized F'.expectedResult F'.acceptedResult F'.inheritedPacks)
    (h : ∀ g ∈ F.guards B, g ∈ F'.guards B) : F.advance = F'.advance ∧ F.lifecycle = F'.lifecycle ∧
      F.expectedResult = F'.expectedResult ∧ F.acceptedResult = F'.acceptedResult ∧
      F.inheritedPacks = F'.inheritedPacks ∧ F.unit = F'.unit ∧ ∀ p ∈ F.proof, F'.proof = some p := by
  have hadvance : F.advance = F'.advance := by
    refine advance_agrees hfree (by simp [ForkActivationFacts.streams])
      (by simp [ForkActivationFacts.streams]) hfences fun g hg => ?_
    have hlive := groupOf_activation (h g (mem_activation.2 (.inl hg)))
    rwa [group_advance hg] at hlive
  have hlifecycle : F.lifecycle = F'.lifecycle := by
    refine lifecycle_agrees F.advance.destination hfree
      (by simp [ForkActivationFacts.streams]) (by simp [ForkActivationFacts.streams]) fun g hg => ?_
    have hlive := groupOf_activation (h g (mem_activation.2 (.inr (.inl hg))))
    rw [group_lifecycle hg] at hlive
    exact hadvance ▸ hlive
  have haccepted := groupOf_activation (h _ (mem_activation.2 (.inr (.inr (.inl rfl)))))
  have hunit := groupOf_activation (h _ (mem_activation.2 (.inr (.inr (.inr (.inl rfl))))))
  simp only [ForkActivationFacts.groupOf, acceptedRow, group, RequiredGuard.row.injEq, true_and,
    Observed.present.injEq] at haccepted
  simp only [ForkActivationFacts.groupOf, group, RequiredGuard.row.injEq, Observed.present.injEq]
    at hunit
  obtain ⟨hexpected, hsaved, hpacks⟩ := acceptedCommit_inj hF.expected hF'.expected hF.accepted
    hF'.accepted hF.packs hF'.packs (stream_eq hfree (by simp [ForkActivationFacts.streams])
      (by simp [ForkActivationFacts.streams]) haccepted.2.1)
  have hunit := ForkMembershipUnit.stream_inj (stream_eq hfree
    (by simp [ForkActivationFacts.streams]) (by simp [ForkActivationFacts.streams]) hunit.2.2.1)
  refine ⟨hadvance, hlifecycle, hexpected, hsaved, hpacks, hunit, fun p hp => ?_⟩
  refine proof_agrees F.advance.destination hfree ?_ ?_ fun g hg => ?_
  · have hp : F.proof = some p := hp
    simp [ForkActivationFacts.streams, hp]
  · intro q hq
    have hq : F'.proof = some q := hq
    simp [ForkActivationFacts.streams, hq]
  · have hp : F.proof = some p := hp
    have hlive := groupOf_activation (h g (mem_activation.2 (.inr (.inr (.inr (.inr (hp ▸ hg)))))))
    rw [group_proof hg] at hlive
    exact hadvance ▸ hlive

/-- **Completion guards determine the facts.** -/
theorem completion_agrees {F F' : ForkCompletionFacts}
    (hfree : CollisionFreeOn B {x | x ∈ F.streams ++ F'.streams})
    (hfences : SameFences F.advance F'.advance) (hF : Sized F.expectedResult F.acceptedResult [])
    (hF' : Sized F'.expectedResult F'.acceptedResult [])
    (h : ∀ g ∈ F.guards B, g ∈ F'.guards B) : F = F' := by
  have hadvance : F.advance = F'.advance := by
    refine advance_agrees hfree (by simp [ForkCompletionFacts.streams])
      (by simp [ForkCompletionFacts.streams]) hfences fun g hg => ?_
    have hlive := groupOf_completion (h g (mem_completion.2 (.inl hg)))
    rwa [group_advance hg] at hlive
  have hlifecycle : F.lifecycle = F'.lifecycle := by
    refine lifecycle_agrees F.advance.destination hfree
      (by simp [ForkCompletionFacts.streams]) (by simp [ForkCompletionFacts.streams]) fun g hg => ?_
    have hlive := groupOf_completion (h g (mem_completion.2 (.inr (.inl hg))))
    rw [group_lifecycle hg] at hlive
    exact hadvance ▸ hlive
  have haccepted := groupOf_completion (h _ (mem_completion.2 (.inr (.inr (.inl rfl)))))
  have hcompletion := groupOf_completion (h _ (mem_completion.2 (.inr (.inr (.inr rfl)))))
  simp only [ForkCompletionFacts.groupOf, acceptedRow, group, RequiredGuard.row.injEq, true_and,
    Observed.present.injEq] at haccepted hcompletion
  obtain ⟨hexpected, hsaved, -⟩ := acceptedCommit_inj hF.expected hF'.expected hF.accepted
    hF'.accepted hF.packs hF'.packs (stream_eq hfree (by simp [ForkCompletionFacts.streams])
      (by simp [ForkCompletionFacts.streams]) haccepted.2.1)
  obtain ⟨hcursor, hpart, hpacks, hdigest, howner⟩ := ForkCompletionFacts.completion_inj
    (stream_eq hfree (by simp [ForkCompletionFacts.streams])
      (by simp [ForkCompletionFacts.streams]) hcompletion.2.1)
  cases F
  cases F'
  simp_all

end Groups

end Mkit.Decision.Fork
