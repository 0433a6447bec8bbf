import Mkit.PackWriter

/-!
# Failed Pushes

A push checks the caps, counts the payload and only then appends the frame, whose length must
fit the `u32` in front of it. The cap on the sum of all payloads is inclusive, so a single
payload of exactly `2 ^ 32` bytes passes it on a writer that has counted nothing yet, is
counted, and fails at the length. Every other failure comes before the first write.

## Main results

* `pushes_atomic_iff` — a failed push leaves the writer as it was, except in that one case;
  a pack never shows which pushes failed in between, and outside that case neither does any
  later push.
-/

namespace Mkit.Pack

open Wire Effect

variable (Z : Zstd) (B : Blake3)

namespace PackWriter

/-- What becomes of a frame that is to be appended. -/
def offer (w : PackWriter) (f : Frame) : Except PackError Unit × PackWriter :=
  if MAX_ENTRIES < w.entry_count + 1 then (.error (.tooManyObjects (MAX_ENTRIES + 1)), w)
  else if MAX_TOTAL_PAYLOAD < w.total_payload + f.payload.length then
    (.error .packfileTooLarge, w)
  else if f.payload.length < 2 ^ 32 then (.ok (), w.append f)
  else (.error .packfileTooLarge,
    { w with total_payload := w.total_payload + f.payload.length })

/-- The frame passes the caps and is counted, but its length does not fit the wire. -/
structure Overcounts (w : PackWriter) (length : ℕ) : Prop where
  count_lt : w.entry_count + 1 ≤ MAX_ENTRIES
  total_eq : w.total_payload = 0
  length_eq : length = 2 ^ 32

theorem exec_checkCapsFor (w : PackWriter) (n : ℕ) : exec (checkCapsFor n) w =
      if MAX_ENTRIES < w.entry_count + 1 then (.error (.tooManyObjects (MAX_ENTRIES + 1)), w)
      else if MAX_TOTAL_PAYLOAD < w.total_payload + n then (.error .packfileTooLarge, w)
      else (.ok (), w) := by
  have hmin : MAX_TOTAL_PAYLOAD < min (w.total_payload + n) U64_MAX ↔
      MAX_TOTAL_PAYLOAD < w.total_payload + n := by
    have : MAX_TOTAL_PAYLOAD < U64_MAX := by decide
    omega
  rw [checkCapsFor, exec_get_bind]
  simp only [hmin]
  split
  · rfl
  · split <;> rfl

/-- Appending a frame, failures included. -/
theorem exec_appendFrame {w : PackWriter} {etype : UInt8} {parts : List Bytes} {compressed : Bool}
    (hcompressed : compressed = decide (Frame.Compressed ⟨etype, parts.flatten⟩)) :
    exec (appendCapped etype parts compressed) w = w.offer ⟨etype, parts.flatten⟩ := by
  rw [appendCapped, exec_bind, exec_checkCapsFor, offer, hcompressed]
  by_cases hcount : MAX_ENTRIES < w.entry_count + 1
  · rw [if_pos hcount, if_pos hcount]
  · rw [if_neg hcount, if_neg hcount]
    by_cases htotal : MAX_TOTAL_PAYLOAD < w.total_payload + parts.flatten.length
    · rw [if_pos htotal, if_pos htotal]
    · rw [if_neg htotal, if_neg htotal]
      simp only [exec_get_bind, exec_set_bind, appendEntry]
      by_cases hlen : parts.flatten.length < 2 ^ 32
      · rw [if_pos hlen, if_pos hlen]
        rfl
      · rw [if_neg hlen, if_neg hlen]
        rfl

/-- A frame that cannot be appended leaves the writer as it was, unless it was counted. -/
theorem offer_atomic_iff {w : PackWriter} {f : Frame} :
    (∀ e w', w.offer f = (.error e, w') → w' = w) ↔ ¬ w.Overcounts f.payload.length := by
  unfold offer
  have hmax : MAX_TOTAL_PAYLOAD = 2 ^ 32 := by decide
  constructor
  · rintro h ⟨hcount, htotal, hlen⟩
    rw [if_neg (by omega), if_neg (by omega), if_neg (by omega)] at h
    have := congrArg total_payload (h _ _ rfl)
    simp only at this
    omega
  · intro hno e w' h
    split_ifs at h with hcount htotal hlen
    · exact (Prod.mk.inj h).2.symm
    · exact (Prod.mk.inj h).2.symm
    · cases h
    · exact absurd ⟨by omega, by omega, by omega⟩ hno

end PackWriter

instance (raw_only : Bool) : DecidablePred (Push.Accepted raw_only)
  | .raw _ _ => isTrue trivial
  | .delta _ _ => inferInstanceAs (Decidable (raw_only = false))

/-- The length of the entry on the wire when it is not compressed. -/
def Push.conservativeLen : Push → ℕ
  | .raw _ bytes => bytes.length
  | .delta _ stream => HASH_LEN + stream.length

/-- What becomes of a push. -/
theorem Push.exec_run (p : Push) (w : PackWriter) : exec (p.run Z) w =
      if p.Accepted w.raw_only then w.offer (p.frame Z w.raw_only) else (.error .rawOnly, w) := by
  cases p with
  | raw id bytes =>
    -- The id that a raw push returns is dropped.
    have hdrop : ∀ {x : PackWriter.Step Unit} {f : Frame}, exec x w = w.offer f →
        exec (do let _ ← (do x; pure id : PackWriter.Step Hash); pure ()) w = w.offer f := by
      intro x f hx
      rw [exec_bind, exec_bind, hx]
      rcases w.offer f with ⟨_ | _, w'⟩ <;> rfl
    rw [if_pos (show (Push.raw id bytes).Accepted w.raw_only from trivial), Push.frame]
    change exec (do
      let _ ← PackWriter.appendRawFrame id bytes
        (if w.raw_only then none else maybeCompress Z bytes)
      pure ()) w = _
    cases hframe : (if w.raw_only then none else maybeCompress Z bytes) with
    | none =>
      have h := @PackWriter.exec_appendFrame w 0x00 [bytes] false rfl
      rw [List.flatten_singleton] at h
      exact hdrop h
    | some frame =>
      have hlen : bytes.length < 2 ^ 32 := by
        split_ifs at hframe
        exact length_of_maybeCompress Z hframe
      have h := @PackWriter.exec_appendFrame w 0x03 [leBytes 4 bytes.length, frame] true rfl
      simp only [List.flatten_cons, List.flatten_nil, List.append_nil] at h
      rw [PackWriter.appendRawFrame, if_pos hlen]
      exact hdrop h
  | delta base stream =>
    have hacc : (Push.delta base stream).Accepted w.raw_only ↔ ¬ w.raw_only = true :=
      (Bool.not_eq_true _).symm.to_iff
    rw [Push.run, PackWriter.pushDelta, exec_get_bind]
    by_cases hraw : w.raw_only = true
    · rw [if_pos hraw, if_neg fun h => hacc.1 h hraw]
      rfl
    · rw [if_neg hraw, if_pos (hacc.2 hraw), Push.frame]
      cases hframe : maybeCompress Z stream with
      | none =>
        have h := @PackWriter.exec_appendFrame w 0x02 [base.bytes, stream] false rfl
        simp only [List.flatten_cons, List.flatten_nil, List.append_nil] at h
        exact h
      | some frame =>
        have h := @PackWriter.exec_appendFrame w 0x04
          [base.bytes, leBytes 4 stream.length, frame] true rfl
        simp only [List.flatten_cons, List.flatten_nil, List.append_nil] at h
        rw [PackWriter.appendDeltaFrame, if_pos (length_of_maybeCompress Z hframe)]
        exact h

/-- What is compressed is strictly shorter, with its prefix, than an object may be. -/
theorem length_lt_of_maybeCompress {data frame : Bytes} (h : maybeCompress Z data = some frame) :
    ZSTD_LEN_PREFIX + frame.length < data.length ∧ data.length ≤ MAX_RAW_OBJECT_SIZE := by
  rw [maybeCompress] at h
  split_ifs at h with hmax hmin
  obtain ⟨-, hlt⟩ := Option.filter_eq_some_iff.1 h
  exact ⟨of_decide_eq_true hlt, not_lt.1 hmax⟩

/-- A payload of `2 ^ 32` bytes is never compressed. -/
theorem Push.length_frame_iff (p : Push) (raw_only : Bool) :
    (p.frame Z raw_only).payload.length = 2 ^ 32 ↔ p.conservativeLen = 2 ^ 32 := by
  have hmax : MAX_RAW_OBJECT_SIZE = 2 ^ 30 := by decide
  have hprefix : ZSTD_LEN_PREFIX = 4 := rfl
  cases p with
  | raw id bytes =>
    rw [Push.frame, Push.conservativeLen]
    cases hframe : (if raw_only then none else maybeCompress Z bytes) with
    | none => rfl
    | some frame =>
      have hmaybe : maybeCompress Z bytes = some frame := by
        split_ifs at hframe
        exact hframe
      have hlen := length_lt_of_maybeCompress Z hmaybe
      rw [rawFrame, List.length_append, length_leBytes]
      omega
  | delta base stream =>
    rw [Push.frame, Push.conservativeLen]
    cases hframe : maybeCompress Z stream with
    | none => rw [deltaFrame, List.length_append, base.length_bytes]
    | some frame =>
      have hlen := length_lt_of_maybeCompress Z hframe
      have hhash : HASH_LEN = 32 := rfl
      rw [deltaFrame]
      simp only [List.length_append, length_leBytes, base.length_bytes]
      omega

/-! ### Calls in any order -/

/-- A push that passes every check but the last: the first bytes of the pack, and exactly
`2 ^ 32` of them. -/
def Push.Overcounts (w : PackWriter) (p : Push) : Prop :=
  p.Accepted w.raw_only ∧ w.Overcounts p.conservativeLen

/-- Make a call, with the entry prepared ahead or not. -/
def attempt (w : PackWriter) (call : Bool × Push) : Except PackError Unit × PackWriter :=
  exec (if call.1 then call.2.runPrepared Z else call.2.run Z) w

/-- The writer after these calls, the failed ones included. -/
def attemptAll (w : PackWriter) (calls : List (Bool × Push)) : PackWriter :=
  calls.foldl (fun w call => (attempt Z w call).2) w

/-- The calls that succeed. -/
def successes (w : PackWriter) : List (Bool × Push) → List (Bool × Push)
  | [] => []
  | call :: calls =>
    match attempt Z w call with
    | (.ok _, w') => call :: successes w' calls
    | (.error _, w') => successes w' calls

/-- No call overcounts. -/
def Spared (w : PackWriter) : List (Bool × Push) → Prop
  | [] => True
  | call :: calls => ¬ call.2.Overcounts w ∧ Spared (attempt Z w call).2 calls

theorem attempt_eq (w : PackWriter) (call : Bool × Push) : attempt Z w call =
      if call.2.Accepted w.raw_only then w.offer (call.2.frame Z w.raw_only)
      else (.error .rawOnly, w) := by
  rw [attempt, Push.runPrepared_eq, ite_self, Push.exec_run]

/-- A failed call leaves the writer as it was, unless it overcounts. -/
theorem attempt_atomic_iff (w : PackWriter) (call : Bool × Push) :
    (∀ e w', attempt Z w call = (.error e, w') → w' = w) ↔ ¬ call.2.Overcounts w := by
  rw [attempt_eq, Push.Overcounts]
  by_cases hacc : call.2.Accepted w.raw_only
  · rw [if_pos hacc, PackWriter.offer_atomic_iff]
    simp only [hacc, true_and]
    refine not_congr ⟨fun h => ⟨h.1, h.2, (call.2.length_frame_iff Z w.raw_only).1 h.3⟩,
      fun h => ⟨h.1, h.2, (call.2.length_frame_iff Z w.raw_only).2 h.3⟩⟩
  · rw [if_neg hacc]
    simp only [hacc, false_and, not_false_eq_true, iff_true]
    intro e w' h
    exact (Prod.mk.inj h).2.symm

/-- The same writer, except that more may have been counted. -/
structure PackWriter.Trails (w v : PackWriter) : Prop where
  buf_eq : w.buf = v.buf
  count_eq : w.entry_count = v.entry_count
  total_le : w.total_payload ≤ v.total_payload
  compressed_eq : w.has_compressed_entry = v.has_compressed_entry
  raw_only_eq : w.raw_only = v.raw_only

/-- What the one accepts the other accepts; and what the one refuses does not show in its
pack. -/
theorem PackWriter.Trails.attempt {w v : PackWriter} (h : w.Trails v) (call : Bool × Push) :
    (∀ u v', attempt Z v call = (.ok u, v') →
      ∃ w', attempt Z w call = (.ok u, w') ∧ w'.Trails v') ∧
    ∀ e v', attempt Z v call = (.error e, v') → w.Trails v' := by
  have hcount := h.count_eq
  have htotal := h.total_le
  simp only [attempt_eq, h.raw_only_eq]
  split
  · generalize call.2.frame Z v.raw_only = f
    unfold PackWriter.offer
    constructor
    · intro u v' hok
      split_ifs at hok with h₁ h₂ h₃
      · cases hok
      · cases hok
      · obtain rfl := (Prod.mk.inj hok).2
        refine ⟨w.append f, ?_, ?_⟩
        · rw [if_neg (by omega), if_neg (by omega), if_pos h₃]
        · exact ⟨by simp [PackWriter.append, h.buf_eq], by simp [PackWriter.append, hcount],
            Nat.add_le_add_right htotal _, by simp [PackWriter.append, h.compressed_eq],
            h.raw_only_eq⟩
      · cases hok
    · intro e v' herr
      split_ifs at herr with h₁ h₂ h₃
      · exact (Prod.mk.inj herr).2 ▸ h
      · exact (Prod.mk.inj herr).2 ▸ h
      · cases herr
      · obtain rfl := (Prod.mk.inj herr).2
        exact ⟨h.buf_eq, hcount, htotal.trans (Nat.le_add_right _ _), h.compressed_eq,
          h.raw_only_eq⟩
  · exact ⟨fun u v' hok => (by cases hok), fun e v' herr => (Prod.mk.inj herr).2 ▸ h⟩

/-- The successful calls succeed by themselves, and leave the writer as all calls do, up to
what was counted. -/
theorem exists_trails {w v : PackWriter} (h : w.Trails v) (calls : List (Bool × Push)) :
    ∃ w', Yields (pushAll Z (successes Z v calls)) w () w' ∧
      w'.Trails (attemptAll Z v calls) := by
  induction calls generalizing w v with
  | nil => exact ⟨w, yields_pure.2 ⟨rfl, rfl⟩, h⟩
  | cons call calls ih =>
    rw [successes, attemptAll, List.foldl_cons]
    obtain ⟨hok, herr⟩ := h.attempt Z call
    rcases hr : attempt Z v call with ⟨e | u, v'⟩
    · exact ih (herr e v' hr)
    · obtain ⟨w', hw', ht⟩ := hok u v' hr
      obtain ⟨w'', hy, ht'⟩ := ih ht
      refine ⟨w'', ?_, ht'⟩
      rw [pushAll, yields_bind]
      exact ⟨(), w', hw', hy⟩

/-- Without a call that overcounts the failed calls leave nothing behind. -/
theorem yields_successes {w : PackWriter} {calls : List (Bool × Push)} (h : Spared Z w calls) :
    Yields (pushAll Z (successes Z w calls)) w () (attemptAll Z w calls) := by
  induction calls generalizing w with
  | nil => exact yields_pure.2 ⟨rfl, rfl⟩
  | cons call calls ih =>
    obtain ⟨hcall, hrest⟩ := h
    rw [successes, attemptAll, List.foldl_cons]
    have hatomic := (attempt_atomic_iff Z w call).2 hcall
    rcases hr : attempt Z w call with ⟨e | u, w'⟩
    · rw [hr, hatomic e w' hr] at hrest
      rw [hatomic e w' hr]
      exact ih hrest
    · rw [hr] at hrest
      rw [pushAll, yields_bind]
      exact ⟨(), w', hr, ih hrest⟩

/-- **Which failures leave a trace.** A failed call leaves the writer exactly as it was, if
and only if it does not overcount. The successful calls alone always give the same pack, and
when no call overcounts the same writer, so that every later call fares the same. -/
theorem pushes_atomic_iff : (∀ (w : PackWriter) (call : Bool × Push),
      (∀ e w', attempt Z w call = (.error e, w') → w' = w) ↔ ¬ call.2.Overcounts w) ∧
    ∀ (w : PackWriter) (calls : List (Bool × Push)),
      (∃ w', Yields (pushAll Z (successes Z w calls)) w () w' ∧
        w'.finish B = (attemptAll Z w calls).finish B) ∧
      (Spared Z w calls →
        Yields (pushAll Z (successes Z w calls)) w () (attemptAll Z w calls)) := by
  refine ⟨attempt_atomic_iff Z, fun w calls => ⟨?_, yields_successes Z⟩⟩
  obtain ⟨w', hy, ht⟩ := exists_trails Z (⟨rfl, rfl, le_rfl, rfl, rfl⟩ : w.Trails w) calls
  refine ⟨w', hy, ?_⟩
  rw [PackWriter.finish, PackWriter.finish, ht.buf_eq, ht.count_eq, ht.compressed_eq]

/-- A raw-only writer refuses a delta, before and after an object; the object alone gives the
same writer. -/
theorem pushes_atomic_iff_raw_only :
    Yields (pushAll Zstd.unavailable (successes Zstd.unavailable PackWriter.newRawOnly
      [(false, .delta ZERO []), (true, .raw ZERO [1]), (true, .delta ZERO [2])]))
      PackWriter.newRawOnly () (attemptAll Zstd.unavailable PackWriter.newRawOnly
        [(false, .delta ZERO []), (true, .raw ZERO [1]), (true, .delta ZERO [2])]) := by
  refine ((pushes_atomic_iff Zstd.unavailable toyBlake3).2 _ _).2 ⟨?_, ?_, ?_, trivial⟩
  · exact fun h => Bool.noConfusion (show true = false from h.1)
  · exact fun h => absurd (show 1 = 2 ^ 32 from h.2.length_eq) (by decide)
  · exact fun h => Bool.noConfusion (show true = false from h.1)

/-- An object of `2 ^ 32` bytes, pushed first, is refused and stays counted. -/
theorem refused_push_counted :
    ¬ ∀ (Z : Zstd) (calls : List (Bool × Push)) (call : Bool × Push) (e : PackError)
      (w' : PackWriter), attempt Z (attemptAll Z PackWriter.new calls) call = (.error e, w') →
        w' = attemptAll Z PackWriter.new calls := by
  intro hall
  obtain ⟨bytes, hlen⟩ : ∃ bytes : Bytes, bytes.length = 2 ^ 32 :=
    ⟨List.replicate (2 ^ 32) 0, List.length_replicate⟩
  refine (attempt_atomic_iff Zstd.unavailable PackWriter.new (false, .raw ZERO bytes)).1
    (hall _ [] _) ⟨trivial, ?_, rfl, hlen⟩
  decide

end Mkit.Pack
