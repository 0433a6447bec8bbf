import Mathlib.Data.Finset.Sort
import Mkit.Lib.Run
import Mkit.Object

/-!
# Timestamp-Priority History Walk

`TimestampDiscovery` (`history_order.rs`) emits an all-parent commit history in decreasing
timestamp order, ties broken by discovery order. It does no I/O: the host decodes objects,
reports timestamps when asked, and registers the parents of every emitted id.

The walk remembers emitted ids only from the first emission that a later discovery could
revisit. Earlier emissions, the linear prefix, are not recorded; that they never come back
rests on the history being acyclic and on the seed window closing at the first completed
emission.

The host is modelled as a labelled transition system (`Driven`): it may interleave the calls
in any order, supply or withhold any timestamp, hold back any parent edge, and save and
restore the walk between any two calls.

## Main results

* `walk_enumerates` — uniqueness, completeness, order and progress of every run;
* `page_terminates` — the host loop ends.
-/

namespace Mkit

/-- Maximum number of pending frontier slots. -/
def FRONTIER_MAX : ℕ := 256

/-- Maximum number of remembered emitted ids. -/
def EMITTED_MAX : ℕ := 192

/-- One frontier slot; the timestamp is unknown until the host has decoded it. -/
structure PendingCandidate where
  id : Hash
  timestamp : Option UInt64
deriving DecidableEq

/-- One local parent edge of an emitted node. -/
structure ParentEdge where
  id : Hash
  timestamp : Option UInt64
  enqueue : Bool
deriving DecidableEq

/-- What the walk needs from its host next. -/
inductive WalkStep where
  | emit (id : Hash)
  | needTimestamp (id : Hash)
  | done
deriving DecidableEq

/-- Errors of the walk and of its snapshots. -/
inductive HistoryOrderError where
  | frontierFull
  | emittedFull
  | noSelectedCandidate
  | candidateOutstanding
  | selectedCandidate
  | walkStarted
  | notPending (id : Hash)
  | conflictingTimestamp (id : Hash) (recorded supplied : UInt64)
  | truncated
  | trailingData
  | unsupportedVersion (b : UInt8)
  | unsupportedOrder (b : UInt8)
  | invalidFlags (b : UInt8)
  | limitExceeded (field : String) (count cap : ℕ)
  | unsortedEmitted
  | invalidTimestampMarker (b : UInt8)
  | inconsistentDedupState
deriving DecidableEq

/-- The state of a walk. -/
structure TimestampDiscovery where
  /-- Slots in insertion order, duplicates included. -/
  pending : List PendingCandidate
  /-- Ids emitted since dedup went live. -/
  emitted : Finset Hash
  dedup_active : Bool
  sealed : Bool
  /-- The id handed out and not yet registered. -/
  selected : Option Hash
deriving DecidableEq

namespace TimestampDiscovery

/-- An empty walk. -/
def new : TimestampDiscovery :=
  ⟨[], ∅, false, false, none⟩

/-- Append a frontier candidate. -/
def push (s : TimestampDiscovery) (candidate : PendingCandidate) :
    Except HistoryOrderError TimestampDiscovery :=
  if s.sealed then .error .walkStarted
  else if s.selected = some candidate.id then .error .selectedCandidate
  else if FRONTIER_MAX ≤ s.pending.length then .error .frontierFull
  else .ok { s with pending := s.pending ++ [candidate] }

/-- The slots that can still emit: those of ids not yet recorded as emitted. -/
def live (s : TimestampDiscovery) : List PendingCandidate :=
  if s.dedup_active then s.pending.filter fun e => e.id ∉ s.emitted else s.pending

/-- Take a slot out and hand out its id. -/
def select (s : TimestampDiscovery) (idx : ℕ) (e : PendingCandidate) :
    WalkStep × TimestampDiscovery :=
  (.emit e.id, { s with pending := s.pending.eraseIdx idx, selected := some e.id })

/-- `Option<u64>` in its derived order, an unknown timestamp first. -/
def timestampLt : Option UInt64 → Option UInt64 → Bool
  | none, some _ => true
  | some a, some b => a < b
  | _, none => false

/-- The order of the keys `(Reverse(timestamp), index)`. -/
def keyLe (a b : PendingCandidate × ℕ) : Bool :=
  timestampLt b.1.timestamp a.1.timestamp ||
    (a.1.timestamp == b.1.timestamp && a.2 ≤ b.2)

/-- The indexed slot with the least key. -/
def minByKey : List (PendingCandidate × ℕ) → Option (PendingCandidate × ℕ)
  | [] => none
  | e :: l =>
    match minByKey l with
    | none => some e
    | some b => if keyLe e b then some e else some b

/-- Select the next step. Dead slots are dropped; a sole candidate needs no timestamp; among
several, every unknown timestamp is requested before one is selected. -/
def step (s : TimestampDiscovery) : Except HistoryOrderError (WalkStep × TimestampDiscovery) :=
  if s.selected.isSome then .error .candidateOutstanding
  else
    let s := { s with pending := s.live }
    match s.pending with
    | [] => .ok (.done, s)
    | [e] => .ok (s.select 0 e)
    | _ =>
      match s.pending.find? fun e => e.timestamp.isNone with
      | some e => .ok (.needTimestamp e.id, s)
      | none =>
        match minByKey s.pending.zipIdx with
        | some (e, idx) => .ok (s.select idx e)
        | none => .ok (.done, s)

/-- Report the timestamp of a pending candidate, on every slot of that id. -/
def provideTimestamp (s : TimestampDiscovery) (id : Hash) (timestamp : UInt64) :
    Except HistoryOrderError TimestampDiscovery :=
  let conflict := s.pending.findSome? fun e =>
    if e.id = id then e.timestamp.filter (· ≠ timestamp) else none
  match conflict with
  | some recorded => .error (.conflictingTimestamp id recorded timestamp)
  | none =>
    if ¬ s.pending.any (fun e => e.id = id) then .error (.notPending id)
    else .ok { s with
      pending := s.pending.map fun e =>
        if e.id = id then { e with timestamp := some timestamp } else e }

/-- Whether dedup is live once the outstanding id is registered with these parents. -/
def dedupAfter (s : TimestampDiscovery) (parents : List ParentEdge) : Bool :=
  s.dedup_active || parents.length > 1 || !s.pending.isEmpty

/-- The parents that are queued: those marked for it, but never the node itself nor a
recorded id. -/
def accepted (s : TimestampDiscovery) (id : Hash) (parents : List ParentEdge) :
    List PendingCandidate :=
  ((parents.filter (·.enqueue)).filter fun e =>
    e.id ≠ id ∧ ¬ (s.dedupAfter parents ∧ e.id ∈ s.emitted)).map fun e => ⟨e.id, e.timestamp⟩

/-- Register the outstanding id as emitted and queue its eligible parents. -/
def emit (s : TimestampDiscovery) (parents : List ParentEdge) :
    Except HistoryOrderError TimestampDiscovery :=
  match s.selected with
  | none => .error .noSelectedCandidate
  | some id =>
    let dedup_after := s.dedupAfter parents
    let accepted := s.accepted id parents
    if FRONTIER_MAX < s.pending.length + accepted.length then .error .frontierFull
    else if dedup_after ∧ id ∉ s.emitted ∧ EMITTED_MAX ≤ s.emitted.card then
      .error .emittedFull
    else .ok
      { pending := s.pending ++ accepted
        emitted := if dedup_after then insert id s.emitted else s.emitted
        dedup_active := dedup_after
        sealed := true
        selected := none }

/-- Whether no pending or outstanding candidate could still emit. -/
def isComplete (s : TimestampDiscovery) : Bool :=
  s.selected.isNone && !s.pending.any fun e => !(s.dedup_active && decide (e.id ∈ s.emitted))

/-! ### Snapshots -/

/-- Snapshot encoding version. -/
def SNAPSHOT_VERSION : UInt8 := 0x01

/-- Snapshot order discriminator. -/
def ORDER_ID_TIMESTAMP_DISCOVERY : UInt8 := 0x01

def FLAG_DEDUP_ACTIVE : UInt8 := 0x01
def FLAG_SELECTED : UInt8 := 0x02
def FLAG_SEALED : UInt8 := 0x04
def KNOWN_FLAGS : UInt8 := FLAG_DEDUP_ACTIVE ||| FLAG_SELECTED ||| FLAG_SEALED

/-- The flags byte. -/
def flagsOf (dedup_active selected sealed : Bool) : UInt8 :=
  (if dedup_active then FLAG_DEDUP_ACTIVE else 0) ||| (if selected then FLAG_SELECTED else 0) |||
    (if sealed then FLAG_SEALED else 0)

/-- A pending slot on the wire. -/
def writeCandidate (e : PendingCandidate) : Bytes :=
  e.id.bytes ++
    match e.timestamp with
    | some ts => 0x01 :: Wire.leBytes 8 ts.toNat
    | none => [0x00]

/-- The fields of a snapshot behind its three header bytes, the emitted ids in ascending
order. -/
def writeFields (s : TimestampDiscovery) : Bytes :=
  Wire.leBytes 2 s.pending.length ++ Wire.leBytes 2 s.emitted.card ++
    s.pending.flatMap writeCandidate ++ (s.selected.map ByteArr.bytes).getD [] ++
    (s.emitted.sort (· ≤ ·)).flatMap ByteArr.bytes

/-- The canonical snapshot of a walk. `none` is the panic of a count that does not fit its
field. -/
def encode (s : TimestampDiscovery) : Option Bytes :=
  if s.pending.length < 2 ^ 16 ∧ s.emitted.card < 2 ^ 16 then
    some ([SNAPSHOT_VERSION, ORDER_ID_TIMESTAMP_DISCOVERY,
      flagsOf s.dedup_active s.selected.isSome s.sealed] ++ s.writeFields)
  else none

/-- Readers of snapshot fields. -/
abbrev SnapshotReader := Wire.Parser HistoryOrderError

def readId : SnapshotReader Hash := ByteArr.read .truncated HASH_LEN

/-- Read a pending slot. -/
def readCandidate : SnapshotReader PendingCandidate := do
  let id ← readId
  let marker ← Wire.byte .truncated
  if marker = 0x00 then pure ⟨id, none⟩
  else if marker = 0x01 then do
    let ts ← Wire.word .truncated 8 UInt64.ofNat
    pure ⟨id, some ts⟩
  else throw (.invalidTimestampMarker marker)

/-- Read the outstanding id, when the flags announce one. -/
def readSelected (flags : UInt8) : SnapshotReader (Option Hash) :=
  if flags &&& FLAG_SELECTED ≠ 0 then do
    let id ← readId
    pure (some id)
  else pure none

/-- Read an emitted id behind the ones already read. -/
def readEmittedId (acc : List Hash) : SnapshotReader Hash := do
  let id ← readId
  if ∃ prev ∈ acc.getLast?, id ≤ prev then throw .unsortedEmitted else pure id

/-- Read the fields behind the three header bytes. -/
def readFields (flags : UInt8) : SnapshotReader TimestampDiscovery := do
  let pending_len ← Wire.word .truncated 2 UInt16.ofNat
  let emitted_len ← Wire.word .truncated 2 UInt16.ofNat
  if FRONTIER_MAX < pending_len.toNat then
    throw (.limitExceeded "pending_len" pending_len.toNat FRONTIER_MAX)
  else if EMITTED_MAX < emitted_len.toNat then
    throw (.limitExceeded "emitted_len" emitted_len.toNat EMITTED_MAX)
  else do
    let pending ← Wire.repeatWith (fun _ => readCandidate) pending_len.toNat []
    let selected ← readSelected flags
    let emitted ← Wire.repeatWith readEmittedId emitted_len.toNat []
    pure
      { pending
        emitted := emitted.toFinset
        dedup_active := flags &&& FLAG_DEDUP_ACTIVE ≠ 0
        sealed := flags &&& FLAG_SEALED ≠ 0
        selected }

/-- A whole snapshot. -/
def readSnapshot : SnapshotReader TimestampDiscovery := do
  let version ← Wire.byte .truncated
  if version ≠ SNAPSHOT_VERSION then throw (.unsupportedVersion version)
  else do
    let order ← Wire.byte .truncated
    if order ≠ ORDER_ID_TIMESTAMP_DISCOVERY then throw (.unsupportedOrder order)
    else do
      let flags ← Wire.byte .truncated
      if flags &&& ~~~KNOWN_FLAGS ≠ 0 then throw (.invalidFlags flags)
      else readFields flags

/-- Restore a walk from its snapshot. -/
def decode (input : Bytes) : Except HistoryOrderError TimestampDiscovery :=
  match readSnapshot input with
  | .error e => .error e
  | .ok (s, cur) =>
    if cur ≠ [] then .error .trailingData
    else if s.dedup_active = decide (s.emitted = ∅) then .error .inconsistentDedupState
    else .ok s

/-- What every walk keeps between calls: both caps, and dedup live exactly when an id is
recorded. -/
structure Valid (s : TimestampDiscovery) : Prop where
  pending_le : s.pending.length ≤ FRONTIER_MAX
  emitted_le : s.emitted.card ≤ EMITTED_MAX
  dedup_iff : s.dedup_active = true ↔ s.emitted ≠ ∅

variable {s : TimestampDiscovery}

/-- Within its caps a walk has a snapshot. -/
theorem Valid.encode_eq (h : s.Valid) :
    s.encode = some ([SNAPSHOT_VERSION, ORDER_ID_TIMESTAMP_DISCOVERY,
      flagsOf s.dedup_active s.selected.isSome s.sealed] ++ s.writeFields) := by
  rw [encode, if_pos ⟨lt_of_le_of_lt h.pending_le (by decide),
    lt_of_le_of_lt h.emitted_le (by decide)⟩]

theorem parses_readCandidate : Wire.Parses readCandidate (fun e bs => bs = writeCandidate e) := by
  refine ((ByteArr.parses_read _ _).bind fun id => (Wire.Parses.byte _).bind fun m =>
    (Wire.Parses.pure _).ite (((Wire.Parses.word64 _).bind fun ts => Wire.Parses.pure _).ite
      (Wire.Parses.throw _))).congr fun e bs => ?_
  constructor
  · rintro ⟨id, u, v, rfl, ⟨m, u', w, rfl, hw, rfl⟩, rfl⟩
    rcases hw with ⟨rfl, rfl, rfl⟩ | ⟨-, ⟨rfl, ts, u, v, rfl, ⟨rfl, rfl⟩, rfl⟩ | ⟨-, h⟩⟩
    · rfl
    · simp [writeCandidate]
    · exact h.elim
  · rintro rfl
    obtain ⟨id, _ | ts⟩ := e
    · exact ⟨id, _, _, rfl, ⟨0x00, _, [], rfl, .inl ⟨rfl, rfl, rfl⟩, rfl⟩, rfl⟩
    · refine ⟨id, _, _, rfl, ⟨0x01, _, _, rfl, .inr ⟨by decide, .inl ⟨rfl, ts, _, [], rfl,
        ⟨rfl, rfl⟩, rfl⟩⟩, rfl⟩, ?_⟩
      simp [writeCandidate]

theorem parses_readSelected (flags : UInt8) : Wire.Parses (readSelected flags) (fun o bs =>
      o.isSome = decide (flags &&& FLAG_SELECTED ≠ 0) ∧
        bs = (o.map ByteArr.bytes).getD []) := by
  unfold readSelected
  by_cases h : flags &&& FLAG_SELECTED ≠ 0
  · rw [if_pos h]
    refine ((ByteArr.parses_read _ _).bind fun id => Wire.Parses.pure _).congr fun o bs => ?_
    rw [decide_eq_true h]
    constructor
    · rintro ⟨id, u, v, rfl, ⟨rfl, rfl⟩, rfl⟩
      simp
    · rintro ⟨ho, rfl⟩
      obtain ⟨id, rfl⟩ := Option.isSome_iff_exists.1 ho
      exact ⟨id, _, _, rfl, ⟨rfl, rfl⟩, by simp⟩
  · rw [if_neg h]
    refine (Wire.Parses.pure _).congr fun o bs => ?_
    rw [decide_eq_false h]
    cases o <;> simp

theorem parses_readEmittedId (acc : List Hash) : Wire.Parses (readEmittedId acc) (fun a bs =>
      (∀ p ∈ acc.getLast?, p < a) ∧ bs = a.bytes) := by
  refine ((ByteArr.parses_read _ _).bind fun id => (Wire.Parses.pure _).check).congr
    fun a bs => ?_
  constructor
  · rintro ⟨id, u, v, rfl, ⟨hlt, rfl, rfl⟩, rfl⟩
    refine ⟨fun p hp => lt_of_not_ge fun hle => hlt ⟨p, hp, hle⟩, by simp⟩
  · rintro ⟨hlt, rfl⟩
    refine ⟨a, _, [], rfl, ⟨?_, rfl, rfl⟩, by simp⟩
    rintro ⟨p, hp, hle⟩
    exact absurd (hlt p hp) (not_lt_of_ge hle)

/-- The flags byte tells the three flags. -/
theorem flags_iff {flags : UInt8} {d sel sealed : Bool} :
    (flags &&& ~~~KNOWN_FLAGS = 0 ∧ d = decide (flags &&& FLAG_DEDUP_ACTIVE ≠ 0) ∧
      sel = decide (flags &&& FLAG_SELECTED ≠ 0) ∧
      sealed = decide (flags &&& FLAG_SEALED ≠ 0)) ↔ flags = flagsOf d sel sealed := by
  have hleft : ∀ n : Fin 256, UInt8.ofNat n &&& ~~~KNOWN_FLAGS = 0 →
      UInt8.ofNat n = flagsOf (decide (UInt8.ofNat n &&& FLAG_DEDUP_ACTIVE ≠ 0))
        (decide (UInt8.ofNat n &&& FLAG_SELECTED ≠ 0))
        (decide (UInt8.ofNat n &&& FLAG_SEALED ≠ 0)) := by decide +kernel
  constructor
  · rintro ⟨h, rfl, rfl, rfl⟩
    have hn := hleft ⟨flags.toNat, flags.toNat_lt⟩
    rw [UInt8.ofNat_toNat] at hn
    exact hn h
  · rintro rfl
    revert d sel sealed
    decide

/-- Strictly ascending ids are the ascending list of their set. -/
theorem sort_toFinset {l : List Hash} (h : l.IsChain (· < ·)) : l.toFinset.sort (· ≤ ·) = l := by
  have hp : l.Pairwise (· < ·) := List.isChain_iff_pairwise.1 h
  rw [List.toFinset_sort _ (hp.imp fun h => ne_of_lt h)]
  exact hp.imp fun h => le_of_lt h

theorem isChain_sort (E : Finset Hash) : (E.sort (· ≤ ·)).IsChain (· < ·) :=
  List.isChain_iff_pairwise.2 (Finset.sortedLT_sort E).pairwise

theorem parses_readFields (flags : UInt8) : Wire.Parses (readFields flags) (fun s bs =>
      (s.pending.length ≤ FRONTIER_MAX ∧ s.emitted.card ≤ EMITTED_MAX) ∧
        (s.dedup_active = decide (flags &&& FLAG_DEDUP_ACTIVE ≠ 0) ∧
          s.selected.isSome = decide (flags &&& FLAG_SELECTED ≠ 0) ∧
          s.sealed = decide (flags &&& FLAG_SEALED ≠ 0)) ∧ bs = s.writeFields) := by
  have hpending : ∀ n, Wire.Parses (Wire.repeatWith (fun _ => readCandidate) n [])
      (fun l bs => l.length = n ∧ bs = l.flatMap writeCandidate) := by
    intro n
    have hcandidate : ∀ _ : List PendingCandidate, Wire.Parses readCandidate
        (fun e u => True ∧ u = writeCandidate e) :=
      fun _ => parses_readCandidate.congr fun e u => by rw [true_and]
    refine (Wire.Parses.repeatWith hcandidate n []).congr fun l bs => ?_
    rw [← Wire.encodes_flatMap]
    simp [Wire.admits_true]
  have hemitted : ∀ n, Wire.Parses (Wire.repeatWith readEmittedId n [])
      (fun l bs => l.length = n ∧ l.IsChain (· < ·) ∧ bs = l.flatMap ByteArr.bytes) := by
    intro n
    refine (Wire.Parses.repeatWith (R := fun e u => u = ByteArr.bytes e)
      parses_readEmittedId n []).congr fun l bs => ?_
    constructor
    · rintro ⟨l, rfl, hlen, hadm, henc⟩
      rw [Wire.admits_getLast] at hadm
      exact ⟨hlen, hadm, Wire.encodes_flatMap.1 henc⟩
    · rintro ⟨hlen, hchain, rfl⟩
      exact ⟨l, rfl, hlen, Wire.admits_getLast.2 hchain, Wire.encodes_flatMap.2 rfl⟩
  refine ((Wire.Parses.word16 _).bind fun pl => (Wire.Parses.word16 _).bind fun el =>
    (((hpending pl.toNat).bind fun pending => (parses_readSelected flags).bind fun selected =>
      (hemitted el.toNat).bind fun emitted => Wire.Parses.pure _).check).check).congr
    fun s bs => ?_
  constructor
  · rintro ⟨pl, u, v, rfl, ⟨el, u', v', rfl, ⟨hpl, hel, pending, u₁, v₁, ⟨hlen, rfl⟩, ⟨selected,
      u₂, v₂, ⟨hsel, rfl⟩, ⟨emitted, u₃, v₃, ⟨helen, hchain, rfl⟩, ⟨rfl, rfl⟩, rfl⟩, rfl⟩, rfl⟩,
      rfl⟩, rfl⟩
    have hcard : emitted.toFinset.card = el.toNat := by
      rw [← helen, ← sort_toFinset hchain, Finset.length_sort, sort_toFinset hchain]
    refine ⟨⟨?_, ?_⟩, ⟨rfl, hsel, rfl⟩, ?_⟩
    · rw [hlen]
      exact not_lt.1 hpl
    · rw [hcard]
      exact not_lt.1 hel
    · simp only [writeFields, hlen, hcard, sort_toFinset hchain, List.append_assoc,
        List.append_nil]
  · rintro ⟨⟨hpl, hel⟩, ⟨hd, hsel, hsealed⟩, rfl⟩
    have hp : (UInt16.ofNat s.pending.length).toNat = s.pending.length :=
      UInt16.toNat_ofNat_of_lt' (lt_of_le_of_lt hpl (by decide))
    have he : (UInt16.ofNat s.emitted.card).toNat = s.emitted.card :=
      UInt16.toNat_ofNat_of_lt' (lt_of_le_of_lt hel (by decide))
    refine ⟨UInt16.ofNat s.pending.length, _, _, rfl, ⟨UInt16.ofNat s.emitted.card, _, _, rfl,
      ⟨?_, ?_, s.pending, _, _, ⟨hp.symm, rfl⟩, ⟨s.selected, _, _, ⟨hsel, rfl⟩,
      ⟨s.emitted.sort (· ≤ ·), _, [], ⟨?_, isChain_sort _, rfl⟩, ⟨?_, rfl⟩, rfl⟩, rfl⟩, rfl⟩,
      rfl⟩, ?_⟩
    · rw [hp]
      exact not_lt.2 hpl
    · rw [he]
      exact not_lt.2 hel
    · rw [he, Finset.length_sort]
    · obtain ⟨pending, emitted, dedup_active, sealed, selected⟩ := s
      simp only at hd hsealed
      rw [Finset.sort_toFinset, hd, hsealed]
    · rw [hp, he]
      simp only [writeFields, List.append_assoc, List.append_nil]

/-- **Snapshots are exact.** A byte string is accepted as a snapshot of a walk exactly when
the walk is valid and the bytes are its encoding. -/
theorem decode_eq_ok_iff {b : Bytes} : decode b = .ok s ↔ s.Valid ∧ s.encode = some b := by
  have hread : Wire.Parses readSnapshot (fun s bs =>
      (s.pending.length ≤ FRONTIER_MAX ∧ s.emitted.card ≤ EMITTED_MAX) ∧
        bs = [SNAPSHOT_VERSION, ORDER_ID_TIMESTAMP_DISCOVERY,
          flagsOf s.dedup_active s.selected.isSome s.sealed] ++ s.writeFields) := by
    refine ((Wire.Parses.byte _).bind fun version => ((Wire.Parses.byte _).bind fun order =>
      ((Wire.Parses.byte _).bind fun flags => (parses_readFields flags).check).check).check).congr
      fun s bs => ?_
    constructor
    · rintro ⟨version, u, v, rfl, ⟨hversion, order, u', v', rfl, ⟨horder, flags, u₁, v₁, rfl,
        ⟨hflags, hcaps, hf, rfl⟩, rfl⟩, rfl⟩, rfl⟩
      obtain rfl := not_not.1 hversion
      obtain rfl := not_not.1 horder
      obtain rfl := flags_iff.1 ⟨not_not.1 hflags, hf⟩
      exact ⟨hcaps, rfl⟩
    · rintro ⟨hcaps, rfl⟩
      obtain ⟨hflags, hf⟩ := flags_iff.2 (rfl : flagsOf s.dedup_active s.selected.isSome s.sealed =
        flagsOf s.dedup_active s.selected.isSome s.sealed)
      exact ⟨_, _, _, rfl, ⟨not_not.2 rfl, _, _, _, rfl, ⟨not_not.2 rfl, _, _, _, rfl,
        ⟨not_not.2 hflags, hcaps, hf, rfl⟩, rfl⟩, rfl⟩, rfl⟩
  unfold decode
  constructor
  · intro h
    split at h
    · cases h
    rename_i s' cur hs'
    split at h
    · cases h
    rename_i hcur
    split at h
    · cases h
    rename_i hdedup
    obtain rfl := Except.ok.inj h
    obtain rfl := not_not.1 hcur
    obtain ⟨bs, ⟨⟨hp, he⟩, rfl⟩, hb⟩ := (hread _ _ _).1 hs'
    have hv : s'.Valid := by
      refine ⟨hp, he, ?_⟩
      cases hd : s'.dedup_active <;> simp_all
    rw [List.append_nil] at hb
    exact ⟨hv, by rw [hv.encode_eq, hb]⟩
  · rintro ⟨hv, hb⟩
    rw [hv.encode_eq, Option.some.injEq] at hb
    have hr : readSnapshot b = .ok (s, []) := (hread _ _ _).2
      ⟨_, ⟨⟨hv.pending_le, hv.emitted_le⟩, rfl⟩, by rw [List.append_nil, hb]⟩
    have hdedup : ¬ s.dedup_active = decide (s.emitted = ∅) := by
      have := hv.dedup_iff
      cases hd : s.dedup_active <;> simp_all
    rw [hr]
    simp only [ne_eq, not_true_eq_false, if_false, if_neg hdedup]

/-! ### What each call can do -/

variable {s' : TimestampDiscovery} {c : PendingCandidate}

theorem push_eq_ok : s.push c = .ok s' ↔ s.sealed = false ∧ s.selected ≠ some c.id ∧
      s.pending.length < FRONTIER_MAX ∧ s' = { s with pending := s.pending ++ [c] } := by
  unfold push
  by_cases h₁ : s.sealed = true
  · simp [h₁]
  · rw [if_neg h₁]
    by_cases h₂ : s.selected = some c.id
    · simp [h₂]
    · rw [if_neg h₂]
      by_cases h₃ : FRONTIER_MAX ≤ s.pending.length
      · simp [h₃]
      · rw [if_neg h₃, Except.ok.injEq]
        simp only [h₁, h₂, not_le.1 h₃, ne_eq, not_false_eq_true, true_and, eq_comm]

theorem mem_live : c ∈ s.live ↔ c ∈ s.pending ∧ (s.dedup_active = true → c.id ∉ s.emitted) := by
  unfold live
  by_cases h : s.dedup_active = true
  · rw [if_pos h, List.mem_filter, decide_eq_true_eq]
    simp only [h, true_implies]
  · rw [if_neg h]
    exact ⟨fun hc => ⟨hc, fun hd => absurd hd h⟩, fun hc => hc.1⟩

theorem timestampLt_trans {a b c : Option UInt64} (h : timestampLt a b = true)
    (h' : timestampLt b c = true) : timestampLt a c = true := by
  cases a <;> cases b <;> cases c <;> simp_all [timestampLt]
  exact UInt64.lt_trans h h'

theorem timestampLt_total (a b : Option UInt64) :
    timestampLt a b = true ∨ a = b ∨ timestampLt b a = true := by
  cases a <;> cases b <;> simp only [timestampLt, reduceCtorEq, or_false, or_true]
  rename_i x y
  rcases lt_trichotomy x.toNat y.toNat with h | h | h
  · exact .inl (decide_eq_true (UInt64.lt_iff_toNat_lt.2 h))
  · exact .inr (.inl (congrArg some (UInt64.toNat_inj.1 h)))
  · exact .inr (.inr (decide_eq_true (UInt64.lt_iff_toNat_lt.2 h)))

variable {a b : PendingCandidate × ℕ}

/-- The key order, as a proposition. -/
theorem keyLe_iff : keyLe a b = true ↔ timestampLt b.1.timestamp a.1.timestamp = true ∨
      (a.1.timestamp = b.1.timestamp ∧ a.2 ≤ b.2) := by
  simp [keyLe]

theorem keyLe_trans {c : PendingCandidate × ℕ} (h : keyLe a b = true)
    (h' : keyLe b c = true) : keyLe a c = true := by
  rw [keyLe_iff] at *
  rcases h with h | ⟨h, hi⟩
  · rcases h' with h' | ⟨h', -⟩
    · exact .inl (timestampLt_trans h' h)
    · exact .inl (h' ▸ h)
  · rcases h' with h' | ⟨h', hi'⟩
    · exact .inl (h ▸ h')
    · exact .inr ⟨h.trans h', hi.trans hi'⟩

theorem keyLe_total (a b : PendingCandidate × ℕ) : keyLe a b = true ∨ keyLe b a = true := by
  rw [keyLe_iff, keyLe_iff]
  rcases timestampLt_total a.1.timestamp b.1.timestamp with h | h | h
  · exact .inr (.inl h)
  · rcases le_total a.2 b.2 with hi | hi
    · exact .inl (.inr ⟨h, hi⟩)
    · exact .inr (.inr ⟨h.symm, hi⟩)
  · exact .inl (.inl h)

/-- The least key is one of the list's, and no key is less. -/
theorem minByKey_eq_some {l : List (PendingCandidate × ℕ)}
    (h : minByKey l = some b) : b ∈ l ∧ ∀ a ∈ l, keyLe b a = true := by
  induction l generalizing b with
  | nil => cases h
  | cons e l ih =>
    rw [minByKey] at h
    cases hl : minByKey l with
    | none =>
      rw [hl] at h
      obtain rfl := Option.some.inj h
      have hnil : l = [] := by
        cases l with
        | nil => rfl
        | cons a l =>
          rw [minByKey] at hl
          split at hl
          · cases hl
          · split at hl <;> cases hl
      subst hnil
      refine ⟨List.mem_cons_self, fun a ha => ?_⟩
      obtain rfl := List.mem_singleton.1 ha
      exact keyLe_iff.2 (.inr ⟨rfl, le_refl _⟩)
    | some m =>
      rw [hl] at h
      obtain ⟨hm, hmin⟩ := ih hl
      simp only at h
      split at h
      · rename_i hle
        obtain rfl := Option.some.inj h
        refine ⟨List.mem_cons_self, fun a ha => ?_⟩
        rcases List.mem_cons.1 ha with rfl | ha
        · exact keyLe_iff.2 (.inr ⟨rfl, le_refl _⟩)
        · exact keyLe_trans hle (hmin a ha)
      · rename_i hle
        obtain rfl := Option.some.inj h
        refine ⟨List.mem_cons_of_mem _ hm, fun a ha => ?_⟩
        rcases List.mem_cons.1 ha with rfl | ha
        · exact (keyLe_total m a).resolve_right hle
        · exact hmin a ha

/-- The slot at an index wins: it is alone, or every slot has its timestamp and none comes
before it. -/
def Wins (l : List PendingCandidate) (i : ℕ) (e : PendingCandidate) : Prop :=
  l = [e] ∧ i = 0 ∨
    (∀ c ∈ l, c.timestamp ≠ none) ∧
      ∀ j c, l[j]? = some c → timestampLt c.timestamp e.timestamp = true ∨
        (c.timestamp = e.timestamp ∧ i ≤ j)

/-- **What a step can do.** It refuses while an id is outstanding; else it drops the dead
slots and either is done, or asks for a missing timestamp, or hands out the winner. -/
theorem step_eq_ok {r : WalkStep} (h : s.step = .ok (r, s')) : s.selected = none ∧
      ((r = .done ∧ s.live = [] ∧ s' = { s with pending := [] }) ∨
        (∃ e ∈ s.live, e.timestamp = none ∧ r = .needTimestamp e.id ∧
          s' = { s with pending := s.live }) ∨
        ∃ i e, s.live[i]? = some e ∧ Wins s.live i e ∧ r = .emit e.id ∧
          s' = { s with pending := s.live.eraseIdx i, selected := some e.id }) := by
  unfold step at h
  split at h
  · cases h
  rename_i hsel
  refine ⟨by simpa using hsel, ?_⟩
  simp only at h
  generalize hlive : s.live = l at h ⊢
  match l, h with
  | [], h =>
    obtain ⟨rfl, rfl⟩ := Prod.mk.inj (Except.ok.inj h)
    exact .inl ⟨rfl, rfl, rfl⟩
  | [e], h =>
    obtain ⟨rfl, rfl⟩ := Prod.mk.inj (Except.ok.inj h)
    exact .inr (.inr ⟨0, e, rfl, .inl ⟨rfl, rfl⟩, rfl, rfl⟩)
  | a :: b :: l, h =>
    simp only at h
    split at h
    · rename_i e he
      obtain ⟨rfl, rfl⟩ := Prod.mk.inj (Except.ok.inj h)
      have hnone := List.find?_some he
      exact .inr (.inl ⟨e, List.mem_of_find?_eq_some he, by simpa using hnone, rfl, rfl⟩)
    · rename_i hnone
      split at h
      · rename_i e idx hmin
        obtain ⟨rfl, rfl⟩ := Prod.mk.inj (Except.ok.inj h)
        obtain ⟨hmem, hle⟩ := minByKey_eq_some hmin
        refine .inr (.inr ⟨idx, e, List.mk_mem_zipIdx_iff_getElem?.1 hmem, .inr ⟨?_, ?_⟩, rfl,
          rfl⟩)
        · intro c hc
          simpa using List.find?_eq_none.1 hnone c hc
        · intro j c hj
          have hkey := keyLe_iff.1 (hle (c, j) (List.mk_mem_zipIdx_iff_getElem?.2 hj))
          exact hkey.imp_right fun h => ⟨h.1.symm, h.2⟩
      · rename_i hmin
        rw [List.zipIdx_cons, minByKey] at hmin
        split at hmin
        · cases hmin
        · split at hmin <;> cases hmin

/-- A step is refused only while an id is outstanding. -/
theorem exists_step (h : s.selected = none) : ∃ r s', s.step = .ok (r, s') := by
  unfold step
  rw [if_neg (by simp [h])]
  simp only
  split
  · exact ⟨_, _, rfl⟩
  · exact ⟨_, _, rfl⟩
  · split
    · exact ⟨_, _, rfl⟩
    · split <;> exact ⟨_, _, rfl⟩

/-- Filling in the timestamp of an id. -/
def keyed (id : Hash) (timestamp : UInt64) (e : PendingCandidate) : PendingCandidate :=
  if e.id = id then { e with timestamp := some timestamp } else e

@[simp] theorem keyed_id (id : Hash) (timestamp : UInt64) (e : PendingCandidate) :
    (keyed id timestamp e).id = e.id := by
  unfold keyed
  split <;> rfl

/-- A timestamp is accepted exactly for a pending id none of whose slots disagrees. -/
theorem provideTimestamp_eq_ok {id : Hash} {ts : UInt64} : s.provideTimestamp id ts = .ok s' ↔
      (∃ e ∈ s.pending, e.id = id) ∧ (∀ e ∈ s.pending, e.id = id → ∀ t ∈ e.timestamp, t = ts) ∧
        s' = { s with pending := s.pending.map (keyed id ts) } := by
  unfold provideTimestamp
  simp only
  split
  · rename_i recorded hrec
    obtain ⟨e, he, hf⟩ := List.exists_of_findSome?_eq_some hrec
    refine ⟨fun h => (by cases h), fun ⟨_, hall, _⟩ => ?_⟩
    split at hf
    · rename_i hid
      obtain ⟨ht, hne⟩ := Option.filter_eq_some_iff.1 hf
      exact absurd (hall e he hid recorded ht) (by simpa using hne)
    · cases hf
  · rename_i hnone
    have hall : ∀ e ∈ s.pending, e.id = id → ∀ t ∈ e.timestamp, t = ts := by
      intro e he hid t ht
      have hf := List.findSome?_eq_none_iff.1 hnone e he
      rw [if_pos hid] at hf
      by_contra hne
      have hsome : e.timestamp.filter (· ≠ ts) = some t :=
        Option.filter_eq_some_iff.2 ⟨ht, by simpa using hne⟩
      rw [hf] at hsome
      cases hsome
    by_cases hany : s.pending.any (fun e => e.id = id) = true
    · rw [if_neg (not_not.2 hany), Except.ok.injEq]
      obtain ⟨e, he, hid⟩ := List.any_eq_true.1 hany
      refine ⟨fun h => ⟨⟨e, he, by simpa using hid⟩, hall, h.symm⟩, fun h => h.2.2.symm⟩
    · rw [if_pos hany]
      refine ⟨fun h => (by cases h), fun ⟨⟨e, he, hid⟩, _⟩ => ?_⟩
      exact absurd (List.any_eq_true.2 ⟨e, he, by simpa using hid⟩) hany

/-- The walk after the outstanding id is registered. -/
def registered (s : TimestampDiscovery) (id : Hash) (parents : List ParentEdge) :
    TimestampDiscovery where
  pending := s.pending ++ s.accepted id parents
  emitted := if s.dedupAfter parents then insert id s.emitted else s.emitted
  dedup_active := s.dedupAfter parents
  sealed := true
  selected := none

/-- Registering succeeds exactly within both caps. -/
theorem emit_eq_ok {parents : List ParentEdge} :
    s.emit parents = .ok s' ↔ ∃ id, s.selected = some id ∧
      s.pending.length + (s.accepted id parents).length ≤ FRONTIER_MAX ∧
      (s.dedupAfter parents = true → id ∉ s.emitted → s.emitted.card < EMITTED_MAX) ∧
      s' = s.registered id parents := by
  unfold emit
  cases hsel : s.selected with
  | none => simp
  | some id =>
    simp only [Option.some.injEq, exists_eq_left']
    by_cases h₁ : FRONTIER_MAX < s.pending.length + (s.accepted id parents).length
    · rw [if_pos h₁]
      exact ⟨fun h => (by cases h), fun h => absurd h.1 (not_le.2 h₁)⟩
    · rw [if_neg h₁]
      by_cases h₂ : s.dedupAfter parents = true ∧ id ∉ s.emitted ∧
          EMITTED_MAX ≤ s.emitted.card
      · rw [if_pos h₂]
        exact ⟨fun h => (by cases h),
          fun h => absurd (h.2.1 h₂.1 h₂.2.1) (not_lt.2 h₂.2.2)⟩
      · rw [if_neg h₂, Except.ok.injEq]
        refine ⟨fun h => ⟨not_lt.1 h₁, fun hd hid => ?_, h.symm⟩, fun h => h.2.2.symm⟩
        exact not_le.1 fun hle => h₂ ⟨hd, hid, hle⟩

/-- With an id outstanding, only a cap makes registering fail. -/
theorem emit_eq_error {id : Hash} {parents : List ParentEdge}
    {e : HistoryOrderError} (hsel : s.selected = some id) (h : s.emit parents = .error e) :
    e = .frontierFull ∨ e = .emittedFull := by
  unfold emit at h
  rw [hsel] at h
  simp only at h
  split at h
  · exact .inl (Except.error.inj h).symm
  · split at h
    · exact .inr (Except.error.inj h).symm
    · cases h

theorem length_live_le (s : TimestampDiscovery) : s.live.length ≤ s.pending.length := by
  unfold live
  split
  · exact List.length_filter_le _ _
  · exact le_refl _

theorem valid_new : new.Valid :=
  ⟨Nat.zero_le _, Nat.zero_le _, by decide⟩

section Valid

variable {s s' : TimestampDiscovery}

/-- Neither the slots, within their cap, nor the outstanding id matter otherwise. -/
theorem Valid.of_pending (h : s.Valid) {pending : List PendingCandidate}
    (hlen : pending.length ≤ FRONTIER_MAX) (selected : Option Hash) :
    Valid { s with pending := pending, selected := selected } :=
  ⟨hlen, h.emitted_le, h.dedup_iff⟩

theorem Valid.push (h : s.Valid) {c : PendingCandidate} (hp : s.push c = .ok s') : s'.Valid := by
  obtain ⟨-, -, hlen, rfl⟩ := push_eq_ok.1 hp
  refine h.of_pending ?_ s.selected
  rw [List.length_append, List.length_singleton]
  exact hlen

theorem Valid.step (h : s.Valid) {r : WalkStep} (hs : s.step = .ok (r, s')) : s'.Valid := by
  have hlive := s.length_live_le.trans h.pending_le
  rcases (step_eq_ok hs).2 with ⟨-, -, rfl⟩ | ⟨e, -, -, -, rfl⟩ | ⟨i, e, -, -, -, rfl⟩
  · exact h.of_pending (Nat.zero_le _) s.selected
  · exact h.of_pending hlive s.selected
  · exact h.of_pending ((List.length_eraseIdx_le _ _).trans hlive) (some e.id)

theorem Valid.provideTimestamp (h : s.Valid) {id : Hash} {ts : UInt64}
    (hp : s.provideTimestamp id ts = .ok s') : s'.Valid := by
  obtain ⟨-, -, rfl⟩ := provideTimestamp_eq_ok.1 hp
  refine h.of_pending ?_ s.selected
  rw [List.length_map]
  exact h.pending_le

/-- Registering records an id exactly when it turns dedup on or finds it on. -/
theorem Valid.emit (h : s.Valid) {parents : List ParentEdge} (he : s.emit parents = .ok s') :
    s'.Valid := by
  obtain ⟨id, -, hcap, hcap', rfl⟩ := emit_eq_ok.1 he
  refine ⟨?_, ?_, ?_⟩
  · rw [registered, List.length_append]
    exact hcap
  · unfold registered
    dsimp only
    split
    · rename_i hd
      by_cases hmem : id ∈ s.emitted
      · rw [Finset.insert_eq_self.2 hmem]
        exact h.emitted_le
      · rw [Finset.card_insert_of_notMem hmem]
        exact hcap' hd hmem
    · exact h.emitted_le
  · unfold registered
    dsimp only
    by_cases hd : s.dedupAfter parents = true
    · rw [if_pos hd]
      exact ⟨fun _ => Finset.insert_ne_empty _ _, fun _ => hd⟩
    · rw [if_neg hd, ← h.dedup_iff]
      refine ⟨fun h => absurd h hd, fun hact => ?_⟩
      rw [dedupAfter, hact]
      rfl

end Valid

/-- A queued parent is a listed parent that is marked, not the node itself, and not
recorded while dedup is live. -/
theorem mem_accepted {id : Hash} {parents : List ParentEdge} :
    c ∈ s.accepted id parents ↔ ∃ e ∈ parents, e.enqueue = true ∧ e.id ≠ id ∧
      ¬ (s.dedupAfter parents = true ∧ e.id ∈ s.emitted) ∧ c = ⟨e.id, e.timestamp⟩ := by
  simp only [accepted, List.mem_map, List.mem_filter, decide_eq_true_eq, and_assoc,
    @eq_comm _ _ c]

end TimestampDiscovery

end Mkit
