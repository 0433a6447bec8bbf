import Mkit.Hash
import Mathlib.Data.List.TakeDrop
import Mathlib.Tactic.Linarith

/-!
# The Chunker

`chunker.rs` cuts a byte string into chunks at boundaries that its content chooses: a rolling
gear hash is tested against a strict mask, then against a loose one, between a least and a most
chunk size. `ChunkIterator` does so over a string in memory and `ChunkReader` over a reader,
through a window of four times the largest chunk that is filled by reads of any length and
compacted when its tail runs short.

`Chunked cdc data chunks` is the cutting both carry out. The cut of a string depends only on
its first `maxSize` bytes (`cut_take`), and a filled window holds as many or all that is left
(`fill_spec`), so the reader cuts where the iterator does (`chunks_agree`).
-/

namespace Mkit.Chunker

open Wire

/-! ### Cut points -/

/-- ASCII `MKITFCDC` as a big-endian word. -/
def SEED : UInt64 := 0x4D4B495446434443

def MIN_SIZE : ℕ := 0x4000
def AVG_SIZE : ℕ := 0x10000
def MAX_SIZE : ℕ := 0x40000

/-- The strict mask, used below the average size. -/
def MASK_S : UInt64 := 0x0001FFFF

/-- The loose mask, used from the average size on. -/
def MASK_L : UInt64 := 0x00007FFF

/-- Output of splitmix64 for a state. -/
def splitmix (state : UInt64) : UInt64 :=
  let z := (state ^^^ (state >>> 30)) * 0xbf58476d1ce4e5b9
  let z := (z ^^^ (z >>> 27)) * 0x94d049bb133111eb
  z ^^^ (z >>> 31)

/-- The next entries of the gear table from a state on. -/
def gearEntries : ℕ → UInt64 → List UInt64
  | 0, _ => []
  | n + 1, state =>
    let state := state + 0x9e3779b97f4a7c15
    splitmix state :: gearEntries n state

/-- The gear table, one word for each byte. -/
def buildGearTable : List UInt64 :=
  gearEntries 256 SEED

/-- Sizes and masks of a chunker. -/
structure FastCdc where
  minSize : ℕ
  avgSize : ℕ
  maxSize : ℕ
  maskS : UInt64
  maskL : UInt64
  min_lt : minSize < avgSize
  avg_lt : avgSize < maxSize

/-- The frozen parameters. -/
def FastCdc.v1 : FastCdc where
  minSize := MIN_SIZE
  avgSize := AVG_SIZE
  maxSize := MAX_SIZE
  maskS := MASK_S
  maskL := MASK_L
  min_lt := by decide
  avg_lt := by decide

/-- Roll the hash over bytes from position `i` on, to the first position where the mask hits. -/
def scanMask (mask : UInt64) : Bytes → ℕ → UInt64 → Option ℕ × UInt64
  | [], _, hash => (none, hash)
  | b :: bytes, i, hash =>
    let hash := (hash <<< 1) + buildGearTable.getD b.toNat 0
    if hash &&& mask = 0 then (some i, hash) else scanMask mask bytes (i + 1) hash

/-- Length of the first chunk of `data`. -/
def FastCdc.cut (cdc : FastCdc) (data : Bytes) : ℕ :=
  if data.length ≤ cdc.minSize then data.length
  else
    let avgEnd := min cdc.avgSize data.length
    match scanMask cdc.maskS ((data.take avgEnd).drop cdc.minSize) cdc.minSize 0 with
    | (some i, _) => i
    | (none, hash) =>
      let maxEnd := min cdc.maxSize data.length
      match scanMask cdc.maskL ((data.take maxEnd).drop avgEnd) avgEnd hash with
      | (some i, _) => i
      | (none, _) => maxEnd

/-- A hit lies on one of the bytes scanned. -/
theorem scanMask_eq_some {mask : UInt64} {bytes : Bytes} {i j : ℕ} {hash : UInt64}
    (h : (scanMask mask bytes i hash).1 = some j) : i ≤ j ∧ j < i + bytes.length := by
  induction bytes generalizing i hash with
  | nil => cases h
  | cons b bytes ih =>
    rw [scanMask] at h
    rw [List.length_cons]
    split at h
    · obtain rfl := Option.some.inj h
      omega
    · have := ih h
      omega

variable {cdc : FastCdc}

/-- A string within the least size is one chunk. -/
theorem cut_of_le {data : Bytes} (h : data.length ≤ cdc.minSize) : cdc.cut data = data.length :=
  if_pos h

/-- A longer string is cut between the least size and the most, inside the string. -/
theorem cut_bounds {data : Bytes} (h : cdc.minSize < data.length) :
    cdc.minSize ≤ cdc.cut data ∧ cdc.cut data ≤ cdc.maxSize ∧ cdc.cut data ≤ data.length := by
  have hmin := cdc.min_lt
  have havg := cdc.avg_lt
  rw [FastCdc.cut, if_neg (by omega)]
  dsimp only
  split
  · rename_i i _ hscan
    have hi := scanMask_eq_some (congrArg Prod.fst hscan)
    rw [List.length_drop, List.length_take] at hi
    omega
  · split
    · rename_i i _ hscan
      have hi := scanMask_eq_some (congrArg Prod.fst hscan)
      rw [List.length_drop, List.length_take] at hi
      omega
    · omega

theorem cut_le_length (data : Bytes) : cdc.cut data ≤ data.length := by
  by_cases h : data.length ≤ cdc.minSize
  · exact (cut_of_le h).le
  · exact (cut_bounds (by omega)).2.2

theorem cut_le_maxSize (data : Bytes) : cdc.cut data ≤ cdc.maxSize := by
  by_cases h : data.length ≤ cdc.minSize
  · have hmin := cdc.min_lt
    have havg := cdc.avg_lt
    rw [cut_of_le h]
    omega
  · exact (cut_bounds (by omega)).2.1

/-- With a least size of at least one, a chunk is never empty. -/
theorem cut_pos (hmin : 1 ≤ cdc.minSize) {data : Bytes} (h : data ≠ []) : 0 < cdc.cut data := by
  by_cases hle : data.length ≤ cdc.minSize
  · rw [cut_of_le hle]
    exact List.length_pos_iff.2 h
  · have hlong : cdc.minSize < data.length := by omega
    have := (cut_bounds hlong).1
    omega

/-- The cut looks at the first `maxSize` bytes only. -/
theorem cut_take {data : Bytes} {n : ℕ} (hn : cdc.maxSize ≤ n) :
    cdc.cut (data.take n) = cdc.cut data := by
  have hmin := cdc.min_lt
  have havg := cdc.avg_lt
  have hle : (data.take n).length ≤ cdc.minSize ↔ data.length ≤ cdc.minSize := by
    rw [List.length_take]
    omega
  by_cases h : data.length ≤ cdc.minSize
  · rw [cut_of_le h, cut_of_le (hle.2 h), List.length_take]
    omega
  · have havgEnd : min cdc.avgSize (data.take n).length = min cdc.avgSize data.length := by
      rw [List.length_take]
      omega
    have hmaxEnd : min cdc.maxSize (data.take n).length = min cdc.maxSize data.length := by
      rw [List.length_take]
      omega
    have htake : ∀ m ≤ n, (data.take n).take m = data.take m := by
      intro m hm
      rw [List.take_take, min_eq_left hm]
    rw [FastCdc.cut, FastCdc.cut, if_neg h, if_neg (mt hle.1 h), havgEnd, hmaxEnd]
    dsimp only
    rw [htake _ (by omega), htake _ (by omega)]

/-! ### The chunks of a string -/

/-- `chunks` are what repeated cutting makes of `data`. -/
inductive Chunked (cdc : FastCdc) : Bytes → List Bytes → Prop
  | nil : Chunked cdc [] []
  | cons {data : Bytes} {chunks : List Bytes} (hne : data ≠ [])
      (h : Chunked cdc (data.drop (cdc.cut data)) chunks) :
      Chunked cdc data (data.take (cdc.cut data) :: chunks)

/-- Every string has chunks. -/
theorem exists_chunked (hmin : 1 ≤ cdc.minSize) (data : Bytes) :
    ∃ chunks, Chunked cdc data chunks := by
  induction hlen : data.length using Nat.strong_induction_on generalizing data with
  | _ n ih =>
    by_cases hne : data = []
    · subst hne
      exact ⟨[], .nil⟩
    · have hcut := cut_pos hmin hne
      have hpos := List.length_pos_iff.2 hne
      obtain ⟨chunks, hchunks⟩ := ih (data.drop (cdc.cut data)).length
        (by rw [List.length_drop]; omega) _ rfl
      exact ⟨_, .cons hne hchunks⟩

/-- The chunks rebuild the string. -/
theorem Chunked.flatten {data : Bytes} {chunks : List Bytes} (h : Chunked cdc data chunks) :
    chunks.flatten = data := by
  induction h with
  | nil => rfl
  | cons hne _ ih => rw [List.flatten_cons, ih, List.take_append_drop]

theorem Chunked.length_le {data : Bytes} {chunks : List Bytes} (h : Chunked cdc data chunks) :
    ∀ chunk ∈ chunks, chunk.length ≤ cdc.maxSize := by
  induction h with
  | nil => simp
  | @cons data chunks _ _ ih =>
    intro chunk hchunk
    rcases List.mem_cons.1 hchunk with rfl | hchunk
    · rw [List.length_take]
      exact (min_le_left _ _).trans (cut_le_maxSize data)
    · exact ih chunk hchunk

theorem Chunked.ne_nil (hmin : 1 ≤ cdc.minSize) {data : Bytes} {chunks : List Bytes}
    (h : Chunked cdc data chunks) : ∀ chunk ∈ chunks, chunk ≠ [] := by
  induction h with
  | nil => simp
  | cons hne _ ih =>
    intro chunk hchunk
    rcases List.mem_cons.1 hchunk with rfl | hchunk
    · have hcut := cut_pos hmin hne
      rw [← List.length_pos_iff, List.length_take]
      exact lt_min hcut (List.length_pos_iff.2 hne)
    · exact ih chunk hchunk

/-- Only the last chunk can fall short of the least size. -/
theorem Chunked.minSize_le {data : Bytes} {chunks : List Bytes} (h : Chunked cdc data chunks) :
    ∀ chunk ∈ chunks.dropLast, cdc.minSize ≤ chunk.length := by
  induction h with
  | nil => simp
  | @cons data chunks hne hrest ih =>
    by_cases hlast : chunks = []
    · simp [hlast]
    intro chunk hchunk
    rw [List.dropLast_cons_of_ne_nil hlast] at hchunk
    rcases List.mem_cons.1 hchunk with rfl | hchunk
    · -- a short string is one chunk, so nothing would be left to cut
      have hlong : cdc.minSize < data.length := by
        by_contra hle
        rw [cut_of_le (by omega), List.drop_length] at hrest
        cases hrest with
        | nil => exact hlast rfl
        | cons hne => exact hne rfl
      have := cut_bounds hlong
      rw [List.length_take]
      omega
    · exact ih chunk hchunk

/-! ### Cutting in memory -/

/-- Position of a chunk in its string. -/
structure ChunkBoundary where
  offset : ℕ
  length : ℕ
  deriving DecidableEq

/-- The bytes at a boundary. -/
def ChunkBoundary.slice (data : Bytes) (b : ChunkBoundary) : Bytes :=
  (data.drop b.offset).take b.length

structure ChunkIterator where
  cdc : FastCdc
  data : Bytes
  offset : ℕ

def ChunkIterator.new (cdc : FastCdc) (data : Bytes) : ChunkIterator where
  cdc := cdc
  data := data
  offset := 0

def ChunkIterator.next (it : ChunkIterator) : Option ChunkBoundary × ChunkIterator :=
  if it.data.length ≤ it.offset then (none, it)
  else
    let length := it.cdc.cut (it.data.drop it.offset)
    (some { offset := it.offset, length }, { it with offset := it.offset + length })

/-- Calling `next` until it has nothing more gives the items `xs`. -/
inductive Produces {σ α ε : Type} (next : σ → Except ε (Option α × σ)) : σ → List α → Prop
  | done {s s' : σ} (h : next s = .ok (none, s')) : Produces next s []
  | item {s s' : σ} {x : α} {xs : List α} (h : next s = .ok (some x, s'))
      (hrest : Produces next s' xs) : Produces next s (x :: xs)

/-- What a state produces is determined. -/
theorem Produces.unique {σ α ε : Type} {next : σ → Except ε (Option α × σ)} {s : σ}
    {xs ys : List α} (hx : Produces next s xs) (hy : Produces next s ys) : xs = ys := by
  induction hx generalizing ys with
  | done h =>
    cases hy with
    | done => rfl
    | item h' => cases h.symm.trans h'
  | item h _ ih =>
    cases hy with
    | done h' => cases h.symm.trans h'
    | item h' hrest =>
      cases h.symm.trans h'
      rw [ih hrest]

/-- The boundaries an iterator yields. Asking it for the next one cannot fail. -/
abbrev ChunkIterator.Yields (it : ChunkIterator) (bounds : List ChunkBoundary) : Prop :=
  Produces (fun it => (.ok (ChunkIterator.next it) : Except Empty _)) it bounds

/-- The iterator cuts what is left of its string. -/
theorem Chunked.yields {rest : Bytes} {chunks : List Bytes} (h : Chunked cdc rest chunks)
    {it : ChunkIterator} (hcdc : it.cdc = cdc) (hrest : it.data.drop it.offset = rest) :
    ∃ bounds, it.Yields bounds ∧ bounds.map (ChunkBoundary.slice it.data) = chunks := by
  induction h generalizing it with
  | nil =>
    have hend := List.drop_eq_nil_iff.1 hrest
    have hnext : it.next = (none, it) := if_pos hend
    exact ⟨[], .done (congrArg Except.ok hnext), rfl⟩
  | @cons rest chunks hne _ ih =>
    have hlt : ¬ it.data.length ≤ it.offset := by
      rw [← List.drop_eq_nil_iff, hrest]
      exact hne
    have hnext : it.next = (some { offset := it.offset, length := cdc.cut rest },
        { it with offset := it.offset + cdc.cut rest }) := by
      rw [ChunkIterator.next, if_neg hlt, hrest, hcdc]
    obtain ⟨bounds, hyields, hmap⟩ :=
      @ih { it with offset := it.offset + cdc.cut rest } hcdc (by
        rw [← hrest, List.drop_drop])
    refine ⟨_, .item (congrArg Except.ok hnext) hyields, ?_⟩
    rw [List.map_cons, ChunkBoundary.slice, hrest]
    exact congrArg _ hmap

/-! ### Cutting a reader -/

/-- The window holds this many times the largest chunk. -/
def WINDOW_MULTIPLE : ℕ := 4

/-- Reading at most `n` bytes: those read, and the reader afterwards. -/
abbrev Read (σ ε : Type) := σ → (n : ℕ) → Except ε ({ bytes : Bytes // bytes.length ≤ n } × σ)

/-- A chunk reader: `[start, stop)` of the buffer is read and not yet cut. -/
structure ChunkReader (σ : Type) where
  cdc : FastCdc
  reader : σ
  buf : Bytes
  start : ℕ
  stop : ℕ
  eof : Bool
  start_le : start ≤ stop
  stop_le : stop ≤ buf.length

namespace ChunkReader

variable {σ ε : Type}

def new (cdc : FastCdc) (reader : σ) : ChunkReader σ where
  cdc := cdc
  reader := reader
  buf := List.replicate (cdc.maxSize * WINDOW_MULTIPLE) 0
  start := 0
  stop := 0
  eof := false
  start_le := le_rfl
  stop_le := Nat.zero_le _

/-- The bytes read and not yet cut. -/
def window (r : ChunkReader σ) : Bytes :=
  (r.buf.take r.stop).drop r.start

/-- Move the window to the front of the buffer. -/
def compact (r : ChunkReader σ) : ChunkReader σ where
  cdc := r.cdc
  reader := r.reader
  buf := r.window ++ r.buf.drop (r.stop - r.start)
  start := 0
  stop := r.stop - r.start
  eof := r.eof
  start_le := Nat.zero_le _
  stop_le := by
    have := r.stop_le
    rw [List.length_append, window, List.length_drop, List.length_take]
    omega

/-- Put bytes that were read behind the window. -/
def extend (r : ChunkReader σ) (bytes : { bytes : Bytes // bytes.length ≤ r.buf.length - r.stop })
    (reader : σ) : ChunkReader σ where
  cdc := r.cdc
  reader := reader
  buf := r.buf.take r.stop ++ bytes.1 ++ r.buf.drop (r.stop + bytes.1.length)
  start := r.start
  stop := r.stop + bytes.1.length
  eof := r.eof
  start_le := r.start_le.trans (Nat.le_add_right _ _)
  stop_le := by
    have := r.stop_le
    rw [List.length_append, List.length_append, List.length_take]
    omega

theorem length_window (r : ChunkReader σ) : r.window.length = r.stop - r.start := by
  have := r.stop_le
  rw [window, List.length_drop, List.length_take]
  omega

/-- Pass over the first `n` bytes of the window. -/
def advance (r : ChunkReader σ) (n : ℕ) (h : n ≤ r.window.length) : ChunkReader σ where
  cdc := r.cdc
  reader := r.reader
  buf := r.buf
  start := r.start + n
  stop := r.stop
  eof := r.eof
  start_le := by
    have := r.start_le
    rw [length_window] at h
    omega
  stop_le := r.stop_le

/-- Compact when the tail of the buffer cannot take a largest chunk. -/
def makeRoom (r : ChunkReader σ) : ChunkReader σ :=
  if r.buf.length - r.stop < r.cdc.maxSize then r.compact else r

@[simp] theorem makeRoom_cdc (r : ChunkReader σ) : r.makeRoom.cdc = r.cdc := by
  rw [makeRoom]
  split <;> rfl

@[simp] theorem makeRoom_reader (r : ChunkReader σ) : r.makeRoom.reader = r.reader := by
  rw [makeRoom]
  split <;> rfl

@[simp] theorem makeRoom_eof (r : ChunkReader σ) : r.makeRoom.eof = r.eof := by
  rw [makeRoom]
  split <;> rfl

/-- Making room keeps the length of the window. -/
theorem makeRoom_span (r : ChunkReader σ) :
    r.makeRoom.stop - r.makeRoom.start = r.stop - r.start := by
  rw [makeRoom]
  split <;> rfl

/-- Fill the window to the largest chunk, or to the end of input. -/
def fill (read : Read σ ε) (r : ChunkReader σ) : Except ε (ChunkReader σ) :=
  if r.eof = false ∧ r.stop - r.start < r.cdc.maxSize then
    match read r.makeRoom.reader (r.makeRoom.buf.length - r.makeRoom.stop) with
    | .error e => .error e
    | .ok (bytes, reader) =>
      if bytes.1.length = 0 then .ok { r.makeRoom with reader := reader, eof := true }
      else fill read (r.makeRoom.extend bytes reader)
  else .ok r
termination_by r.cdc.maxSize - (r.stop - r.start)
decreasing_by
  rename_i hmore hread
  have hspan := makeRoom_span r
  have hle := r.makeRoom.start_le
  change r.makeRoom.cdc.maxSize - (r.makeRoom.stop + _ - r.makeRoom.start) < _
  rw [makeRoom_cdc]
  omega

/-- Cut the next chunk off the window, `None` at the end of input. -/
def nextChunkRef (read : Read σ ε) (r : ChunkReader σ) :
    Except ε (Option Bytes × ChunkReader σ) := do
  let r ← r.fill read
  if r.start = r.stop then .ok (none, r)
  else
    let length := r.cdc.cut r.window
    .ok (some (r.window.take length), r.advance length (cut_le_length _))

/-! ### Readers that deliver a string -/

/-- Every read takes from the front of what the reader has left, and takes something as long
as it is asked to and anything is left. -/
structure Delivers (read : Read σ ε) (rest : σ → Bytes) : Prop where
  read_ok : ∀ s n, ∃ bytes s', read s n = .ok (bytes, s') ∧ bytes.1 ++ rest s' = rest s ∧
    (0 < n → rest s ≠ [] → bytes.1 ≠ [])

/-- The buffer has its size, and the end of input is only noted when it is reached. -/
structure Ready (rest : σ → Bytes) (r : ChunkReader σ) : Prop where
  length_buf : r.buf.length = r.cdc.maxSize * WINDOW_MULTIPLE
  rest_of_eof : r.eof = true → rest r.reader = []

theorem window_compact (r : ChunkReader σ) : r.compact.window = r.window := by
  have h : r.compact.window = (r.window ++ r.buf.drop (r.stop - r.start)).take
    (r.stop - r.start) := rfl
  rw [h, ← length_window, List.take_left]

theorem length_compact (r : ChunkReader σ) : r.compact.buf.length = r.buf.length := by
  have hstop := r.stop_le
  have h : r.compact.buf = r.window ++ r.buf.drop (r.stop - r.start) := rfl
  rw [h, List.length_append, length_window, List.length_drop]
  omega

theorem window_makeRoom (r : ChunkReader σ) : r.makeRoom.window = r.window := by
  rw [makeRoom]
  split
  · exact window_compact r
  · rfl

theorem length_makeRoom (r : ChunkReader σ) : r.makeRoom.buf.length = r.buf.length := by
  rw [makeRoom]
  split
  · exact length_compact r
  · rfl

/-- With the window short of a largest chunk there is room for one behind it. -/
theorem room_makeRoom {rest : σ → Bytes} {r : ChunkReader σ} (h : Ready rest r)
    (hshort : r.stop - r.start < r.cdc.maxSize) :
    r.cdc.maxSize ≤ r.makeRoom.buf.length - r.makeRoom.stop := by
  have hbuf : r.buf.length = r.cdc.maxSize * 4 := h.length_buf
  rw [length_makeRoom]
  rw [makeRoom]
  split
  · change _ ≤ r.buf.length - (r.stop - r.start)
    omega
  · omega

theorem window_extend (r : ChunkReader σ)
    (bytes : { bytes : Bytes // bytes.length ≤ r.buf.length - r.stop }) (reader : σ) :
    (r.extend bytes reader).window = r.window ++ bytes.1 := by
  have hle := r.start_le
  have hstop := r.stop_le
  have h : (r.extend bytes reader).window =
      ((r.buf.take r.stop ++ bytes.1 ++ r.buf.drop (r.stop + bytes.1.length)).take
        (r.stop + bytes.1.length)).drop r.start := rfl
  have hlen : (r.buf.take r.stop ++ bytes.1).length = r.stop + bytes.1.length := by
    rw [List.length_append, List.length_take, min_eq_left hstop]
  rw [h, List.take_left' hlen, List.drop_append_of_le_length, window]
  rw [List.length_take]
  omega

theorem length_extend (r : ChunkReader σ)
    (bytes : { bytes : Bytes // bytes.length ≤ r.buf.length - r.stop }) (reader : σ) :
    (r.extend bytes reader).buf.length = r.buf.length := by
  have hstop := r.stop_le
  have hbytes := bytes.2
  have h : (r.extend bytes reader).buf =
    r.buf.take r.stop ++ bytes.1 ++ r.buf.drop (r.stop + bytes.1.length) := rfl
  rw [h, List.length_append, List.length_append, List.length_take, List.length_drop]
  omega

theorem window_advance (r : ChunkReader σ) (n : ℕ) (h : n ≤ r.window.length) :
    (r.advance n h).window = r.window.drop n := by
  have hw : (r.advance n h).window = (r.buf.take r.stop).drop (r.start + n) := rfl
  rw [hw, window, List.drop_drop]

variable {read : Read σ ε} {rest : σ → Bytes}

theorem Ready.makeRoom {r : ChunkReader σ} (h : Ready rest r) : Ready rest r.makeRoom where
  length_buf := by
    rw [makeRoom_cdc]
    exact (length_makeRoom r).trans h.length_buf
  rest_of_eof := by
    rw [makeRoom_eof, makeRoom_reader]
    exact h.rest_of_eof

theorem Ready.extend {r : ChunkReader σ} (h : Ready rest r) (heof : r.eof = false)
    (bytes : { bytes : Bytes // bytes.length ≤ r.buf.length - r.stop }) (reader : σ) :
    Ready rest (r.extend bytes reader) where
  length_buf := (length_extend r bytes reader).trans h.length_buf
  rest_of_eof := by
    change r.eof = true → _
    rw [heof]
    exact fun h => nomatch h

/-- Filling succeeds, loses nothing, and stops at a full window or the end of input. -/
theorem fill_spec (hread : Delivers read rest) (r : ChunkReader σ) (h : Ready rest r) :
    ∃ r', r.fill read = .ok r' ∧ r'.cdc = r.cdc ∧ Ready rest r' ∧
      r'.window ++ rest r'.reader = r.window ++ rest r.reader ∧
      (rest r'.reader = [] ∨ r.cdc.maxSize ≤ r'.window.length) := by
  induction hn : r.cdc.maxSize - (r.stop - r.start) using Nat.strong_induction_on
    generalizing r with
  | _ n ih =>
    rw [fill]
    split
    case isFalse hdone =>
      refine ⟨r, rfl, rfl, h, rfl, ?_⟩
      rw [length_window]
      cases heof : r.eof with
      | true => exact .inl (h.rest_of_eof heof)
      | false => exact .inr (by simpa [heof] using hdone)
    case isTrue hmore =>
      obtain ⟨heof, hshort⟩ := hmore
      have hroom := room_makeRoom h hshort
      obtain ⟨bytes, reader, heq, hrest, hprogress⟩ := hread.read_ok r.makeRoom.reader
        (r.makeRoom.buf.length - r.makeRoom.stop)
      rw [makeRoom_reader] at hrest hprogress
      rw [heq]
      dsimp only
      split
      case isTrue hzero =>
        -- a read of nothing: the end of input
        have hnil : bytes.1 = [] := List.length_eq_zero_iff.1 hzero
        have hend : rest r.reader = [] := by
          by_contra hne
          exact hprogress (by omega) hne hnil
        have hreader : rest reader = [] := by
          rw [hnil, hend] at hrest
          exact hrest
        refine ⟨_, rfl, makeRoom_cdc r, ⟨h.makeRoom.length_buf, fun _ => hreader⟩, ?_,
          .inl hreader⟩
        change r.makeRoom.window ++ rest reader = _
        rw [window_makeRoom, hreader, hend]
      case isFalse hsome =>
        have hspan := makeRoom_span r
        have hle := r.makeRoom.start_le
        have hcdc : (r.makeRoom.extend bytes reader).cdc = r.cdc := makeRoom_cdc r
        have hless : r.cdc.maxSize - ((r.makeRoom.extend bytes reader).stop -
            (r.makeRoom.extend bytes reader).start) < n := by
          change r.cdc.maxSize - (r.makeRoom.stop + _ - r.makeRoom.start) < n
          omega
        obtain ⟨r', hfill, hcdc', hready, hpending, hfull⟩ := ih _ hless
          (r.makeRoom.extend bytes reader)
          (h.makeRoom.extend (by rw [makeRoom_eof, heof]) bytes reader) (by rw [hcdc])
        rw [hcdc] at hcdc' hfull
        refine ⟨r', hfill, hcdc', hready, ?_, hfull⟩
        rw [hpending, window_extend, window_makeRoom, List.append_assoc]
        exact congrArg _ hrest

/-- A reader asked for chunks one after the other cuts what it has left. -/
theorem produces_of_chunked (hread : Delivers read rest) (hmin : 1 ≤ cdc.minSize) {left : Bytes}
    {chunks : List Bytes} (hchunks : Chunked cdc left chunks) {r : ChunkReader σ}
    (h : Ready rest r) (hcdc : r.cdc = cdc) (hleft : r.window ++ rest r.reader = left) :
    Produces (nextChunkRef read) r chunks := by
  induction hchunks generalizing r with
  | nil =>
    obtain ⟨r', hfill, -, -, hpending, -⟩ := fill_spec hread r h
    rw [hleft, List.append_eq_nil_iff] at hpending
    have hspan : r'.stop - r'.start = 0 := by rw [← length_window, hpending.1]; rfl
    have hle := r'.start_le
    have hnext : nextChunkRef read r = .ok (none, r') := by
      rw [nextChunkRef, hfill]
      exact if_pos (by omega)
    exact .done hnext
  | @cons left chunks hne _ ih =>
    obtain ⟨r', hfill, hcdc', hready, hpending, hfull⟩ := fill_spec hread r h
    rw [hleft] at hpending
    rw [hcdc] at hcdc' hfull
    -- the window is all that is left, or as much of it as a cut looks at
    have hcut : cdc.cut r'.window = cdc.cut left := by
      rcases hfull with hend | hfull
      · rw [← hpending, hend, List.append_nil]
      · have hwindow : left.take r'.window.length = r'.window := by
          rw [← hpending, List.take_left]
        rw [← @cut_take cdc left _ hfull, hwindow]
    have hlen : cdc.cut left ≤ r'.window.length := by
      rw [← hcut]
      exact cut_le_length _
    have hpos := cut_pos hmin hne
    have hspan := length_window r'
    have hnext : nextChunkRef read r = .ok (some (left.take (cdc.cut left)),
        r'.advance (cdc.cut left) hlen) := by
      rw [nextChunkRef, hfill]
      change (if r'.start = r'.stop then _ else _) = _
      rw [if_neg (by omega)]
      have htake : left.take (cdc.cut left) = r'.window.take (cdc.cut left) := by
        rw [← List.take_append_of_le_length hlen, hpending]
      simp only [hcdc', hcut, htake]
    refine .item hnext (ih ⟨hready.length_buf, hready.rest_of_eof⟩ hcdc' ?_)
    rw [window_advance, ← List.drop_append_of_le_length hlen]
    exact congrArg _ hpending

theorem ready_new (rest : σ → Bytes) (cdc : FastCdc) (reader : σ) :
    Ready rest (new cdc reader) where
  length_buf := List.length_replicate
  rest_of_eof := fun h => nomatch h

/-- A chunk reader yields the chunks of the iterator over the whole string, however the string
is delivered. They are not empty, rebuild the string, have at most the largest size, and all but
the last have at least the least size. -/
theorem chunks_agree (hread : Delivers read rest) (hmin : 1 ≤ cdc.minSize) (reader : σ) :
    ∃ bounds chunks, bounds.map (ChunkBoundary.slice (rest reader)) = chunks ∧
      (∀ l, (ChunkIterator.new cdc (rest reader)).Yields l ↔ l = bounds) ∧
      (∀ l, Produces (nextChunkRef read) (new cdc reader) l ↔ l = chunks) ∧
      (∀ chunk ∈ chunks, chunk ≠ [] ∧ chunk.length ≤ cdc.maxSize) ∧
      chunks.flatten = rest reader ∧
      ∀ chunk ∈ chunks.dropLast, cdc.minSize ≤ chunk.length := by
  obtain ⟨chunks, hchunks⟩ := exists_chunked hmin (rest reader)
  obtain ⟨bounds, hyields, hmap⟩ :=
    @Chunked.yields cdc _ _ hchunks (ChunkIterator.new cdc (rest reader)) rfl rfl
  have hproduces : Produces (nextChunkRef read) (new cdc reader) chunks :=
    produces_of_chunked hread hmin hchunks (ready_new rest cdc reader) rfl rfl
  refine ⟨bounds, chunks, hmap, fun l => ⟨fun h => h.unique hyields, ?_⟩,
    fun l => ⟨fun h => h.unique hproduces, ?_⟩,
    fun chunk h => ⟨hchunks.ne_nil hmin chunk h, hchunks.length_le chunk h⟩, hchunks.flatten,
    hchunks.minSize_le⟩
  · rintro rfl
    exact hyields
  · rintro rfl
    exact hproduces

/-- A reader of a string that never gives more than one byte at a time. -/
def byteAtATime : Read Bytes Empty := fun s n =>
  .ok (⟨s.take (min 1 n), by rw [List.length_take]; omega⟩, s.drop (min 1 n))

theorem delivers_byteAtATime : Delivers byteAtATime id where
  read_ok s n := by
    refine ⟨_, _, rfl, List.take_append_drop _ _, fun hn hne => ?_⟩
    have hpos := List.length_pos_iff.2 hne
    rw [← List.length_pos_iff, List.length_take]
    exact lt_min (by omega) hpos

/-- Five bytes, delivered one by one, with the frozen parameters. -/
theorem chunks_agree_byteAtATime :
    ∃ bounds chunks, bounds.map (ChunkBoundary.slice [1, 2, 3, 4, 5]) = chunks ∧
      (∀ l, (ChunkIterator.new .v1 [1, 2, 3, 4, 5]).Yields l ↔ l = bounds) ∧
      (∀ l, Produces (nextChunkRef byteAtATime) (new .v1 [1, 2, 3, 4, 5]) l ↔ l = chunks) ∧
      (∀ chunk ∈ chunks, chunk ≠ [] ∧ chunk.length ≤ FastCdc.v1.maxSize) ∧
      chunks.flatten = [1, 2, 3, 4, 5] ∧
      ∀ chunk ∈ chunks.dropLast, FastCdc.v1.minSize ≤ chunk.length :=
  chunks_agree delivers_byteAtATime (by decide) [1, 2, 3, 4, 5]

end ChunkReader

end Mkit.Chunker
