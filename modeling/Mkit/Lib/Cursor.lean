import Mkit.Lib.Wire

/-!
# Readers That Index Into a Buffer

Decoders in the wild keep an offset into a buffer and slice it. Such a reader has one more
outcome than a parser of `Mkit.Lib.Wire`: an index out of bounds, which aborts the program.
Here it is a `Cursor`, whose result is absent where an index is out of bounds, and `Tracks`
says that it does what a parser does on the bytes behind the offset, so that it never aborts.
A fixed part is sliced unguarded once its length was checked: `Tracks` counts the bytes that
are known to be there, and `Reads` is a slice that uses some of them up.
-/

namespace Wire

/-- A reader with an offset into a buffer; no result at all is an index out of bounds. -/
abbrev Cursor (ε : Type) := ReaderT (List UInt8) (StateT ℕ (ExceptT ε Option))

variable {ε α β : Type}

/-- The slice of the next `n` bytes; the offset moves behind it. -/
def fetch (n : ℕ) : Cursor ε (List UInt8) := fun data offset =>
  if offset + n ≤ data.length then some (.ok ((data.drop offset).take n, offset + n)) else none

/-- The next byte. -/
def fetchByte : Cursor ε UInt8 := do
  let bs ← fetch 1
  pure (bs.headD 0)

/-- The next little-endian word of `w` bytes. -/
def fetchWord {W : Type} (w : ℕ) (ofN : ℕ → W) : Cursor ε W := do
  let bs ← fetch w
  pure (ofN (ofLeBytes bs))

/-- Fail with `eof` unless `n` bytes follow the offset. -/
def ensure (eof : ε) (n : ℕ) : Cursor ε Unit := fun data offset =>
  if offset + n > data.length then some (.error eof) else some (.ok ((), offset))

/-- A counted loop, each round given the items so far. -/
def collectWith (step : List α → Cursor ε α) : ℕ → List α → Cursor ε (List α)
  | 0, acc => pure acc
  | n + 1, acc => do
    let a ← step acc
    collectWith step n (acc ++ [a])

/-- One outcome of a cursor on `data` and of a parser: the same error, or the same value with
the bytes behind the offset left over. -/
inductive Agrees (data : List UInt8) :
    Option (Except ε (α × ℕ)) → Except ε (α × List UInt8) → Prop
  | error (e : ε) : Agrees data (some (.error e)) (.error e)
  | ok (a : α) (offset : ℕ) (h : offset ≤ data.length) :
      Agrees data (some (.ok (a, offset))) (.ok (a, data.drop offset))

/-- The cursor does what the parser does wherever `n` bytes follow the offset. -/
def Tracks (data : List UInt8) (n : ℕ) (q : Cursor ε α) (p : Parser ε α) : Prop :=
  ∀ offset, offset + n ≤ data.length → Agrees data (q data offset) (p (data.drop offset))

/-- Both use up exactly `k` bytes that are there. -/
def Reads (data : List UInt8) (k : ℕ) (q : Cursor ε α) (p : Parser ε α) : Prop :=
  ∀ offset, offset + k ≤ data.length → ∃ a, q data offset = some (.ok (a, offset + k)) ∧
    p (data.drop offset) = .ok (a, data.drop (offset + k))

variable {data : List UInt8}

/-- A step that came to a value goes on with it. -/
theorem returned_bind {x : ExceptT ε Option α} {a : α} (h : x = some (.ok a))
    (f : α → ExceptT ε Option β) : (x >>= f) = f a := by
  subst h
  rfl

/-! ### Slices -/

variable {n : ℕ}

theorem fetch_eq {offset : ℕ} (h : offset + n ≤ data.length) :
    (fetch n : Cursor ε _) data offset = some (.ok ((data.drop offset).take n, offset + n)) :=
  if_pos h

theorem fetchByte_eq {offset : ℕ} (h : offset < data.length) :
    (fetchByte : Cursor ε _) data offset = some (.ok (data.getD offset 0, offset + 1)) := by
  refine (returned_bind (fetch_eq h) _).trans ?_
  rw [List.take_one, List.head?_drop, List.getD_eq_getElem?_getD, List.getElem?_eq_getElem h]
  rfl

theorem fetchWord_eq {W : Type} {w offset : ℕ} (ofN : ℕ → W) (h : offset + w ≤ data.length) :
    (fetchWord w ofN : Cursor ε _) data offset =
      some (.ok (ofN (ofLeBytes ((data.drop offset).take w)), offset + w)) :=
  returned_bind (fetch_eq h) _

theorem Reads.fetch (eof : ε) (k : ℕ) : Reads data k (fetch k) (take eof k) := by
  intro offset h
  refine ⟨(data.drop offset).take k, if_pos h, ?_⟩
  rw [take, if_neg (by rw [List.length_drop]; omega), List.drop_drop]

variable {k : ℕ} {q : Cursor ε α} {p : Parser ε α}

/-- A value computed from what was read. -/
theorem Reads.map (h : Reads data k q p) (f : α → β) :
    Reads data k (q >>= fun a => pure (f a)) (p >>= fun a => pure (f a)) := by
  intro offset hk
  obtain ⟨a, hq, hp⟩ := h offset hk
  refine ⟨f a, ?_, ?_⟩
  · change (q data offset >>= fun r => _) = _
    rw [hq]
    rfl
  · change (p (data.drop offset) >>= fun r => _) = _
    rw [hp]
    rfl

theorem Reads.fetchByte (eof : ε) : Reads data 1 fetchByte (byte eof) :=
  (Reads.fetch eof 1).map _

theorem Reads.fetchWord {W : Type} (eof : ε) (w : ℕ) (ofN : ℕ → W) :
    Reads data w (fetchWord w ofN) (word eof w ofN) :=
  (Reads.fetch eof w).map _

/-! ### Programs -/

/-- Knowing more bytes to be there than are needed. -/
theorem Tracks.mono (h : Tracks data k q p) (hk : k ≤ n) : Tracks data n q p :=
  fun offset hn => h offset (by omega)

theorem Tracks.pure (a : α) : Tracks (ε := ε) data 0 (pure a) (pure a) :=
  fun offset h => .ok a offset h

variable {f : α → Cursor ε β} {g : α → Parser ε β}

/-- A slice of `k` bytes leaves `k` fewer for what follows. -/
theorem Tracks.read (h : Reads data k q p) (hk : k ≤ n)
    (hf : ∀ a, Tracks data (n - k) (f a) (g a)) : Tracks data n (q >>= f) (p >>= g) := by
  intro offset hn
  obtain ⟨a, hq, hp⟩ := h offset (by omega)
  change Agrees data (q data offset >>= fun r => _) (p (data.drop offset) >>= fun r => _)
  rw [hq, hp]
  exact hf a (offset + k) (by omega)

/-- Two readers in sequence. -/
theorem Tracks.bind (h : Tracks data n q p) (hf : ∀ a, Tracks data 0 (f a) (g a)) :
    Tracks data n (q >>= f) (p >>= g) := by
  intro offset hn
  change Agrees data (q data offset >>= fun r => _) (p (data.drop offset) >>= fun r => _)
  generalize q data offset = x, p (data.drop offset) = y, h offset hn = hxy
  cases hxy with
  | error e => exact .error e
  | ok a offset' h' => exact hf a offset' h'

variable {e : ε}

/-- The length check makes the slices behind it safe. -/
theorem Tracks.ensure (h : Tracks data n q p) :
    Tracks data 0 (ensure e n >>= fun _ => q) (need e n >>= fun _ => p) := by
  intro offset h₀
  change Agrees data (Wire.ensure e n data offset >>= fun r => _)
    (need e n (data.drop offset) >>= fun r => _)
  rw [Wire.ensure, need, List.length_drop]
  by_cases hn : offset + n > data.length
  · rw [if_pos hn, if_pos (by omega)]
    exact .error e
  · rw [if_neg hn, if_neg (by omega)]
    exact h offset (by omega)

/-- A length check with the slice right behind it is a parser that takes the bytes or fails. -/
theorem Tracks.take {f : List UInt8 → Cursor ε β} {g : List UInt8 → Parser ε β}
    (hf : ∀ a, Tracks data 0 (f a) (g a)) :
    Tracks data 0 (Wire.ensure e n >>= fun _ => fetch n >>= f) (take e n >>= g) := by
  have htake : need e n >>= (fun _ => Wire.take e n >>= g) = Wire.take e n >>= g := by
    funext inp
    change (need e n inp >>= fun r => _) = (Wire.take e n inp >>= fun r => _)
    rw [need]
    split_ifs with hn
    · rw [Wire.take, if_pos hn]
      rfl
    · rfl
  rw [← htake]
  exact Tracks.ensure (Tracks.read (Reads.fetch e n) le_rfl fun a => (hf a).mono (Nat.zero_le _))

/-- A check in both. -/
theorem Tracks.check {c : Prop} [Decidable c] (h : Tracks data n q p) :
    Tracks data n (if c then throw e else q) (if c then throw e else p) := by
  by_cases hc : c
  · rw [if_pos hc, if_pos hc]
    exact fun _ _ => .error e
  · rwa [if_neg hc, if_neg hc]

theorem Tracks.repeatWith {f : List α → Cursor ε α} {g : List α → Parser ε α}
    (h : ∀ acc, Tracks data 0 (f acc) (g acc)) (n : ℕ) (acc : List α) :
    Tracks data 0 (collectWith f n acc) (repeatWith g n acc) := by
  induction n generalizing acc with
  | zero => exact Tracks.pure acc
  | succ n ih => exact (h acc).bind fun a => ih (acc ++ [a])

end Wire
