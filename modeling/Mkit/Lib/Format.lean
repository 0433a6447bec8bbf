import Mathlib.Computability.Encoding
import Mkit.Lib.Text

/-!
# Written and Read Texts

A format is a way to write values and a way to read one back from the front of a text, whatever
follows it; formats carry the proof that the two agree. They are put together from literal texts,
numbers, quoted strings and lists, so a record that is written as JSON is a format by
construction.
-/

/-- How values are written, and how one is read from the front of a text. -/
structure Format (α : Type) where
  write : α → List UInt8
  read : List UInt8 → Option (α × List UInt8)
  /-- What is written is read back, and what follows is left. -/
  read_write : ∀ a rest, read (write a ++ rest) = some (a, rest)

namespace Format

variable {α β : Type}

/-- The encoding of whole texts. -/
def encoding (p : Format α) : Computability.Encoding α UInt8 where
  encode := p.write
  decode := fun s =>
    match p.read s with
    | some (a, []) => some a
    | _ => none
  decode_encode := fun a => by
    have h := p.read_write a []
    rw [List.append_nil] at h
    rw [h]

/-! ### Records -/

/-- The text behind a literal one. -/
def strip : List UInt8 → List UInt8 → Option (List UInt8)
  | [], s => some s
  | b :: lit, c :: s => if b = c then strip lit s else none
  | _ :: _, [] => none

theorem strip_append (lit s : List UInt8) : strip lit (lit ++ s) = some s := by
  induction lit with
  | nil => rfl
  | cons b lit ih => rw [List.cons_append, strip, if_pos rfl, ih]

/-- A literal text in front of a value. -/
def after (lit : List UInt8) (p : Format α) : Format α where
  write := fun a => lit ++ p.write a
  read := fun s => (strip lit s).bind p.read
  read_write := fun a rest => by
    rw [List.append_assoc, strip_append, Option.bind_some, p.read_write]

/-- A literal text behind a value. -/
def before (p : Format α) (lit : List UInt8) : Format α where
  write := fun a => p.write a ++ lit
  read := fun s => (p.read s).bind fun r => (strip lit r.2).map fun rest => (r.1, rest)
  read_write := fun a rest => by
    rw [List.append_assoc, p.read_write, Option.bind_some, strip_append, Option.map_some]

/-- Two values in a row. -/
def pair (p : Format α) (q : Format β) : Format (α × β) where
  write := fun a => p.write a.1 ++ q.write a.2
  read := fun s => (p.read s).bind fun r => (q.read r.2).map fun t => ((r.1, t.1), t.2)
  read_write := fun a rest => by
    rw [List.append_assoc, p.read_write, Option.bind_some, q.read_write, Option.map_some]

/-- Values written as others, which they can be made of again. -/
def via (p : Format α) (of : β → α) (make : α → Option β) (h : ∀ b, make (of b) = some b) :
    Format β where
  write := fun b => p.write (of b)
  read := fun s => (p.read s).bind fun r => (make r.1).map fun b => (b, r.2)
  read_write := fun b rest => by
    rw [p.read_write, Option.bind_some, h, Option.map_some]

/-! ### Numbers -/

/-- A number in decimal, and a byte behind it that is none of a number. -/
def number {T : Type} (N : Text.Numeral T) (stop : UInt8) (h : ∀ n, stop ∉ N.toString n) :
    Format T where
  write := fun n => N.toString n ++ [stop]
  read := fun s => (Text.splitOnce stop s).bind fun r => (N.fromStr r.1).map fun n => (n, r.2)
  read_write := fun n rest => by
    have hsplit : Text.splitOnce stop (N.toString n ++ [stop] ++ rest) =
        some (N.toString n, rest) := by
      rw [Text.splitOnce_eq_some_iff]
      exact ⟨h n, by rw [List.append_assoc, List.singleton_append]⟩
    rw [hsplit, Option.bind_some, N.fromStr_toString, Option.map_some]

/-- A `u64` in decimal, and a byte behind it that is no digit. -/
def u64 (stop : UInt8) (h : stop.toNat < 0x30 ∨ 0x39 < stop.toNat) : Format UInt64 :=
  number Text.u64 stop fun n hmem => by
    have hdigit := (Text.decimal_spec n.toNat).2 stop hmem
    omega

/-- A number below `10 ^ k` has at most `k` digits. -/
theorem length_decimal_le {n k : ℕ} (hk : 0 < k) (h : n < 10 ^ k) :
    (Text.decimal n).length ≤ k := by
  induction k generalizing n with
  | zero => omega
  | succ k ih =>
    rw [Text.decimal]
    split
    · simp
    · have hpos : 0 < k := by
        rcases Nat.eq_zero_or_pos k with rfl | hpos
        · omega
        · exact hpos
      have hdiv : n / 10 < 10 ^ k := by
        rw [Nat.div_lt_iff_lt_mul (by decide), ← pow_succ]
        exact h
      have hlen := ih hpos hdiv
      rw [List.length_append, List.length_singleton]
      omega

theorem length_u64_le (stop : UInt8) (h : stop.toNat < 0x30 ∨ 0x39 < stop.toNat) (n : UInt64) :
    ((u64 stop h).write n).length ≤ 21 := by
  have hlt := n.toNat_lt
  have hlen : (Text.decimal n.toNat).length ≤ 20 :=
    length_decimal_le (by decide) (hlt.trans (by decide))
  change (Text.decimal n.toNat ++ [stop]).length ≤ 21
  rw [List.length_append, List.length_singleton]
  omega

/-! ### Strings -/

def QUOTE : UInt8 := 0x22

def BACKSLASH : UInt8 := 0x5c

/-- The hexadecimal digits of a byte below 32. -/
def highDigit (b : UInt8) : UInt8 :=
  if b < 0x10 then 0x30 else 0x31

def lowDigit (b : UInt8) : UInt8 :=
  if b % 16 < 10 then 0x30 + b % 16 else 0x57 + b % 16

/-- A byte of a quoted string: quotes, backslashes and control characters are escaped. -/
def escape (b : UInt8) : List UInt8 :=
  if b = QUOTE then [BACKSLASH, QUOTE]
  else if b = BACKSLASH then [BACKSLASH, BACKSLASH]
  else if b = 0x08 then [BACKSLASH, 0x62]
  else if b = 0x09 then [BACKSLASH, 0x74]
  else if b = 0x0a then [BACKSLASH, 0x6e]
  else if b = 0x0c then [BACKSLASH, 0x66]
  else if b = 0x0d then [BACKSLASH, 0x72]
  else if b < 0x20 then [BACKSLASH, 0x75, 0x30, 0x30, highDigit b, lowDigit b]
  else [b]

/-- The byte an escape of one letter stands for. -/
def unescape (letter : UInt8) : UInt8 :=
  if letter = 0x62 then 0x08
  else if letter = 0x74 then 0x09
  else if letter = 0x6e then 0x0a
  else if letter = 0x66 then 0x0c
  else if letter = 0x72 then 0x0d
  else letter

/-- The byte of two hexadecimal digits. -/
def hexPair (hi lo : UInt8) : UInt8 :=
  (hi - 0x30) * 16 + if lo < 0x3a then lo - 0x30 else lo - 0x57

/-- A string up to its closing quote. -/
def readString : List UInt8 → Option (List UInt8 × List UInt8)
  | [] => none
  | [b] => if b = QUOTE then some ([], []) else none
  | b :: c :: s =>
    if b = QUOTE then some ([], c :: s)
    else if b = BACKSLASH then
      if c = 0x75 then
        match s with
        | _ :: _ :: hi :: lo :: rest =>
          (readString rest).map fun r => (hexPair hi lo :: r.1, r.2)
        | _ => none
      else (readString s).map fun r => (unescape c :: r.1, r.2)
    else (readString (c :: s)).map fun r => (b :: r.1, r.2)

/-- The digits of a control character. -/
theorem hexPair_control (n : Fin 32) :
    hexPair (highDigit (UInt8.ofNat n)) (lowDigit (UInt8.ofNat n)) = UInt8.ofNat n := by
  revert n
  decide

/-- An escape of one letter is read as the byte it stands for. -/
theorem readString_letter {letter : UInt8} (h : letter ≠ 0x75) (t : List UInt8) :
    readString (BACKSLASH :: letter :: t) =
      (readString t).map fun r => (unescape letter :: r.1, r.2) := by
  rw [readString.eq_def]
  dsimp only
  rw [if_neg (by decide), if_pos rfl, if_neg h]

/-- An escaped byte is read back in front of anything. -/
theorem readString_escape (b : UInt8) {t : List UInt8} (ht : t ≠ []) :
    readString (escape b ++ t) = (readString t).map fun r => (b :: r.1, r.2) := by
  obtain ⟨c, t, rfl⟩ := List.exists_cons_of_ne_nil ht
  unfold escape
  split_ifs with hquote hback h08 h09 h0a h0c h0d hlow
  · subst hquote
    exact readString_letter (by decide) _
  · subst hback
    exact readString_letter (by decide) _
  · subst h08
    exact readString_letter (by decide) _
  · subst h09
    exact readString_letter (by decide) _
  · subst h0a
    exact readString_letter (by decide) _
  · subst h0c
    exact readString_letter (by decide) _
  · subst h0d
    exact readString_letter (by decide) _
  · have hlt : b.toNat < 32 := UInt8.lt_iff_toNat_lt.1 hlow
    have hpair := hexPair_control ⟨b.toNat, hlt⟩
    rw [UInt8.ofNat_toNat] at hpair
    rw [List.cons_append, List.cons_append, readString.eq_def]
    dsimp only [List.cons_append, List.nil_append]
    rw [if_neg (by decide), if_pos rfl, if_pos rfl, hpair]
  · rw [List.singleton_append, readString.eq_def]
    dsimp only
    rw [if_neg hquote, if_neg hback]

theorem readString_flatMap (s rest : List UInt8) :
    readString (s.flatMap escape ++ QUOTE :: rest) = some (s, rest) := by
  induction s with
  | nil =>
    rw [List.flatMap_nil, List.nil_append, readString.eq_def]
    cases rest <;> exact if_pos rfl
  | cons b s ih =>
    have hne : s.flatMap escape ++ QUOTE :: rest ≠ [] := by simp
    rw [List.flatMap_cons, List.append_assoc, readString_escape b hne, ih, Option.map_some]

/-- A quoted string. -/
def quoted : Format (List UInt8) where
  write := fun s => QUOTE :: (s.flatMap escape ++ [QUOTE])
  read := fun s => (strip [QUOTE] s).bind readString
  read_write := fun s rest => by
    have hstrip := strip_append [QUOTE] (s.flatMap escape ++ QUOTE :: rest)
    rw [List.cons_append, List.append_assoc, List.singleton_append]
    rw [List.singleton_append] at hstrip
    rw [hstrip, Option.bind_some, readString_flatMap]

theorem length_escape_le (b : UInt8) : (escape b).length ≤ 6 := by
  unfold escape
  split_ifs <;> simp

/-- Escapes are short. -/
theorem length_quoted_le (s : List UInt8) : (quoted.write s).length ≤ 6 * s.length + 2 := by
  have hlen : (s.flatMap escape).length ≤ 6 * s.length := by
    induction s with
    | nil => exact le_rfl
    | cons b s ih =>
      have hb := length_escape_le b
      rw [List.flatMap_cons, List.length_append, List.length_cons]
      omega
  change (s.flatMap escape ++ [QUOTE]).length + 1 ≤ _
  rw [List.length_append, List.length_singleton]
  omega

/-- A byte that a quoted string holds as it is. -/
def isPlain (b : UInt8) : Bool :=
  0x20 ≤ b && b != QUOTE && b != BACKSLASH

theorem escape_of_plain {b : UInt8} (h : isPlain b = true) : escape b = [b] := by
  simp only [isPlain, Bool.and_eq_true, decide_eq_true_eq, bne_iff_ne, UInt8.le_iff_toNat_le] at h
  obtain ⟨⟨hlow, hquote⟩, hback⟩ := h
  have hne : ∀ c : UInt8, c.toNat < 0x20 → b ≠ c := by
    rintro c hc rfl
    exact absurd hlow (by rw [show (0x20 : UInt8).toNat = 0x20 from rfl]; omega)
  have hnot : ¬ b < 0x20 := by
    rw [UInt8.lt_iff_toNat_lt]
    omega
  rw [escape, if_neg hquote, if_neg hback, if_neg (hne _ (by decide)), if_neg (hne _ (by decide)),
    if_neg (hne _ (by decide)), if_neg (hne _ (by decide)), if_neg (hne _ (by decide)),
    if_neg hnot]

/-- A string of plain bytes takes two quotes more. -/
theorem length_quoted {s : List UInt8} (h : ∀ b ∈ s, isPlain b = true) :
    (quoted.write s).length = s.length + 2 := by
  have hplain : s.flatMap escape = s := by
    induction s with
    | nil => rfl
    | cons b s ih =>
      rw [List.forall_mem_cons] at h
      rw [List.flatMap_cons, escape_of_plain h.1, ih h.2, List.singleton_append]
  change (s.flatMap escape ++ [QUOTE]).length + 1 = _
  rw [hplain, List.length_append, List.length_singleton]

/-! ### Lists -/

def COMMA : UInt8 := 0x2c

def OPEN : UInt8 := 0x5b

def CLOSE : UInt8 := 0x5d

section Array

variable (p : Format α)

/-- Each element behind a comma. -/
def writeMore (l : List α) : List UInt8 :=
  l.flatMap fun a => COMMA :: p.write a

/-- The elements behind commas, up to the closing bracket. -/
def readMore : ℕ → List UInt8 → Option (List α × List UInt8)
  | 0, _ => none
  | _, [] => none
  | fuel + 1, b :: s =>
    if b = CLOSE then some ([], s)
    else if b = COMMA then
      (p.read s).bind fun r => (readMore fuel r.2).map fun t => (r.1 :: t.1, t.2)
    else none

theorem readMore_writeMore (l : List α) (rest : List UInt8) {fuel : ℕ} (h : l.length < fuel) :
    readMore p fuel (writeMore p l ++ CLOSE :: rest) = some (l, rest) := by
  induction l generalizing fuel with
  | nil =>
    obtain ⟨fuel, rfl⟩ := Nat.exists_eq_add_of_lt h
    rfl
  | cons a l ih =>
    obtain ⟨fuel, rfl⟩ : ∃ n, fuel = n + 1 := ⟨fuel - 1, by omega⟩
    have htext : writeMore p (a :: l) ++ CLOSE :: rest =
        COMMA :: (p.write a ++ (writeMore p l ++ CLOSE :: rest)) := by
      simp [writeMore]
    rw [htext, readMore, if_neg (by decide), if_pos rfl, p.read_write, Option.bind_some]
    dsimp only
    rw [ih (by rw [List.length_cons] at h; omega), Option.map_some]

/-- The elements in brackets. -/
def writeArray : List α → List UInt8
  | [] => [OPEN, CLOSE]
  | a :: l => OPEN :: (p.write a ++ (writeMore p l ++ [CLOSE]))

/-- A list in brackets. Every further element takes a comma, so as many rounds as bytes are
enough. -/
def readArray : List UInt8 → Option (List α × List UInt8)
  | b :: s =>
    if b ≠ OPEN then none
    else if s.head? = some CLOSE then some ([], s.tail)
    else (p.read s).bind fun r =>
      (readMore p (r.2.length + 1) r.2).map fun t => (r.1 :: t.1, t.2)
  | [] => none

theorem length_le_writeMore (l : List α) : l.length ≤ (writeMore p l).length := by
  induction l with
  | nil => exact le_rfl
  | cons a l ih =>
    rw [writeMore, List.flatMap_cons, List.length_append, List.length_cons, List.length_cons]
    change _ ≤ _ + (writeMore p l).length
    omega

/-- A list of values that do not start like the end of a list. -/
def array (h : ∀ a s, (p.write a ++ s).head? ≠ some CLOSE) : Format (List α) where
  write := writeArray p
  read := readArray p
  read_write := fun l rest => by
    cases l with
    | nil => rfl
    | cons a l =>
      have htext : writeArray p (a :: l) ++ rest =
          OPEN :: (p.write a ++ (writeMore p l ++ CLOSE :: rest)) := by
        simp [writeArray]
      have hfuel : l.length < (writeMore p l ++ CLOSE :: rest).length + 1 := by
        have hle := length_le_writeMore p l
        rw [List.length_append]
        omega
      rw [htext, readArray, if_neg (by simp), if_neg (h a _), p.read_write, Option.bind_some]
      dsimp only
      rw [readMore_writeMore p l rest hfuel, Option.map_some]

/-- A list takes its brackets, its elements and a comma between any two. -/
theorem length_writeArray (l : List α) :
    (writeArray p l).length = 2 + (l.map fun a => (p.write a).length).sum + (l.length - 1) := by
  have hmore : ∀ l : List α,
      (writeMore p l).length = (l.map fun a => (p.write a).length).sum + l.length := by
    intro l
    induction l with
    | nil => rfl
    | cons a l ih =>
      rw [writeMore, List.flatMap_cons, List.length_append, List.length_cons, List.map_cons,
        List.sum_cons, List.length_cons]
      change _ + (writeMore p l).length = _
      omega
  cases l with
  | nil => rfl
  | cons a l =>
    rw [writeArray, List.length_cons, List.length_append, List.length_append, hmore,
      List.length_singleton, List.map_cons, List.sum_cons, List.length_cons]
    omega

end Array

/-- The text of a value, or an end in its place. -/
def orEnd (p : Format α) (lit : List UInt8) (missing : α) (isMissing : α → Bool)
    (hmissing : ∀ a, isMissing a = true ↔ a = missing)
    (h : ∀ a s, strip lit (p.write a ++ s) = none) : Format α where
  write := fun a => if isMissing a then lit else p.write a
  read := fun s =>
    match strip lit s with
    | some rest => some (missing, rest)
    | none => p.read s
  read_write := fun a rest => by
    by_cases ha : isMissing a = true
    · rw [if_pos ha, strip_append]
      exact congrArg (fun b => some (b, rest)) ((hmissing a).1 ha).symm
    · rw [if_neg ha, h a rest, p.read_write]

end Format
