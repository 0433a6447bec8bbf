import Mathlib.Algebra.Order.Ring.Nat
import Mathlib.Data.List.DropRight
import Mathlib.Data.List.TakeDrop

/-!
# Text as Bytes

The string operations of the standard library on texts kept as UTF-8 bytes: validity,
trimming, lines, bounded splitting and decimal numbers. On valid UTF-8 a byte pattern that
starts with a leading byte can only match at a character, so working on bytes is working on
characters.
-/

namespace Text

/-- Continuation bytes, `10xxxxxx`. -/
def isCont (b : UInt8) : Bool :=
  0x80 ≤ b && b ≤ 0xbf

/-- Well-formed UTF-8: shortest form, no surrogates, nothing above U+10FFFF. -/
def isUtf8 : List UInt8 → Bool
  | [] => true
  | [a] => a ≤ 0x7f
  | [a, b] =>
    if a ≤ 0x7f then isUtf8 [b]
    else 0xc2 ≤ a && a ≤ 0xdf && isCont b
  | [a, b, c] =>
    if a ≤ 0x7f then isUtf8 [b, c]
    else if a ≤ 0xdf then 0xc2 ≤ a && isCont b && isUtf8 [c]
    else
      a ≤ 0xef && isCont b && isCont c && (a != 0xe0 || 0xa0 ≤ b) && (a != 0xed || b ≤ 0x9f)
  | a :: b :: c :: d :: rest =>
    if a ≤ 0x7f then isUtf8 (b :: c :: d :: rest)
    else if a ≤ 0xdf then 0xc2 ≤ a && isCont b && isUtf8 (c :: d :: rest)
    else if a ≤ 0xef then
      isCont b && isCont c && (a != 0xe0 || 0xa0 ≤ b) && (a != 0xed || b ≤ 0x9f) &&
        isUtf8 (d :: rest)
    else
      a ≤ 0xf4 && isCont b && isCont c && isCont d && (a != 0xf0 || 0x90 ≤ b) &&
        (a != 0xf4 || b ≤ 0x8f) && isUtf8 rest

/-- The replacement character, U+FFFD. -/
def replacement : List UInt8 :=
  [0xef, 0xbf, 0xbd]

/-- A character of more than one byte may begin so. -/
def begins (a b : UInt8) : Bool :=
  0xc2 ≤ a && a ≤ 0xf4 && isCont b && (a != 0xe0 || 0xa0 ≤ b) && (a != 0xed || b ≤ 0x9f) &&
    (a != 0xf0 || 0x90 ≤ b) && (a != 0xf4 || b ≤ 0x8f)

/-- `String::from_utf8_lossy`: every longest beginning of a character that is not completed, and
every byte that begins none, is replaced. -/
def fromUtf8Lossy : List UInt8 → List UInt8
  | [] => []
  | [a] => if a ≤ 0x7f then [a] else replacement
  | [a, b] =>
    if a ≤ 0x7f then a :: fromUtf8Lossy [b]
    else if !begins a b then replacement ++ fromUtf8Lossy [b]
    else if a ≤ 0xdf then [a, b]
    else replacement
  | [a, b, c] =>
    if a ≤ 0x7f then a :: fromUtf8Lossy [b, c]
    else if !begins a b then replacement ++ fromUtf8Lossy [b, c]
    else if a ≤ 0xdf then a :: b :: fromUtf8Lossy [c]
    else if !isCont c then replacement ++ fromUtf8Lossy [c]
    else if a ≤ 0xef then [a, b, c]
    else replacement
  | a :: b :: c :: d :: rest =>
    if a ≤ 0x7f then a :: fromUtf8Lossy (b :: c :: d :: rest)
    else if !begins a b then replacement ++ fromUtf8Lossy (b :: c :: d :: rest)
    else if a ≤ 0xdf then a :: b :: fromUtf8Lossy (c :: d :: rest)
    else if !isCont c then replacement ++ fromUtf8Lossy (c :: d :: rest)
    else if a ≤ 0xef then a :: b :: c :: fromUtf8Lossy (d :: rest)
    else if !isCont d then replacement ++ fromUtf8Lossy (d :: rest)
    else a :: b :: c :: d :: fromUtf8Lossy rest

/-- The one-byte characters with the White_Space property. -/
def isAsciiSpace (b : UInt8) : Bool :=
  (0x09 ≤ b && b ≤ 0x0d) || b == 0x20

/-- The two-byte ones: U+0085 and U+00A0. -/
def isSpace₂ (a b : UInt8) : Bool :=
  a == 0xc2 && (b == 0x85 || b == 0xa0)

/-- The three-byte ones: U+1680, U+2000 to U+200A, U+2028, U+2029, U+202F, U+205F, U+3000. -/
def isSpace₃ (a b c : UInt8) : Bool :=
  (a == 0xe1 && b == 0x9a && c == 0x80) ||
  (a == 0xe2 && b == 0x80 && ((0x80 ≤ c && c ≤ 0x8a) || c == 0xa8 || c == 0xa9 || c == 0xaf)) ||
  (a == 0xe2 && b == 0x81 && c == 0x9f) ||
  (a == 0xe3 && b == 0x80 && c == 0x80)

/-- `str::trim_start`. -/
def trimStart : List UInt8 → List UInt8
  | [] => []
  | [a] => if isAsciiSpace a then [] else [a]
  | [a, b] =>
    if isAsciiSpace a then trimStart [b]
    else if isSpace₂ a b then []
    else [a, b]
  | a :: b :: c :: rest =>
    if isAsciiSpace a then trimStart (b :: c :: rest)
    else if isSpace₂ a b then trimStart (c :: rest)
    else if isSpace₃ a b c then trimStart rest
    else a :: b :: c :: rest

/-- `str::trim_start` on a reversed text. -/
def trimStartReversed : List UInt8 → List UInt8
  | [] => []
  | [a] => if isAsciiSpace a then [] else [a]
  | [b, a] =>
    if isAsciiSpace b then trimStartReversed [a]
    else if isSpace₂ a b then []
    else [b, a]
  | c :: b :: a :: rest =>
    if isAsciiSpace c then trimStartReversed (b :: a :: rest)
    else if isSpace₂ b c then trimStartReversed (a :: rest)
    else if isSpace₃ a b c then trimStartReversed rest
    else c :: b :: a :: rest

/-- `str::trim`. -/
def trim (s : List UInt8) : List UInt8 :=
  (trimStartReversed (trimStart s).reverse).reverse

/-- `str::trim_end_matches` with a list of one-byte characters. -/
def trimEndMatches (cs s : List UInt8) : List UInt8 :=
  s.rdropWhile (· ∈ cs)

/-- `str::splitn` for a one-byte separator: at most `n` parts, the last one unsplit. -/
def splitn (sep : UInt8) : ℕ → List UInt8 → List (List UInt8)
  | 0, _ => []
  | 1, s => [s]
  | n + 2, s =>
    match s.dropWhile (· != sep) with
    | [] => [s]
    | _ :: rest => s.takeWhile (· != sep) :: splitn sep (n + 1) rest

/-- `str::lines`: split at `\n`, with an optional `\r` before it; a final line end closes the
last line. -/
def lines (s : List UInt8) : List (List UInt8) :=
  let parts := s.splitOn 0x0a
  let closed := parts.dropLast.map fun l =>
    if l.getLast? = some 0x0d then l.dropLast else l
  match parts.getLast? with
  | none | some [] => closed
  | some last => closed ++ [last]

/-- The value of decimal digits. -/
def digits : List UInt8 → ℕ → Option ℕ
  | [], acc => some acc
  | b :: rest, acc =>
    if 0x30 ≤ b && b ≤ 0x39 then digits rest (acc * 10 + (b.toNat - 0x30)) else none

/-- `str::parse::<u16>`: an optional plus sign, at least one digit, below `2 ^ 16`. -/
def parseU16 (s : List UInt8) : Option UInt16 :=
  let body := if s.head? = some 0x2b then s.tail else s
  if body.isEmpty then none
  else ((digits body 0).filter (· < 2 ^ 16)).map UInt16.ofNat

/-- The decimal digits of a number, without leading zeros, as `to_string` writes them. -/
def decimal (n : ℕ) : List UInt8 :=
  if n < 10 then [UInt8.ofNat (0x30 + n)]
  else decimal (n / 10) ++ [UInt8.ofNat (0x30 + n % 10)]

/-- `str::parse::<u64>`: an optional plus sign, at least one digit, below `2 ^ 64`. -/
def parseU64 (s : List UInt8) : Option ℕ :=
  let body := if s.head? = some 0x2b then s.tail else s
  if body.isEmpty then none
  else (digits body 0).filter (· < 2 ^ 64)

/-- `str::parse::<u32>`: an optional plus sign, at least one digit, below `2 ^ 32`. -/
def parseU32 (s : List UInt8) : Option UInt32 :=
  let body := if s.head? = some 0x2b then s.tail else s
  if body.isEmpty then none
  else ((digits body 0).filter (· < 2 ^ 32)).map UInt32.ofNat

/-- `str::parse::<i64>`: an optional sign, at least one digit, within the type. -/
def parseI64 (s : List UInt8) : Option Int64 :=
  let body := if s.head? = some 0x2b ∨ s.head? = some 0x2d then s.tail else s
  if body.isEmpty then none
  else
    match digits body 0 with
    | none => none
    | some n =>
      let n : ℤ := if s.head? = some 0x2d then -n else n
      if -2 ^ 63 ≤ n ∧ n < 2 ^ 63 then some (Int64.ofInt n) else none

/-- `i64::to_string`. -/
def decimalI64 (n : Int64) : List UInt8 :=
  if n.toInt < 0 then 0x2d :: decimal n.toInt.natAbs else decimal n.toInt.natAbs

/-- `str::split_once` for a one-byte separator. -/
def splitOnce (sep : UInt8) (s : List UInt8) : Option (List UInt8 × List UInt8) :=
  match s.span (· != sep) with
  | (_, []) => none
  | (head, _ :: tail) => some (head, tail)

/-! ### Parts -/

variable {sep : UInt8} {s : List UInt8}

/-- The parts of a text hold no separator. -/
theorem notMem_of_mem_splitOn {l : List UInt8} (h : l ∈ s.splitOn sep) : sep ∉ l := by
  induction s generalizing l with
  | nil =>
    rw [List.splitOn_nil, List.mem_singleton] at h
    simp [h]
  | cons b s ih =>
    rw [List.splitOn_cons_eq_if_modifyHead] at h
    split at h
    · rcases List.mem_cons.1 h with rfl | h
      · simp
      · exact ih h
    · rename_i hb
      cases hs : s.splitOn sep with
      | nil => exact absurd hs (List.splitOn_ne_nil sep s)
      | cons p ps =>
        rw [hs, List.modifyHead_cons, List.mem_cons] at h
        rw [hs] at ih
        rcases h with rfl | h
        · rw [List.mem_cons, not_or]
          exact ⟨fun heq => hb (beq_iff_eq.2 heq.symm), ih List.mem_cons_self⟩
        · exact ih (List.mem_cons_of_mem p h)

/-- Text is cut at its first separator in one way only. -/
theorem cut_injective {s' t t' : List UInt8} (hs : sep ∉ s) (hs' : sep ∉ s')
    (h : s ++ sep :: t = s' ++ sep :: t') : s = s' ∧ t = t' := by
  induction s generalizing s' with
  | nil =>
    cases s' with
    | nil => exact ⟨rfl, (List.cons.inj h).2⟩
    | cons b s' => exact absurd ((List.cons.inj h).1 ▸ List.mem_cons_self) hs'
  | cons a s ih =>
    cases s' with
    | nil => exact absurd ((List.cons.inj h).1 ▸ List.mem_cons_self) hs
    | cons b s' =>
      obtain ⟨rfl, hrest⟩ := List.cons.inj h
      obtain ⟨rfl, rfl⟩ := ih (mt (List.mem_cons_of_mem a) hs)
        (mt (List.mem_cons_of_mem a) hs') hrest
      exact ⟨rfl, rfl⟩

/-- Parts that are each closed by a separator are joined by it and closed once. -/
theorem flatMap_terminated (sep : UInt8) {parts : List (List UInt8)} (h : parts ≠ []) :
    (parts.flatMap fun part => part ++ [sep]) = [sep].intercalate parts ++ [sep] := by
  induction parts with
  | nil => exact absurd rfl h
  | cons p rest ih =>
    rw [List.flatMap_cons]
    cases rest with
    | nil => simp
    | cons q rest => rw [ih (List.cons_ne_nil _ _), List.intercalate_cons_cons]; simp

/-- Splitting undoes closing parts with the separator. -/
theorem splitOn_terminated {parts : List (List UInt8)}
    (h : ∀ part ∈ parts, sep ∉ part) (rest : List UInt8) :
    ((parts.flatMap fun part => part ++ [sep]) ++ rest).splitOn sep =
      parts ++ rest.splitOn sep := by
  induction parts with
  | nil => rfl
  | cons part parts ih =>
    rw [List.flatMap_cons, List.append_assoc, List.append_assoc, List.singleton_append,
      List.splitOn_append_cons_self_of_not_mem (h part List.mem_cons_self),
      ih fun p hp => h p (List.mem_cons_of_mem part hp)]
    rfl

/-- A text is split once where its first separator stands. -/
theorem splitOnce_eq_some_iff {head tail : List UInt8} :
    splitOnce sep s = some (head, tail) ↔ sep ∉ head ∧ s = head ++ sep :: tail := by
  have hs := List.takeWhile_append_dropWhile (p := (· != sep)) (l := s)
  have hhead : sep ∉ s.takeWhile (· != sep) := fun h => by
    simpa using List.mem_takeWhile_imp h
  rw [splitOnce, List.span_eq_takeWhile_dropWhile]
  cases hd : s.dropWhile (· != sep) with
  | nil =>
    rw [hd, List.append_nil] at hs
    constructor
    · rintro ⟨⟩
    · rintro ⟨-, h⟩
      refine absurd ?_ hhead
      rw [hs, h]
      exact List.mem_append_right head List.mem_cons_self
  | cons b rest =>
    have hb : b = sep := by
      have hne := List.head_dropWhile_not (· != sep) (by rw [hd]; exact List.cons_ne_nil b rest)
      simpa [hd] using hne
    rw [hd, hb] at hs
    constructor
    · rintro ⟨⟩
      exact ⟨hhead, hs.symm⟩
    · rintro ⟨hsep, h⟩
      obtain ⟨rfl, rfl⟩ := cut_injective hhead hsep (hs.trans h)
      rfl

/-- Parts without the separator, at least one on each side, are joined in one way only. -/
theorem intercalate_injective {parts parts' : List (List UInt8)}
    (h : ∀ part ∈ parts, sep ∉ part) (h' : ∀ part ∈ parts', sep ∉ part) (hne : parts ≠ [])
    (hne' : parts' ≠ []) (heq : [sep].intercalate parts = [sep].intercalate parts') :
    parts = parts' := by
  rw [← List.splitOn_intercalate sep h hne, heq, List.splitOn_intercalate sep h' hne']

/-! ### Numbers -/

theorem digits_append (s t : List UInt8) (acc : ℕ) :
    digits (s ++ t) acc = (digits s acc).bind (digits t) := by
  induction s generalizing acc with
  | nil => rfl
  | cons b s ih =>
    rw [List.cons_append, digits, digits]
    split
    · exact ih _
    · rfl

theorem toNat_digit {d : ℕ} (h : d < 10) : (UInt8.ofNat (0x30 + d)).toNat = 0x30 + d := by
  rw [UInt8.toNat_ofNat', Nat.mod_eq_of_lt (by omega)]

theorem digits_singleton {d : ℕ} (h : d < 10) (acc : ℕ) :
    digits [UInt8.ofNat (0x30 + d)] acc = some (acc * 10 + d) := by
  have hd := toNat_digit h
  have hdigit : (0x30 ≤ UInt8.ofNat (0x30 + d) && UInt8.ofNat (0x30 + d) ≤ 0x39) = true := by
    rw [Bool.and_eq_true, decide_eq_true_eq, decide_eq_true_eq, UInt8.le_iff_toNat_le,
      UInt8.le_iff_toNat_le, hd, show (0x30 : UInt8).toNat = 48 from rfl,
      show (0x39 : UInt8).toNat = 57 from rfl]
    omega
  rw [digits, if_pos hdigit, hd, Nat.add_sub_cancel_left, digits]

/-- The digits of a number give the number. -/
theorem digits_decimal (n : ℕ) : digits (decimal n) 0 = some n := by
  fun_induction decimal n with
  | case1 n h => rw [digits_singleton h, Nat.zero_mul, Nat.zero_add]
  | case2 n h ih =>
    rw [digits_append, ih, Option.bind_some, digits_singleton (Nat.mod_lt n (by omega))]
    exact congrArg some (Nat.div_add_mod' n 10)

/-- Decimal digits are digits, and there is one at least. -/
theorem decimal_spec (n : ℕ) :
    decimal n ≠ [] ∧ ∀ b ∈ decimal n, 0x30 ≤ b.toNat ∧ b.toNat ≤ 0x39 := by
  fun_induction decimal n with
  | case1 n h =>
    refine ⟨List.cons_ne_nil _ _, fun b hb => ?_⟩
    rw [List.mem_singleton.1 hb, toNat_digit h]
    omega
  | case2 n h ih =>
    refine ⟨List.append_ne_nil_of_left_ne_nil ih.1 _, fun b hb => ?_⟩
    rcases List.mem_append.1 hb with hb | hb
    · exact ih.2 b hb
    · have hlt := Nat.mod_lt n (show 10 > 0 by omega)
      rw [List.mem_singleton.1 hb, toNat_digit hlt]
      omega

variable {b : UInt8}

/-- A text in decimal does not start with a sign. -/
theorem head?_decimal_ne (n : ℕ) (hb : b.toNat < 0x30) : (decimal n).head? ≠ some b := fun h => by
  have := (decimal_spec n).2 b (List.mem_of_mem_head? h)
  omega

/-- A text in decimal is not empty. -/
theorem isEmpty_decimal (n : ℕ) : (decimal n).isEmpty = false := by
  rw [List.isEmpty_eq_false_iff]
  exact (decimal_spec n).1

/-- What is written in decimal is read back. -/
theorem parseU16_decimal (n : UInt16) : parseU16 (decimal n.toNat) = some n := by
  have hlt := n.toNat_lt
  simp only [parseU16, if_neg (head?_decimal_ne n.toNat (b := 0x2b) (by decide)),
    isEmpty_decimal, Bool.false_eq_true, if_false, digits_decimal, Option.filter_some]
  rw [if_pos (decide_eq_true (by omega)), Option.map_some, UInt16.ofNat_toNat]

theorem parseU32_decimal (n : UInt32) : parseU32 (decimal n.toNat) = some n := by
  have hlt := n.toNat_lt
  simp only [parseU32, if_neg (head?_decimal_ne n.toNat (b := 0x2b) (by decide)),
    isEmpty_decimal, Bool.false_eq_true, if_false, digits_decimal, Option.filter_some]
  rw [if_pos (decide_eq_true (by omega)), Option.map_some, UInt32.ofNat_toNat]

theorem parseU64_decimal {n : ℕ} (h : n < 2 ^ 64) : parseU64 (decimal n) = some n := by
  simp only [parseU64, if_neg (head?_decimal_ne n (b := 0x2b) (by decide)),
    isEmpty_decimal, Bool.false_eq_true, if_false, digits_decimal, Option.filter_some]
  rw [if_pos (decide_eq_true h)]

/-- A signed number written in decimal is read back. -/
theorem parseI64_decimalI64 (n : Int64) : parseI64 (decimalI64 n) = some n := by
  have hlo := n.le_toInt
  have hhi := n.toInt_lt
  by_cases hn : n.toInt < 0
  · have habs : -((n.toInt.natAbs : ℕ) : ℤ) = n.toInt := by omega
    rw [decimalI64, if_pos hn, parseI64]
    simp only [List.head?_cons, or_true, if_true, List.tail_cons, isEmpty_decimal,
      Bool.false_eq_true, if_false, digits_decimal, habs]
    rw [if_pos ⟨hlo, hhi⟩, Int64.ofInt_toInt]
  · have habs : ((n.toInt.natAbs : ℕ) : ℤ) = n.toInt := by omega
    have hplus := head?_decimal_ne n.toInt.natAbs (b := 0x2b) (by decide)
    have hminus := head?_decimal_ne n.toInt.natAbs (b := 0x2d) (by decide)
    rw [decimalI64, if_neg hn, parseI64]
    simp only [hplus, hminus, or_false, if_false, isEmpty_decimal, Bool.false_eq_true,
      digits_decimal, habs]
    rw [if_pos ⟨hlo, hhi⟩, Int64.ofInt_toInt]

/-- What a signed number is written with. -/
theorem mem_decimalI64 {n : Int64} (h : b ∈ decimalI64 n) :
    b.toNat = 0x2d ∨ 0x30 ≤ b.toNat ∧ b.toNat ≤ 0x39 := by
  rw [decimalI64] at h
  split at h
  · rcases List.mem_cons.1 h with rfl | h
    · exact .inl rfl
    · exact .inr ((decimal_spec _).2 b h)
  · exact .inr ((decimal_spec _).2 b h)

/-- A number type as it is read (`FromStr`) and written (`to_string`). -/
structure Numeral (T : Type) where
  fromStr : List UInt8 → Option T
  toString : T → List UInt8
  /-- What is written is read back. -/
  fromStr_toString : ∀ n, fromStr (toString n) = some n

/-- `u32`. -/
def u32 : Numeral UInt32 where
  fromStr := parseU32
  toString := fun n => decimal n.toNat
  fromStr_toString := parseU32_decimal

/-- `u64`. -/
def u64 : Numeral UInt64 where
  fromStr := fun s => (parseU64 s).map UInt64.ofNat
  toString := fun n => decimal n.toNat
  fromStr_toString := fun n => by
    rw [parseU64_decimal n.toNat_lt, Option.map_some, UInt64.ofNat_toNat]

/-- `i64`. -/
def i64 : Numeral Int64 where
  fromStr := parseI64
  toString := decimalI64
  fromStr_toString := parseI64_decimalI64

/-- Different numbers are written differently. -/
theorem Numeral.toString_injective {T : Type} (N : Numeral T) : Function.Injective N.toString :=
  fun a b h => by
    have hb := N.fromStr_toString b
    rw [← h, N.fromStr_toString] at hb
    exact Option.some.inj hb

/-! ### Characters of valid text -/

variable {a : UInt8}

theorem isUtf8_one (h : a ≤ 0x7f) (s : List UInt8) : isUtf8 (a :: s) = isUtf8 s := by
  match s with
  | [] => simp [isUtf8, h]
  | [b] => simp [isUtf8, h]
  | [b, c] => simp [isUtf8, h]
  | b :: c :: d :: rest => simp [isUtf8, h]

theorem isUtf8_two (h : ¬ a ≤ 0x7f) (h' : a ≤ 0xdf) (s : List UInt8) :
    isUtf8 (a :: b :: s) = (0xc2 ≤ a && isCont b && isUtf8 s) := by
  match s with
  | [] => simp [isUtf8, h, h']
  | [c] => simp [isUtf8, h, h']
  | c :: d :: rest => simp [isUtf8, h, h']

theorem isUtf8_three {c : UInt8} (h : ¬ a ≤ 0x7f) (h' : ¬ a ≤ 0xdf) (h'' : a ≤ 0xef)
    (s : List UInt8) :
    isUtf8 (a :: b :: c :: s) = (isCont b && isCont c && (a != 0xe0 || 0xa0 ≤ b) &&
      (a != 0xed || b ≤ 0x9f) && isUtf8 s) := by
  match s with
  | [] => simp [isUtf8, h, h', h'']
  | d :: rest => simp [isUtf8, h, h', h'']

theorem begins_two (h : 0xc2 ≤ a) (h' : a ≤ 0xdf) (hb : isCont b = true) : begins a b = true := by
  simp only [begins, hb, Bool.and_true, Bool.and_eq_true, Bool.or_eq_true, decide_eq_true_eq,
    bne_iff_ne]
  grind

theorem begins_three (h : ¬ a ≤ 0xdf) (h' : a ≤ 0xef) (hb : isCont b = true)
    (hlow : (a != 0xe0 || 0xa0 ≤ b) = true) (hhigh : (a != 0xed || b ≤ 0x9f) = true) :
    begins a b = true := by
  simp only [begins, hb, hlow, hhigh, Bool.and_true, Bool.and_eq_true, Bool.or_eq_true,
    decide_eq_true_eq, bne_iff_ne]
  grind

theorem begins_four (h : ¬ a ≤ 0xef) (h' : a ≤ 0xf4) (hb : isCont b = true)
    (hlow : (a != 0xf0 || 0x90 ≤ b) = true) (hhigh : (a != 0xf4 || b ≤ 0x8f) = true) :
    begins a b = true := by
  simp only [begins, hb, hlow, hhigh, Bool.and_true, Bool.and_eq_true, Bool.or_eq_true,
    decide_eq_true_eq, bne_iff_ne]
  grind

/-- Valid text has nothing to replace. -/
theorem fromUtf8Lossy_of_isUtf8 (hs : isUtf8 s = true) : fromUtf8Lossy s = s := by
  fun_induction isUtf8 s with
  | case1 => rfl
  | case2 a => rw [fromUtf8Lossy, if_pos (by simpa using hs)]
  | case3 a b ha ih => rw [fromUtf8Lossy, if_pos ha, ih hs]
  | case4 a b ha =>
    simp only [Bool.and_eq_true, decide_eq_true_eq] at hs
    rw [fromUtf8Lossy, if_neg ha, begins_two hs.1.1 hs.1.2 hs.2]
    simp [hs.1.2]
  | case5 a b c ha ih => rw [fromUtf8Lossy, if_pos ha, ih hs]
  | case6 a b c ha ha' ih =>
    simp only [Bool.and_eq_true, decide_eq_true_eq] at hs
    rw [fromUtf8Lossy, if_neg ha, begins_two hs.1.1 ha' hs.1.2, if_pos ha', ih hs.2]
    simp
  | case7 a b c ha ha' =>
    simp only [Bool.and_eq_true, decide_eq_true_eq] at hs
    rw [fromUtf8Lossy, if_neg ha, begins_three ha' hs.1.1.1.1 hs.1.1.1.2 hs.1.2 hs.2]
    simp [ha', hs.1.1.2, hs.1.1.1.1]
  | case8 a b c d rest ha ih => rw [fromUtf8Lossy, if_pos ha, ih hs]
  | case9 a b c d rest ha ha' ih =>
    simp only [Bool.and_eq_true, decide_eq_true_eq] at hs
    rw [fromUtf8Lossy, if_neg ha, begins_two hs.1.1 ha' hs.1.2, if_pos ha', ih hs.2]
    simp
  | case10 a b c d rest ha ha' ha'' ih =>
    simp only [Bool.and_eq_true] at hs
    rw [fromUtf8Lossy, if_neg ha, begins_three ha' ha'' hs.1.1.1.1 hs.1.1.2 hs.1.2, ih hs.2]
    simp [ha', ha'', hs.1.1.1.2]
  | case11 a b c d rest ha ha' ha'' ih =>
    simp only [Bool.and_eq_true, decide_eq_true_eq] at hs
    obtain ⟨⟨⟨⟨⟨⟨hle, hb⟩, hc⟩, hd⟩, hlow⟩, hhigh⟩, hrest⟩ := hs
    rw [fromUtf8Lossy, if_neg ha, begins_four ha'' hle hb hlow hhigh, ih hrest]
    simp [ha', ha'', hc, hd]

/-- Texts can be put together. -/
theorem isUtf8_append {t : List UInt8} (hs : isUtf8 s = true) (ht : isUtf8 t = true) :
    isUtf8 (s ++ t) = true := by
  fun_induction isUtf8 s with
  | case1 => exact ht
  | case2 a =>
    rw [List.singleton_append, isUtf8_one (by simpa using hs)]
    exact ht
  | case3 a b ha ih =>
    rw [List.cons_append, isUtf8_one ha]
    exact ih hs
  | case4 a b ha =>
    simp only [Bool.and_eq_true, decide_eq_true_eq] at hs
    rw [List.cons_append, List.cons_append, List.nil_append, isUtf8_two ha hs.1.2]
    simp [hs, ht]
  | case5 a b c ha ih =>
    rw [List.cons_append, isUtf8_one ha]
    exact ih hs
  | case6 a b c ha ha' ih =>
    simp only [Bool.and_eq_true] at hs
    rw [List.cons_append, List.cons_append, isUtf8_two ha ha', hs.1.1, hs.1.2]
    exact ih hs.2
  | case7 a b c ha ha' =>
    simp only [Bool.and_eq_true, decide_eq_true_eq] at hs
    rw [List.cons_append, List.cons_append, List.cons_append, List.nil_append,
      isUtf8_three ha ha' hs.1.1.1.1]
    simp [hs.1.1.1.2, hs.1.1.2, hs.1.2, hs.2, ht]
  | case8 a b c d rest ha ih =>
    rw [List.cons_append, isUtf8_one ha]
    exact ih hs
  | case9 a b c d rest ha ha' ih =>
    simp only [Bool.and_eq_true] at hs
    rw [List.cons_append, List.cons_append, isUtf8_two ha ha', hs.1.1, hs.1.2]
    exact ih hs.2
  | case10 a b c d rest ha ha' ha'' ih =>
    simp only [Bool.and_eq_true] at hs
    rw [List.cons_append, List.cons_append, List.cons_append, isUtf8_three ha ha' ha'',
      hs.1.1.1.1, hs.1.1.1.2, hs.1.1.2, hs.1.2]
    exact ih hs.2
  | case11 a b c d rest ha ha' ha'' ih =>
    simp only [Bool.and_eq_true] at hs
    simp only [List.cons_append, isUtf8, ha, ha', ha'', if_false, hs, ih hs.2]
    rfl

/-- ASCII is UTF-8. -/
theorem isUtf8_of_ascii (h : ∀ b ∈ s, b.toNat ≤ 0x7f) : isUtf8 s = true := by
  induction s with
  | nil => rfl
  | cons a s ih =>
    rw [List.forall_mem_cons] at h
    rw [isUtf8_one (UInt8.le_iff_toNat_le.2 h.1)]
    exact ih h.2

end Text
