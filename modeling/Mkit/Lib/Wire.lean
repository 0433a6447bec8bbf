import Mathlib.Data.List.Basic
import Mathlib.Tactic.Ring

/-!
# Byte Formats Read Exactly

A binary format is given twice: by a writer that appends bytes and by a reader that
consumes them. This module is the general part of showing that the two agree. A reader
is a state-passing function over the unread bytes (`Parser`), and `Parses p R` says that
`p` succeeds with `a` **exactly** on the inputs that start with some bytes related to `a`
by `R`. Because the statement is an equivalence, it carries the round trip and the
uniqueness of the encoding at once, and it composes: the rules below give the relation of
a sequence, of a check, of a look-ahead guard and of a counted loop from the relations of
their parts.

## Main results

* `ofLeBytes_leBytes`, `leBytes_ofLeBytes`: little-endian words and numbers below
  `256 ^ w` are in bijection.
* `Parses.bind`, `Parses.check`, `Parses.ahead`, `Parses.repeatWith`: the composition
  rules.
* `writeAll_eq_ok`, `encodes_write`: the writer side of a counted loop.
-/

namespace Wire

/-! ### Little-endian words -/

/-- The `w` little-endian bytes of `n`; higher digits are dropped. -/
def leBytes : ℕ → ℕ → List UInt8
  | 0, _ => []
  | w + 1, n => UInt8.ofNat n :: leBytes w (n / 256)

/-- The number written by a little-endian byte string. -/
def ofLeBytes : List UInt8 → ℕ
  | [] => 0
  | b :: bs => b.toNat + 256 * ofLeBytes bs

/-- The `w` big-endian bytes of `n`. -/
def beBytes (w n : ℕ) : List UInt8 :=
  (leBytes w n).reverse

@[simp] theorem length_leBytes (w n : ℕ) : (leBytes w n).length = w := by
  induction w generalizing n with
  | zero => rfl
  | succ w ih => simp [leBytes, ih]

@[simp] theorem length_beBytes (w n : ℕ) : (beBytes w n).length = w := by
  simp [beBytes]

/-- Reading the low `w` bytes of `n` back gives `n` modulo `256 ^ w`. -/
theorem ofLeBytes_leBytes (w n : ℕ) : ofLeBytes (leBytes w n) = n % 256 ^ w := by
  induction w generalizing n with
  | zero => simp [leBytes, ofLeBytes, Nat.mod_one]
  | succ w ih =>
    rw [leBytes, ofLeBytes, ih, UInt8.toNat_ofNat']
    rw [show (2 : ℕ) ^ 8 = 256 from rfl, pow_succ, mul_comm (256 ^ w) 256,
      Nat.mod_mul]

/-- A byte string is the little-endian word of its value. -/
theorem leBytes_ofLeBytes (bs : List UInt8) : leBytes bs.length (ofLeBytes bs) = bs := by
  induction bs with
  | nil => rfl
  | cons b bs ih =>
    have hb : b.toNat < 256 := b.toNat_lt
    have hmod : UInt8.ofNat (b.toNat + 256 * ofLeBytes bs) = b := by
      apply UInt8.toNat_inj.mp
      rw [UInt8.toNat_ofNat']
      omega
    have hdiv : (b.toNat + 256 * ofLeBytes bs) / 256 = ofLeBytes bs := by omega
    rw [List.length_cons, ofLeBytes, leBytes, hmod, hdiv, ih]

/-- A little-endian word of `w` bytes is below `256 ^ w`. -/
theorem ofLeBytes_lt (bs : List UInt8) : ofLeBytes bs < 256 ^ bs.length := by
  induction bs with
  | nil => simp [ofLeBytes]
  | cons b bs ih =>
    have hb : b.toNat < 256 := b.toNat_lt
    rw [ofLeBytes, List.length_cons, pow_succ]
    omega

/-- Words of one width are equal only for equal numbers in range. -/
theorem leBytes_inj {w m n : ℕ} (hm : m < 256 ^ w) (hn : n < 256 ^ w)
    (h : leBytes w m = leBytes w n) : m = n := by
  have h' := congrArg ofLeBytes h
  rwa [ofLeBytes_leBytes, ofLeBytes_leBytes, Nat.mod_eq_of_lt hm, Nat.mod_eq_of_lt hn] at h'

/-- The big-endian form of `leBytes_inj`. -/
theorem beBytes_inj {w m n : ℕ} (hm : m < 256 ^ w) (hn : n < 256 ^ w)
    (h : beBytes w m = beBytes w n) : m = n :=
  leBytes_inj hm hn (List.reverse_injective h)

/-! ### Readers -/

/-- A reader over the bytes not yet consumed, failing with errors in `ε`. -/
abbrev Parser (ε : Type) := StateT (List UInt8) (Except ε)

variable {ε α β : Type}

/-- Consume `n` bytes, or fail with `eof` when fewer remain. -/
def take (eof : ε) (n : ℕ) : Parser ε (List UInt8) := fun inp =>
  if inp.length < n then .error eof else .ok (inp.take n, inp.drop n)

/-- Fail with `eof` unless at least `n` bytes remain; nothing is consumed. -/
def need (eof : ε) (n : ℕ) : Parser ε Unit := fun inp =>
  if inp.length < n then .error eof else .ok ((), inp)

/-- Run `step` for `n` rounds, handing each round the items collected so far. -/
def repeatWith (step : List α → Parser ε α) : ℕ → List α → Parser ε (List α)
  | 0, acc => pure acc
  | n + 1, acc => do
    let a ← step acc
    repeatWith step n (acc ++ [a])

/-- `p` reads exactly the format `R`: it succeeds with `a` and rest `r` on the inputs
`bs ++ r` with `R a bs`, and on no others. -/
def Parses (p : Parser ε α) (R : α → List UInt8 → Prop) : Prop :=
  ∀ inp a rest, p inp = .ok (a, rest) ↔ ∃ bs, R a bs ∧ inp = bs ++ rest

variable {p : Parser ε α} {R S : α → List UInt8 → Prop}

/-- A format may be replaced by an equivalent one. -/
theorem Parses.congr (h : Parses p R) (hRS : ∀ a bs, R a bs ↔ S a bs) : Parses p S := by
  intro inp a rest
  rw [h inp a rest]
  simp only [hRS]

/-- Returning a value consumes nothing. -/
theorem Parses.pure (a : α) : Parses (ε := ε) (pure a) (fun b bs => b = a ∧ bs = []) := by
  intro inp b rest
  change Except.ok (a, inp) = Except.ok (b, rest) ↔ _
  simp only [Except.ok.injEq, Prod.mk.injEq]
  constructor
  · rintro ⟨rfl, rfl⟩
    exact ⟨[], ⟨rfl, rfl⟩, rfl⟩
  · rintro ⟨bs, ⟨rfl, rfl⟩, rfl⟩
    exact ⟨rfl, rfl⟩

variable {f : α → Parser ε β}

/-- A sequence reads the concatenation of its two formats. -/
theorem Parses.bind
    {S : α → β → List UInt8 → Prop} (hp : Parses p R) (hf : ∀ a, Parses (f a) (S a)) :
    Parses (p >>= f) (fun b bs => ∃ a u v, R a u ∧ S a b v ∧ bs = u ++ v) := by
  intro inp b rest
  change (p inp >>= fun x => f x.1 x.2) = _ ↔ _
  constructor
  · intro h
    cases hpi : p inp with
    | error e =>
      rw [hpi] at h
      exact absurd h (by simp [Bind.bind, Except.bind])
    | ok x =>
      obtain ⟨a, mid⟩ := x
      rw [hpi] at h
      obtain ⟨u, hu, rfl⟩ := (hp inp a mid).mp hpi
      obtain ⟨v, hv, rfl⟩ := (hf a mid b rest).mp h
      exact ⟨u ++ v, ⟨a, u, v, hu, hv, rfl⟩, (List.append_assoc u v rest).symm⟩
  · rintro ⟨bs, ⟨a, u, v, hu, hv, rfl⟩, rfl⟩
    have h₁ : p (u ++ v ++ rest) = .ok (a, v ++ rest) :=
      (hp _ _ _).mpr ⟨u, hu, List.append_assoc u v rest⟩
    have h₂ : f a (v ++ rest) = .ok (b, rest) := (hf a _ _ _).mpr ⟨v, hv, rfl⟩
    rw [h₁]
    exact h₂

variable {c : Prop} {e : ε}

/-- A check that fails on `c` restricts the format of what follows. -/
theorem Parses.check [Decidable c] (hp : Parses p R) :
    Parses (if c then throw e else p) (fun a bs => ¬c ∧ R a bs) := by
  intro inp a rest
  by_cases hc : c
  · rw [if_pos hc]
    constructor
    · intro h
      exact absurd h (by rintro ⟨⟩)
    · rintro ⟨bs, ⟨hn, -⟩, -⟩
      exact absurd hc hn
  · rw [if_neg hc, hp inp a rest]
    simp only [hc, not_false_eq_true, true_and]

/-- A choice reads the format of the branch that is taken. -/
theorem Parses.ite [Decidable c] {q : Parser ε α} (hp : Parses p R) (hq : Parses q S) :
    Parses (if c then p else q) (fun a bs => (c ∧ R a bs) ∨ (¬c ∧ S a bs)) := by
  intro inp a rest
  by_cases hc : c
  · rw [if_pos hc, hp inp a rest]
    simp only [hc, true_and, not_true_eq_false, false_and, or_false]
  · rw [if_neg hc, hq inp a rest]
    simp only [hc, false_and, not_false_eq_true, true_and, false_or]

/-- A failure reads nothing. -/
theorem Parses.throw (e : ε) : Parses (throw e : Parser ε α) (fun _ _ => False) := by
  intro inp a rest
  constructor
  · rintro ⟨⟩
  · rintro ⟨bs, h, -⟩
    exact h.elim

/-- A look-ahead guard is invisible when every accepted encoding is long enough: it only
rejects early what the reader behind it rejects anyway. -/
theorem Parses.ahead {eof : ε} {n : ℕ} (hp : Parses p R) (hlen : ∀ a bs, R a bs → n ≤ bs.length) :
    Parses (need eof n >>= fun _ => p) R := by
  intro inp a rest
  change (need eof n inp >>= fun x => p x.2) = _ ↔ _
  by_cases hn : inp.length < n
  · rw [need, if_pos hn]
    constructor
    · intro h
      exact absurd h (by rintro ⟨⟩)
    · rintro ⟨bs, hR, rfl⟩
      have := hlen a bs hR
      rw [List.length_append] at hn
      omega
  · rw [need, if_neg hn]
    exact hp inp a rest

/-- A fallible value that reads no bytes. -/
def accept (x : Except ε α) : Parser ε α := fun inp =>
  x >>= fun a => .ok (a, inp)

/-- A lifted value reads the empty string when it is there. -/
theorem Parses.accept (x : Except ε α) : Parses (accept x) (fun a bs => x = .ok a ∧ bs = []) := by
  intro inp a rest
  cases x with
  | error e =>
    constructor
    · rintro ⟨⟩
    · rintro ⟨bs, ⟨h, -⟩, -⟩
      exact absurd h (by simp)
  | ok b =>
    refine ((Parses.pure b) inp a rest).trans ?_
    simp only [Except.ok.injEq, @eq_comm _ a b]

/-- `take` reads every byte string of its length. -/
theorem Parses.take (eof : ε) (n : ℕ) :
    Parses (take eof n) (fun a bs => a = bs ∧ bs.length = n) := by
  intro inp a rest
  rw [Wire.take]
  by_cases hn : inp.length < n
  · rw [if_pos hn]
    constructor
    · rintro ⟨⟩
    · rintro ⟨bs, ⟨-, hbs⟩, rfl⟩
      rw [List.length_append] at hn
      omega
  · rw [if_neg hn]
    simp only [Except.ok.injEq, Prod.mk.injEq]
    constructor
    · rintro ⟨rfl, rfl⟩
      exact ⟨inp.take n, ⟨rfl, by rw [List.length_take]; omega⟩,
        (List.take_append_drop n inp).symm⟩
    · rintro ⟨bs, ⟨rfl, rfl⟩, rfl⟩
      exact ⟨List.take_left, List.drop_left⟩

/-! ### Bytes and machine words -/

/-- Read one byte. -/
def byte (eof : ε) : Parser ε UInt8 := do
  let bs ← take eof 1
  pure (bs.headD 0)

/-- Read a little-endian word of `w` bytes, made by `ofN` out of its number. -/
def word {W : Type} (eof : ε) (w : ℕ) (ofN : ℕ → W) : Parser ε W := do
  let bs ← take eof w
  pure (ofN (ofLeBytes bs))

/-- A byte is read from itself. -/
theorem Parses.byte (eof : ε) : Parses (byte eof) (fun a bs => bs = [a]) := by
  refine ((Parses.take eof 1).bind fun bs => Parses.pure _).congr fun a bs => ?_
  constructor
  · rintro ⟨u, u', v, ⟨rfl, hu⟩, ⟨rfl, rfl⟩, rfl⟩
    obtain ⟨b, rfl⟩ := List.length_eq_one_iff.mp hu
    rfl
  · rintro rfl
    exact ⟨[a], [a], [], ⟨rfl, rfl⟩, ⟨rfl, rfl⟩, rfl⟩

/-- A machine word is read from its little-endian bytes, for any word type whose numbers are
the ones below `256 ^ w`. -/
theorem Parses.word {W : Type} (eof : ε) {w : ℕ} {ofN : ℕ → W} {toN : W → ℕ}
    (hto : ∀ n, n < 256 ^ w → toN (ofN n) = n) (hof : ∀ v, ofN (toN v) = v)
    (hlt : ∀ v, toN v < 256 ^ w) :
    Parses (word eof w ofN) (fun a bs => bs = leBytes w (toN a)) := by
  refine ((Parses.take eof w).bind fun bs => Parses.pure _).congr fun a bs => ?_
  constructor
  · rintro ⟨u, u', v, ⟨rfl, hu⟩, ⟨rfl, rfl⟩, rfl⟩
    have h := ofLeBytes_lt u
    rw [hu] at h
    rw [hto _ h, List.append_nil]
    conv_lhs => rw [← leBytes_ofLeBytes u, hu]
  · rintro rfl
    refine ⟨leBytes w (toN a), _, [], ⟨rfl, length_leBytes w _⟩, ⟨?_, rfl⟩,
      (List.append_nil _).symm⟩
    rw [ofLeBytes_leBytes, Nat.mod_eq_of_lt (hlt a), hof]

/-- The 16-bit words. -/
theorem Parses.word16 (eof : ε) :
    Parses (Wire.word eof 2 UInt16.ofNat) (fun a bs => bs = leBytes 2 a.toNat) :=
  Parses.word eof (fun n h => by rw [UInt16.toNat_ofNat']; exact Nat.mod_eq_of_lt h)
    (fun _ => UInt16.ofNat_toNat) UInt16.toNat_lt

/-- The 32-bit words. -/
theorem Parses.word32 (eof : ε) :
    Parses (Wire.word eof 4 UInt32.ofNat) (fun a bs => bs = leBytes 4 a.toNat) :=
  Parses.word eof (fun n h => by rw [UInt32.toNat_ofNat']; exact Nat.mod_eq_of_lt h)
    (fun _ => UInt32.ofNat_toNat) UInt32.toNat_lt

/-- The 64-bit words. -/
theorem Parses.word64 (eof : ε) :
    Parses (Wire.word eof 8 UInt64.ofNat) (fun a bs => bs = leBytes 8 a.toNat) :=
  Parses.word eof (fun n h => by rw [UInt64.toNat_ofNat']; exact Nat.mod_eq_of_lt h)
    (fun _ => UInt64.ofNat_toNat) UInt64.toNat_lt

/-! ### Counted loops -/

/-- The items of a counted loop with the bytes of each, in order. -/
def Encodes (R : α → List UInt8 → Prop) : List α → List UInt8 → Prop
  | [], bs => bs = []
  | a :: l, bs => ∃ u v, R a u ∧ Encodes R l v ∧ bs = u ++ v

/-- Every item is admissible after the items before it. -/
def Admits (ok : List α → α → Prop) : List α → List α → Prop
  | _, [] => True
  | acc, a :: l => ok acc a ∧ Admits ok (acc ++ [a]) l

variable {l : List α}

/-- Checking each item against the last one collected checks the whole chain. -/
theorem admits_getLast {r : α → α → Prop} {acc : List α} :
    Admits (fun acc a => ∀ p ∈ acc.getLast?, r p a) acc l ↔
      (acc.getLast?.toList ++ l).IsChain r := by
  induction l generalizing acc with
  | nil => cases h : acc.getLast? <;> simp [Admits]
  | cons a l ih =>
    rw [Admits, ih]
    cases h : acc.getLast? with
    | none => simp
    | some p => simp

/-- A counted loop reads its items one after the other. -/
theorem Parses.repeatWith {step : List α → Parser ε α} {ok : List α → α → Prop}
    {R : α → List UInt8 → Prop}
    (h : ∀ acc, Parses (step acc) (fun a bs => ok acc a ∧ R a bs)) (n : ℕ) (acc : List α) :
    Parses (Wire.repeatWith step n acc)
      (fun l bs => ∃ l', l = acc ++ l' ∧ l'.length = n ∧ Admits ok acc l' ∧ Encodes R l' bs) := by
  induction n generalizing acc with
  | zero =>
    refine (Parses.pure acc).congr fun l bs => ?_
    constructor
    · rintro ⟨rfl, rfl⟩
      exact ⟨[], by simp [Admits, Encodes]⟩
    · rintro ⟨l', rfl, hl', -, henc⟩
      obtain rfl : l' = [] := List.length_eq_zero_iff.mp hl'
      exact ⟨by simp, henc⟩
  | succ n ih =>
    refine (Parses.bind (h acc) fun a => ih (acc ++ [a])).congr fun l bs => ?_
    constructor
    · rintro ⟨a, u, v, ⟨hok, hR⟩, ⟨l', rfl, hl', hadm, henc⟩, rfl⟩
      exact ⟨a :: l', by simp, by simp [hl'], ⟨hok, hadm⟩, u, v, hR, henc, rfl⟩
    · rintro ⟨l', rfl, hl', hadm, henc⟩
      obtain ⟨a, l', rfl⟩ := List.exists_cons_of_length_eq_add_one hl'
      obtain ⟨u, v, hR, henc, rfl⟩ := henc
      exact ⟨a, u, v, ⟨hadm.1, hR⟩, ⟨l', by simp, by simpa using hl', hadm.2, henc⟩, rfl⟩

/-- Write the items of a list one after the other. -/
def writeAll (w : α → Except ε (List UInt8)) : List α → Except ε (List UInt8)
  | [] => .ok []
  | a :: l => do
    let u ← w a
    let v ← writeAll w l
    .ok (u ++ v)

/-- A result that is a success is the success it holds. -/
theorem eq_ok_getD {ε α : Type} {r : Except ε α} (h : r.isOk = true) (a : α) :
    r = .ok (r.toOption.getD a) := by
  cases r with
  | ok b => rfl
  | error e => cases h

variable {x : Except ε α} {b : β}

/-- A sequence of fallible steps succeeds exactly when both steps do. -/
theorem bind_eq_ok {f : α → Except ε β} : (x >>= f) = .ok b ↔ ∃ a, x = .ok a ∧ f a = .ok b := by
  cases x with
  | error e => simp [Bind.bind, Except.bind]
  | ok a => simp [Bind.bind, Except.bind]

/-- A sequence that starts with a check goes on when the check passes. -/
theorem check_eq_ok [Decidable c] {f : PUnit → Except ε β} :
    (if c then throw e >>= f else f ⟨⟩) = .ok b ↔ ¬ c ∧ f ⟨⟩ = .ok b := by
  by_cases hc : c
  · simp [hc, throw, throwThe, MonadExceptOf.throw, bind, Except.bind]
  · simp [hc]

/-- A loop of checks passes when every check does. -/
theorem forM_eq_ok {f : α → Except ε Unit} (h : l.forM f = .ok ()) : ∀ a ∈ l, f a = .ok () := by
  induction l with
  | nil => exact fun a ha => nomatch ha
  | cons a l ih =>
    change (f a >>= fun _ => l.forM f) = .ok () at h
    obtain ⟨⟨⟩, ha, hl⟩ := bind_eq_ok.1 h
    exact List.forall_mem_cons.2 ⟨ha, ih hl⟩

/-- A reader in two parts succeeds when both parts do. -/
theorem parser_bind_eq_ok {inp : List UInt8} {r : β × List UInt8} :
    (p >>= f) inp = .ok r ↔ ∃ a rest, p inp = .ok (a, rest) ∧ f a rest = .ok r := by
  change (p inp >>= fun x => f x.1 x.2) = .ok r ↔ _
  rw [bind_eq_ok]
  exact ⟨fun ⟨⟨a, rest⟩, h⟩ => ⟨a, rest, h⟩, fun ⟨a, rest, h⟩ => ⟨(a, rest), h⟩⟩

/-- Renaming the error of a computation changes nothing about its success. -/
theorem mapError_eq_ok {ε' : Type} {f : ε → ε'} {a : α} : x.mapError f = .ok a ↔ x = .ok a := by
  cases x <;> simp [Except.mapError]

variable {w : α → Except ε (List UInt8)} {bs : List UInt8}

/-- `writeAll` on a nonempty list, taken apart. -/
theorem writeAll_cons_eq_ok {a : α} : writeAll w (a :: l) = .ok bs ↔
      ∃ u v, w a = .ok u ∧ writeAll w l = .ok v ∧ bs = u ++ v := by
  simp only [writeAll, bind_eq_ok, Except.ok.injEq]
  constructor
  · rintro ⟨u, hu, v, hv, rfl⟩
    exact ⟨u, v, hu, hv, rfl⟩
  · rintro ⟨u, v, hu, hv, rfl⟩
    exact ⟨u, hu, v, hv, rfl⟩

/-- The loop format of a writer is the writer of the loop. -/
theorem encodes_write {V : α → Prop} : Encodes (fun a u => V a ∧ w a = .ok u) l bs ↔
      (∀ a ∈ l, V a) ∧ writeAll w l = .ok bs := by
  induction l generalizing bs with
  | nil => simp [Encodes, writeAll, eq_comm]
  | cons a l ih =>
    rw [writeAll_cons_eq_ok]
    simp only [Encodes, ih, List.forall_mem_cons]
    constructor
    · rintro ⟨u, v, ⟨hV, hw⟩, ⟨hl, hv⟩, rfl⟩
      exact ⟨⟨hV, hl⟩, u, v, hw, hv, rfl⟩
    · rintro ⟨⟨hV, hl⟩, u, v, hw, hv, rfl⟩
      exact ⟨u, v, ⟨hV, hw⟩, ⟨hl, hv⟩, rfl⟩

/-- The loop format of a writer that cannot fail. -/
theorem encodes_flatMap {w : α → List UInt8} :
    Encodes (fun a u => u = w a) l bs ↔ bs = l.flatMap w := by
  induction l generalizing bs with
  | nil => simp [Encodes]
  | cons a l ih =>
    simp only [Encodes, ih, List.flatMap_cons]
    constructor
    · rintro ⟨u, v, rfl, rfl, rfl⟩
      rfl
    · rintro rfl
      exact ⟨w a, l.flatMap w, rfl, rfl, rfl⟩

/-- A loop that admits every item. -/
theorem admits_true (acc l : List α) : Admits (fun _ _ => True) acc l := by
  induction l generalizing acc with
  | nil => exact trivial
  | cons a l ih => exact ⟨trivial, ih _⟩

/-- A loop whose items each take at least `k` bytes takes `k` times their number. -/
theorem length_of_encodes {k : ℕ} (hk : ∀ a u, R a u → k ≤ u.length)
    (h : Encodes R l bs) : l.length * k ≤ bs.length := by
  induction l generalizing bs with
  | nil => simp
  | cons a l ih =>
    obtain ⟨u, v, hu, hv, rfl⟩ := h
    have h₁ := hk a u hu
    have h₂ := ih hv
    rw [List.length_cons, List.length_append, Nat.succ_mul]
    omega

/-- A writer that cannot fail on the items cannot fail on the list. -/
theorem exists_writeAll (h : ∀ a ∈ l, ∃ u, w a = .ok u) : ∃ bs, writeAll w l = .ok bs := by
  induction l with
  | nil => exact ⟨[], rfl⟩
  | cons a l ih =>
    obtain ⟨u, hu⟩ := h a List.mem_cons_self
    obtain ⟨v, hv⟩ := ih fun b hb => h b (List.mem_cons_of_mem a hb)
    exact ⟨u ++ v, writeAll_cons_eq_ok.mpr ⟨u, v, hu, hv, rfl⟩⟩

/-! ### Unique decoding -/

/-- What is written can be told from what follows it. -/
def PrefixFree (w : α → Except ε (List UInt8)) : Prop :=
  ∀ a b u v x y, w a = .ok u → w b = .ok v → u ++ x = v ++ y → a = b ∧ x = y

/-- A format with a parser is prefix-free. -/
theorem Parses.prefixFree (hp : Parses p fun a bs => w a = .ok bs) : PrefixFree w := by
  intro a b u v x y ha hb h
  have h₁ := (hp (u ++ x) a x).mpr ⟨u, ha, rfl⟩
  have h₂ := (hp (v ++ y) b y).mpr ⟨v, hb, rfl⟩
  rw [h, h₂] at h₁
  simpa [eq_comm] using h₁

variable {l' : List α}

/-- Lists of the same length over a prefix-free format are told apart by their bytes. -/
theorem PrefixFree.writeAll (hw : PrefixFree w) {u v x y : List UInt8} (hlen : l.length = l'.length)
    (hl : Wire.writeAll w l = .ok u) (hl' : Wire.writeAll w l' = .ok v)
    (h : u ++ x = v ++ y) : l = l' ∧ x = y := by
  induction l generalizing l' u v with
  | nil =>
    obtain rfl : l' = [] := List.length_eq_zero_iff.mp hlen.symm
    rw [hl] at hl'
    obtain rfl := Except.ok.inj hl'
    exact ⟨rfl, List.append_cancel_left h⟩
  | cons a l ih =>
    obtain ⟨b, l', rfl⟩ := List.exists_cons_of_length_eq_add_one hlen.symm
    obtain ⟨u₁, u₂, ha, hu, rfl⟩ := writeAll_cons_eq_ok.mp hl
    obtain ⟨v₁, v₂, hb, hv, rfl⟩ := writeAll_cons_eq_ok.mp hl'
    rw [List.append_assoc, List.append_assoc] at h
    obtain ⟨rfl, h⟩ := hw a b u₁ v₁ _ _ ha hb h
    obtain ⟨rfl, hxy⟩ := ih (by simpa using hlen) hu hv h
    exact ⟨rfl, hxy⟩

/-- Sequences of one length over a self-delimiting format. -/
theorem flatMap_append {enc : α → List UInt8}
    (henc : ∀ {a b x y}, enc a ++ x = enc b ++ y → a = b ∧ x = y) {x y : List UInt8}
    (hlen : l.length = l'.length) (h : l.flatMap enc ++ x = l'.flatMap enc ++ y) :
    l = l' ∧ x = y := by
  induction l generalizing l' with
  | nil =>
    obtain rfl := List.length_eq_zero_iff.1 hlen.symm
    exact ⟨rfl, h⟩
  | cons a l ih =>
    obtain ⟨b, l', rfl⟩ := List.exists_cons_of_length_eq_add_one hlen.symm
    rw [List.flatMap_cons, List.flatMap_cons, List.append_assoc, List.append_assoc] at h
    obtain ⟨rfl, hrest⟩ := henc h
    obtain ⟨rfl, hxy⟩ := ih (by simpa using hlen) hrest
    exact ⟨rfl, hxy⟩

end Wire
