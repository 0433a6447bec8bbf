import Mkit.Lib.Wire

/-!
# Readers on a Work Budget

A decoder that is charged for its work: it consumes bytes and a number of work units, and
fails when either runs out. `Meters r R` says that `r` succeeds with `a` **exactly** on the
inputs that start with bytes `bs` and the budgets of at least `n` units with `R a bs n`, and
that it consumes exactly those. As for plain byte formats the statement is an equivalence and
composes; it carries at once what is accepted, that it is unique, and which budget is enough.
-/

namespace Metered

variable {ε α β : Type}

/-- A reader over the unread bytes and the work units left. -/
abbrev Reader (ε : Type) := StateT (List UInt8 × ℕ) (Except ε)

/-- Consume `n` bytes for one work unit. -/
def take (eof overdrawn : ε) (n : ℕ) : Reader ε (List UInt8) := fun s =>
  if s.1.length < n then .error eof
  else if s.2 < 1 then .error overdrawn
  else .ok (s.1.take n, s.1.drop n, s.2 - 1)

/-- Accept a value that reads no bytes. -/
def accept (x : Except ε α) : Reader ε α := fun s =>
  x >>= fun a => .ok (a, s)

/-- Read all of `bytes`, or fail with `trailing`; what is left of the budget is returned. -/
def complete (trailing : ε) (r : Reader ε α) (bytes : List UInt8) (work : ℕ) :
    Except ε (α × ℕ) :=
  r (bytes, work) >>= fun x => if x.2.1 = [] then .ok (x.1, x.2.2) else .error trailing

/-- A little-endian word of `w` bytes. -/
def word {W : Type} (eof overdrawn : ε) (w : ℕ) (ofN : ℕ → W) : Reader ε W := do
  let bs ← take eof overdrawn w
  pure (ofN (Wire.ofLeBytes bs))

/-- `r` reads exactly the format `R` for exactly its price. -/
def Meters (r : Reader ε α) (R : α → List UInt8 → ℕ → Prop) : Prop :=
  ∀ inp work a rest left, r (inp, work) = .ok (a, rest, left) ↔
    ∃ bs n, R a bs n ∧ inp = bs ++ rest ∧ work = n + left

variable {r : Reader ε α} {R : α → List UInt8 → ℕ → Prop}

/-- A format may be replaced by an equivalent one. -/
theorem Meters.congr {S : α → List UInt8 → ℕ → Prop} (h : Meters r R)
    (hRS : ∀ a bs n, R a bs n ↔ S a bs n) : Meters r S := by
  intro inp work a rest left
  rw [h inp work a rest left]
  simp only [hRS]

/-- Returning a value is free. -/
theorem Meters.pure (a : α) : Meters (ε := ε) (pure a) (fun b bs n => b = a ∧ bs = [] ∧ n = 0) := by
  intro inp work b rest left
  change Except.ok (a, inp, work) = Except.ok (b, rest, left) ↔ _
  simp only [Except.ok.injEq, Prod.mk.injEq]
  constructor
  · rintro ⟨rfl, rfl, rfl⟩
    exact ⟨[], 0, ⟨rfl, rfl, rfl⟩, rfl, (Nat.zero_add _).symm⟩
  · rintro ⟨bs, n, ⟨rfl, rfl, rfl⟩, rfl, rfl⟩
    exact ⟨rfl, rfl, Nat.zero_add _⟩

variable {f : α → Reader ε β} {S : α → β → List UInt8 → ℕ → Prop}

/-- A sequence reads the concatenation of its two formats, for the sum of their prices. -/
theorem Meters.bind (hr : Meters r R) (hf : ∀ a, Meters (f a) (S a)) : Meters (r >>= f)
      (fun b bs n => ∃ a u v i j, R a u i ∧ S a b v j ∧ bs = u ++ v ∧ n = i + j) := by
  intro inp work b rest left
  change (r (inp, work) >>= fun x => f x.1 x.2) = _ ↔ _
  constructor
  · intro h
    obtain ⟨⟨a, mid, half⟩, ha, hb⟩ := Wire.bind_eq_ok.1 h
    obtain ⟨u, i, hu, rfl, rfl⟩ := (hr inp work a mid half).1 ha
    obtain ⟨v, j, hv, rfl, rfl⟩ := (hf a mid half b rest left).1 hb
    exact ⟨u ++ v, i + j, ⟨a, u, v, i, j, hu, hv, rfl, rfl⟩,
      (List.append_assoc u v rest).symm, (Nat.add_assoc i j left).symm⟩
  · rintro ⟨bs, n, ⟨a, u, v, i, j, hu, hv, rfl, rfl⟩, rfl, rfl⟩
    refine Wire.bind_eq_ok.2 ⟨(a, v ++ rest, j + left), ?_, ?_⟩
    · exact (hr _ _ _ _ _).2 ⟨u, i, hu, List.append_assoc u v rest, Nat.add_assoc i j left⟩
    · exact (hf a _ _ _ _ _).2 ⟨v, j, hv, rfl, rfl⟩

/-- Reading a field of known encoding and price before the rest. -/
theorem Meters.field {enc : α → List UInt8} {price : ℕ}
    (hr : Meters r fun a bs n => bs = enc a ∧ n = price) (hf : ∀ a, Meters (f a) (S a)) :
    Meters (r >>= f) (fun b bs n => ∃ a v j, S a b v j ∧ bs = enc a ++ v ∧ n = price + j) := by
  refine (hr.bind hf).congr fun b bs n => ?_
  constructor
  · rintro ⟨a, _, v, _, j, ⟨rfl, rfl⟩, hS, hbs, hn⟩
    exact ⟨a, v, j, hS, hbs, hn⟩
  · rintro ⟨a, v, j, hS, hbs, hn⟩
    exact ⟨a, _, v, _, j, ⟨rfl, rfl⟩, hS, hbs, hn⟩

/-- A check that reads nothing before the rest. -/
theorem Meters.check {c : Prop} {r : Reader ε Unit} {f : Unit → Reader ε β}
    {S : β → List UInt8 → ℕ → Prop} (hr : Meters r fun _ bs n => c ∧ bs = [] ∧ n = 0)
    (hf : ∀ u, Meters (f u) S) : Meters (r >>= f) (fun b bs n => c ∧ S b bs n) := by
  refine (hr.bind hf).congr fun b bs n => ?_
  constructor
  · rintro ⟨_, _, v, _, j, ⟨hc, rfl, rfl⟩, hS, rfl, rfl⟩
    rw [Nat.zero_add]
    exact ⟨hc, hS⟩
  · rintro ⟨hc, hS⟩
    exact ⟨(), [], bs, 0, n, ⟨hc, rfl, rfl⟩, hS, rfl, (Nat.zero_add n).symm⟩

/-- Bytes are read one take at a time. -/
theorem Meters.take (eof overdrawn : ε) (n : ℕ) :
    Meters (take eof overdrawn n) (fun a bs m => a = bs ∧ bs.length = n ∧ m = 1) := by
  intro inp work a rest left
  rw [Metered.take]
  by_cases hn : inp.length < n
  · rw [if_pos hn]
    constructor
    · rintro ⟨⟩
    · rintro ⟨bs, m, ⟨-, rfl, -⟩, rfl, -⟩
      rw [List.length_append] at hn
      omega
  · rw [if_neg hn]
    by_cases hwork : work < 1
    · rw [if_pos hwork]
      constructor
      · rintro ⟨⟩
      · rintro ⟨bs, m, ⟨-, -, rfl⟩, -, rfl⟩
        omega
    · rw [if_neg hwork]
      simp only [Except.ok.injEq, Prod.mk.injEq]
      constructor
      · rintro ⟨rfl, rfl, rfl⟩
        exact ⟨inp.take n, 1, ⟨rfl, by rw [List.length_take]; omega, rfl⟩,
          (List.take_append_drop n inp).symm, by omega⟩
      · rintro ⟨bs, m, ⟨rfl, rfl, rfl⟩, rfl, rfl⟩
        exact ⟨List.take_left, List.drop_left, by omega⟩

/-- A lifted value reads nothing when it is there. -/
theorem Meters.accept (x : Except ε α) :
    Meters (accept x) (fun a bs n => x = .ok a ∧ bs = [] ∧ n = 0) := by
  intro inp work a rest left
  cases x with
  | error e =>
    constructor
    · rintro ⟨⟩
    · rintro ⟨bs, n, ⟨⟨⟩, -⟩, -⟩
  | ok b =>
    refine ((Meters.pure b) inp work a rest left).trans ?_
    simp only [Except.ok.injEq, @eq_comm _ a b]

/-- All of the bytes are the format. -/
theorem Meters.complete_eq_ok
    (hr : Meters r R) {trailing : ε} {bytes : List UInt8} {work left : ℕ} {a : α} :
    complete trailing r bytes work = .ok (a, left) ↔ ∃ n, R a bytes n ∧ work = n + left := by
  rw [complete, Wire.bind_eq_ok]
  constructor
  · rintro ⟨⟨b, rest, left'⟩, hb, h⟩
    obtain ⟨bs, n, hR, rfl, rfl⟩ := (hr bytes work b rest left').1 hb
    dsimp only at h
    split_ifs at h with hrest
    · simp only [Except.ok.injEq, Prod.mk.injEq] at h
      obtain ⟨rfl, rfl⟩ := h
      rw [hrest, List.append_nil]
      exact ⟨n, hR, rfl⟩
  · rintro ⟨n, hR, rfl⟩
    exact ⟨(a, [], left), (hr _ _ _ _ _).2 ⟨bytes, n, hR, (List.append_nil bytes).symm, rfl⟩,
      if_pos rfl⟩

/-- A format is read in one way only. -/
theorem Meters.unique (hr : Meters r R)
    {a b : α} {u v x y : List UInt8} {m n : ℕ} (ha : R a u m) (hb : R b v n)
    (h : u ++ x = v ++ y) : a = b ∧ x = y := by
  have h₁ := (hr (u ++ x) (m + n) a x n).2 ⟨u, m, ha, rfl, rfl⟩
  have h₂ := (hr (v ++ y) (m + n) b y m).2 ⟨v, n, hb, rfl, Nat.add_comm m n⟩
  rw [h, h₂] at h₁
  simp only [Except.ok.injEq, Prod.mk.injEq] at h₁
  exact ⟨h₁.1.symm, h₁.2.1.symm⟩

/-- A machine word is read from its little-endian bytes in one take. -/
theorem Meters.word {W : Type} (eof overdrawn : ε) {w : ℕ} {ofN : ℕ → W} {toN : W → ℕ}
    (hto : ∀ n, n < 256 ^ w → toN (ofN n) = n) (hof : ∀ v, ofN (toN v) = v)
    (hlt : ∀ v, toN v < 256 ^ w) : Meters (word eof overdrawn w ofN)
      (fun a bs n => bs = Wire.leBytes w (toN a) ∧ n = 1) := by
  refine ((Meters.take eof overdrawn w).bind fun bs => Meters.pure _).congr fun a bs n => ?_
  constructor
  · rintro ⟨u, u', v, i, j, ⟨rfl, hu, rfl⟩, ⟨rfl, rfl, rfl⟩, rfl, rfl⟩
    have h := Wire.ofLeBytes_lt u
    rw [hu] at h
    rw [hto _ h, List.append_nil]
    exact ⟨by conv_lhs => rw [← Wire.leBytes_ofLeBytes u, hu], rfl⟩
  · rintro ⟨rfl, rfl⟩
    refine ⟨Wire.leBytes w (toN a), _, [], 1, 0, ⟨rfl, Wire.length_leBytes w _, rfl⟩,
      ⟨?_, rfl, rfl⟩, (List.append_nil _).symm, rfl⟩
    rw [Wire.ofLeBytes_leBytes, Nat.mod_eq_of_lt (hlt a), hof]

end Metered
