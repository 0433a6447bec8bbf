import Mathlib.Algebra.Order.Group.Nat

/-!
# Checked and Saturating Arithmetic

The overflow-aware operations on `u64` and `u32` that programs use for counters and budgets, each
with its meaning on the natural numbers.
-/

namespace Words

/-- The sum, unless it overflows. -/
def checkedAdd (a b : UInt64) : Option UInt64 :=
  if a.toNat + b.toNat < 2 ^ 64 then some (a + b) else none

/-- The difference, unless it underflows. -/
def checkedSub (a b : UInt64) : Option UInt64 :=
  if b ≤ a then some (a - b) else none

/-- The sum, or the largest value. -/
def saturatingAdd (a b : UInt64) : UInt64 :=
  UInt64.ofNat (min (a.toNat + b.toNat) (2 ^ 64 - 1))

/-- The product, or the largest value. -/
def saturatingMul (a b : UInt64) : UInt64 :=
  UInt64.ofNat (min (a.toNat * b.toNat) (2 ^ 64 - 1))

/-- The product, unless it overflows. -/
def checkedMul (a b : UInt64) : Option UInt64 :=
  if a.toNat * b.toNat < 2 ^ 64 then some (a * b) else none

/-- `u64::div_ceil`. -/
def divCeil (a b : UInt64) : UInt64 :=
  if 0 < a % b then a / b + 1 else a / b

/-- `u32::try_from` for a `u64`. -/
def tryU32 (n : UInt64) : Option UInt32 :=
  if n.toNat < 2 ^ 32 then some n.toUInt32 else none

/-- The sum, unless it overflows. -/
def checkedAdd32 (a b : UInt32) : Option UInt32 :=
  if a.toNat + b.toNat < 2 ^ 32 then some (a + b) else none

/-- The difference, unless it underflows. -/
def checkedSub32 (a b : UInt32) : Option UInt32 :=
  if b ≤ a then some (a - b) else none

theorem checkedAdd_eq_some {a b c : UInt64} :
    checkedAdd a b = some c ↔ c.toNat = a.toNat + b.toNat := by
  have hc := c.toNat_lt
  rw [checkedAdd]
  split
  case isTrue h =>
    rw [Option.some.injEq, ← UInt64.toNat_inj, UInt64.toNat_add, Nat.mod_eq_of_lt h]
    exact eq_comm
  case isFalse h =>
    constructor
    · rintro ⟨⟩
    · intro hsum
      omega

theorem checkedSub_eq_some {a b c : UInt64} :
    checkedSub a b = some c ↔ a.toNat = b.toNat + c.toNat := by
  rw [checkedSub]
  split
  case isTrue h =>
    have hle := UInt64.le_iff_toNat_le.1 h
    rw [Option.some.injEq, ← UInt64.toNat_inj, UInt64.toNat_sub_of_le _ _ h]
    omega
  case isFalse h =>
    have hlt := mt UInt64.le_iff_toNat_le.2 h
    constructor
    · rintro ⟨⟩
    · intro hsum
      omega

theorem toNat_saturatingAdd (a b : UInt64) :
    (saturatingAdd a b).toNat = min (a.toNat + b.toNat) (2 ^ 64 - 1) := by
  rw [saturatingAdd, UInt64.toNat_ofNat', Nat.mod_eq_of_lt]
  omega

theorem checkedMul_eq_some {a b c : UInt64} :
    checkedMul a b = some c ↔ c.toNat = a.toNat * b.toNat := by
  have hc := c.toNat_lt
  rw [checkedMul]
  split
  case isTrue h =>
    rw [Option.some.injEq, ← UInt64.toNat_inj, UInt64.toNat_mul, Nat.mod_eq_of_lt h]
    exact eq_comm
  case isFalse h =>
    constructor
    · rintro ⟨⟩
    · intro hprod
      omega

theorem tryU32_eq_some {n : UInt64} {m : UInt32} : tryU32 n = some m ↔ m.toNat = n.toNat := by
  have hm := m.toNat_lt
  rw [tryU32]
  split
  case isTrue h =>
    rw [Option.some.injEq, ← UInt32.toNat_inj, UInt64.toNat_toUInt32, Nat.mod_eq_of_lt h]
    exact eq_comm
  case isFalse h =>
    constructor
    · rintro ⟨⟩
    · intro heq
      omega

theorem checkedAdd32_eq_some {a b c : UInt32} :
    checkedAdd32 a b = some c ↔ c.toNat = a.toNat + b.toNat := by
  have hc := c.toNat_lt
  rw [checkedAdd32]
  split
  case isTrue h =>
    rw [Option.some.injEq, ← UInt32.toNat_inj, UInt32.toNat_add, Nat.mod_eq_of_lt h]
    exact eq_comm
  case isFalse h =>
    constructor
    · rintro ⟨⟩
    · intro hsum
      omega

theorem checkedSub32_of_le {a b : UInt32} (h : b ≤ a) : checkedSub32 a b = some (a - b) :=
  if_pos h

/-- The rounded quotient is the least number of pieces that covers the number. -/
theorem divCeil_spec {a b : UInt64} (hb : 0 < b.toNat) (ha : 0 < a.toNat) :
    ((divCeil a b).toNat - 1) * b.toNat < a.toNat ∧ a.toNat ≤ (divCeil a b).toNat * b.toNat ∧
      0 < (divCeil a b).toNat := by
  have hdiv := Nat.div_add_mod' a.toNat b.toNat
  have hmod := Nat.mod_lt a.toNat hb
  have hle := Nat.div_le_self a.toNat b.toNat
  have hlt := a.toNat_lt
  have hiff : 0 < a % b ↔ 0 < a.toNat % b.toNat := by
    rw [UInt64.lt_iff_toNat_lt, UInt64.toNat_mod, UInt64.toNat_zero]
  rw [divCeil]
  split
  case isTrue h =>
    rw [hiff] at h
    -- a remainder leaves room for one more
    have hroom : a.toNat / b.toNat + 1 < 2 ^ 64 := by
      by_cases hone : b.toNat = 1
      · rw [hone, Nat.mod_one] at h
        omega
      · have := Nat.div_lt_self ha (show 1 < b.toNat by omega)
        omega
    rw [UInt64.toNat_add, UInt64.toNat_div, UInt64.toNat_one, Nat.mod_eq_of_lt hroom,
      Nat.add_sub_cancel, Nat.add_mul, Nat.one_mul]
    exact ⟨by omega, by omega, Nat.succ_pos _⟩
  case isFalse h =>
    rw [hiff] at h
    have hpos : 0 < a.toNat / b.toNat := by
      rcases Nat.eq_zero_or_pos (a.toNat / b.toNat) with hz | hpos
      · rw [hz, Nat.zero_mul] at hdiv
        omega
      · exact hpos
    have hsub : (a.toNat / b.toNat - 1) * b.toNat + b.toNat = a.toNat / b.toNat * b.toNat := by
      rw [← Nat.succ_mul, Nat.succ_eq_add_one, Nat.sub_add_cancel hpos]
    rw [UInt64.toNat_div]
    omega

end Words
