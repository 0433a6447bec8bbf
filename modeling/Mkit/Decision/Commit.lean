import Mkit.Decision.Guards

/-!
# Commitments to Fact Values

A guard row compares a value by a domain-separated digest of it. The digest absorbs the
fields one after the other, each of fixed width or behind a length or a tag, so two different
values never share an input stream. The `simp` lemmas at the end of the module are that
property field by field: an equation between two streams splits into the equations of their
fields.
-/

namespace Mkit.Decision

/-- The tag every commitment starts with. -/
def GUARD_ROW_TAG : Bytes :=
  ascii ['m', 'k', 'i', 't', '-', 'p', 'r', 'i', 'm', 'i', 't', 'i', 'v', 'e', 's', '/', 'g',
    'u', 'a', 'r', 'd', '-', 'r', 'o', 'w', '/', 'v', '1'] ++ [0]

/-- The little-endian bytes of a `u64`. -/
def u64Bytes (n : UInt64) : Bytes :=
  Wire.leBytes 8 n.toNat

/-- An incremental, domain-separated commitment: the chunks its hasher has absorbed. -/
structure Commit where
  absorbed : List Bytes

namespace Commit

/-- Absorb one chunk. -/
def update (c : Commit) (chunk : Bytes) : Commit :=
  ⟨c.absorbed ++ [chunk]⟩

/-- A commitment of a domain. -/
def new (domain : Bytes) : Commit :=
  ((Commit.mk []).update GUARD_ROW_TAG).update (u64Bytes (UInt64.ofNat domain.length))
    |>.update domain

def u8 (c : Commit) (value : UInt8) : Commit :=
  c.update [value]

def bool (c : Commit) (value : Bool) : Commit :=
  c.u8 (if value then 1 else 0)

def u64 (c : Commit) (value : UInt64) : Commit :=
  c.update (u64Bytes value)

def hash (c : Commit) (value : Hash) : Commit :=
  c.update value.bytes

def revision (c : Commit) (value : Revision) : Commit :=
  c.hash value

def bytes (c : Commit) (value : Bytes) : Commit :=
  (c.u64 (UInt64.ofNat value.length)).update value

def optHash (c : Commit) : Option Hash → Commit
  | some value => (c.u8 1).hash value
  | none => c.u8 0

def hashes (c : Commit) (values : List Hash) : Commit :=
  values.foldl hash (c.u64 (UInt64.ofNat values.length))

/-- Finalise into a digest. -/
def finish (B : Blake3) (c : Commit) : Hash :=
  B.finalize (c.absorbed.foldl B.update B.new)

/-- The input stream of a commitment. -/
def stream (c : Commit) : Bytes :=
  c.absorbed.flatten

/-- A commitment is the digest of its input stream. -/
theorem finish_eq (B : Blake3) (c : Commit) : c.finish B = B.hash c.stream :=
  B.finalize_update c.absorbed

/-! ### Streams -/

@[simp] theorem stream_update (c : Commit) (chunk : Bytes) :
    (c.update chunk).stream = c.stream ++ chunk := by
  simp [update, stream]

@[simp] theorem stream_u8 (c : Commit) (value : UInt8) :
    (c.u8 value).stream = c.stream ++ [value] :=
  stream_update c [value]

@[simp] theorem stream_bool (c : Commit) (value : Bool) :
    (c.bool value).stream = c.stream ++ [if value then 1 else 0] :=
  stream_u8 c _

@[simp] theorem stream_u64 (c : Commit) (value : UInt64) :
    (c.u64 value).stream = c.stream ++ u64Bytes value :=
  stream_update c _

@[simp] theorem stream_hash (c : Commit) (value : Hash) :
    (c.hash value).stream = c.stream ++ value.bytes :=
  stream_update c _

@[simp] theorem stream_revision (c : Commit) (value : Revision) :
    (c.revision value).stream = c.stream ++ value.bytes :=
  stream_hash c value

/-- The bytes of an optional digest: a tag, then the digest. -/
def optHashBytes : Option Hash → Bytes
  | some value => 1 :: value.bytes
  | none => [0]

@[simp] theorem stream_optHash (c : Commit) (value : Option Hash) :
    (c.optHash value).stream = c.stream ++ optHashBytes value := by
  cases value <;> simp [optHash, optHashBytes]

variable {α : Type} {enc : α → Bytes}

/-- A loop that absorbs one value after the other. -/
theorem stream_foldl {absorb : Commit → α → Commit}
    (h : ∀ c a, (absorb c a).stream = c.stream ++ enc a) (c : Commit) (l : List α) :
    (l.foldl absorb c).stream = c.stream ++ l.flatMap enc := by
  induction l generalizing c with
  | nil => simp
  | cons a l ih => rw [List.foldl_cons, ih, h, List.flatMap_cons, List.append_assoc]

/-- The bytes of a counted sequence. -/
def countedBytes {α : Type} (enc : α → Bytes) (l : List α) : Bytes :=
  u64Bytes (UInt64.ofNat l.length) ++ l.flatMap enc

@[simp] theorem stream_hashes (c : Commit) (values : List Hash) :
    (c.hashes values).stream = c.stream ++ countedBytes ByteArr.bytes values := by
  rw [hashes, stream_foldl stream_hash, stream_u64, List.append_assoc, countedBytes]

/-! ### Reading a stream back -/

@[simp] theorem length_u64Bytes (n : UInt64) : (u64Bytes n).length = 8 :=
  Wire.length_leBytes 8 n.toNat

variable {m n : UInt64}

theorem u64Bytes_inj : u64Bytes m = u64Bytes n ↔ m = n := by
  constructor
  · intro h
    exact UInt64.toNat_inj.1 (Wire.leBytes_inj m.toNat_lt n.toNat_lt h)
  · rintro rfl
    rfl

variable {x y : Bytes}

@[simp] theorem u64Bytes_append : u64Bytes m ++ x = u64Bytes n ++ y ↔ m = n ∧ x = y := by
  constructor
  · intro h
    obtain ⟨hmn, hxy⟩ := List.append_inj h (by simp)
    exact ⟨u64Bytes_inj.1 hmn, hxy⟩
  · rintro ⟨rfl, rfl⟩
    rfl

@[simp] theorem bytes_append {n : ℕ} {a b : ByteArr n} :
    a.bytes ++ x = b.bytes ++ y ↔ a = b ∧ x = y := by
  constructor
  · intro h
    obtain ⟨hab, hxy⟩ := List.append_inj h (by simp)
    exact ⟨ByteArr.ext hab, hxy⟩
  · rintro ⟨rfl, rfl⟩
    rfl

variable {a b : Option Hash}

@[simp] theorem optHashBytes_append :
    optHashBytes a ++ x = optHashBytes b ++ y ↔ a = b ∧ x = y := by
  cases a <;> cases b <;> simp [optHashBytes]

@[simp] theorem optHashBytes_inj : optHashBytes a = optHashBytes b ↔ a = b := by
  have h := optHashBytes_append (a := a) (b := b) (x := []) (y := [])
  simpa using h

@[simp] theorem boolByte_inj {a b : Bool} :
    (if a then (1 : UInt8) else 0) = (if b then 1 else 0) ↔ a = b := by
  cases a <;> cases b <;> decide

/-- A count below `2 ^ 64` tells sequences of different lengths apart. -/
theorem countedBytes_append
    (henc : ∀ {a b x y}, enc a ++ x = enc b ++ y → a = b ∧ x = y) {l l' : List α}
    (hl : l.length < 2 ^ 64) (hl' : l'.length < 2 ^ 64)
    (h : countedBytes enc l ++ x = countedBytes enc l' ++ y) : l = l' ∧ x = y := by
  rw [countedBytes, countedBytes, List.append_assoc, List.append_assoc, u64Bytes_append] at h
  have hlen := congrArg UInt64.toNat h.1
  rw [UInt64.toNat_ofNat', UInt64.toNat_ofNat', Nat.mod_eq_of_lt hl, Nat.mod_eq_of_lt hl'] at hlen
  exact Wire.flatMap_append henc hlen h.2

end Commit

end Mkit.Decision
