import Mathlib.Computability.Encoding

/-!
# Encodings with Strings Written Out

An encoding that is known on some values only. What it writes for these stands in a table; any
other value is written in unary, in a mark that starts no string of the table. Such an encoding
evaluates to the strings of the table and is still one of the whole type.
-/

namespace Computability.Encoding

variable {α Γ : Type}

/-- Everything encodable in unary. -/
def unary (α : Type) [Encodable α] (mark : Γ) : Encoding α Γ where
  encode a := List.replicate (Encodable.encode a + 1) mark
  decode s := Encodable.decode (s.length - 1)
  decode_encode a := by
    rw [List.length_replicate, Nat.add_sub_cancel, Encodable.encodek]

theorem head?_unary [Encodable α] (mark : Γ) (a : α) :
    ((unary α mark).encode a).head? = some mark := rfl

section Besides

variable {β : Type} [DecidableEq Γ] [Encodable α]

/-- The strings of an encoding for the values that are made of its own, and unary ones for all
others. No string of the encoding starts with the mark. -/
def besides (mark : Γ) (e : Encoding β Γ) (make : β → α) (of : α → Option β)
    (hof : ∀ a b, of a = some b → make b = a) (hmark : ∀ b, (e.encode b).head? ≠ some mark) :
    Encoding α Γ where
  encode a :=
    match of a with
    | some b => e.encode b
    | none => (unary α mark).encode a
  decode s := if s.head? = some mark then (unary α mark).decode s else (e.decode s).map make
  decode_encode a := by
    cases hb : of a with
    | some b =>
      dsimp only
      rw [if_neg (hmark b), e.decode_encode, Option.map_some, hof a b hb]
    | none =>
      dsimp only
      rw [if_pos (head?_unary mark a)]
      exact (unary α mark).decode_encode a

end Besides

variable [DecidableEq α] [DecidableEq Γ] [Encodable α]

/-- Can the table stand beside unary strings? -/
def IsTable (mark : Γ) (table : List (α × List Γ)) : Prop :=
  (table.map Prod.snd).Nodup ∧ ∀ p ∈ table, p.2.head? ≠ some mark

instance (mark : Γ) (table : List (α × List Γ)) : Decidable (IsTable mark table) :=
  inferInstanceAs (Decidable (_ ∧ _))

/-- The strings of the table, and unary ones for what is not in it. -/
def ofTable (mark : Γ) (table : List (α × List Γ)) (h : IsTable mark table) : Encoding α Γ where
  encode a :=
    match table.find? fun p => p.1 = a with
    | some p => p.2
    | none => (unary α mark).encode a
  decode s :=
    match table.find? fun p => p.2 = s with
    | some p => some p.1
    | none => (unary α mark).decode s
  decode_encode a := by
    cases hfind : table.find? fun p => p.1 = a with
    | some p =>
      dsimp only
      have hp := List.mem_of_find?_eq_some hfind
      have hkey : p.1 = a := by simpa using List.find?_some hfind
      cases hback : table.find? fun q => q.2 = p.2 with
      | some q =>
        have hq := List.mem_of_find?_eq_some hback
        have hstring : q.2 = p.2 := by simpa using List.find?_some hback
        have hsame : q = p := List.inj_on_of_nodup_map h.1 hq hp hstring
        exact congrArg some ((congrArg Prod.fst hsame).trans hkey)
      | none => exact absurd (decide_eq_true rfl) (List.find?_eq_none.1 hback p hp)
    | none =>
      dsimp only
      cases hback : table.find? fun q => q.2 = (unary α mark).encode a with
      | some q =>
        have hq := List.mem_of_find?_eq_some hback
        have hstring : q.2 = (unary α mark).encode a := by
          simpa using List.find?_some hback
        exact absurd (hstring ▸ head?_unary mark a) (h.2 q hq)
      | none => exact (unary α mark).decode_encode a

end Computability.Encoding
