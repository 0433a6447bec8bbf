import Mathlib.Data.List.Basic

/-!
# Spreading Items over Rows

Items are added to an open row in the order they come. An item that the row is too full for closes
the row and starts the next one. What is closed and what stays open is a function of the items;
the rules below say what every closed row and the open one satisfy, and that the rows hold the
items in their order.
-/

namespace Spreading

variable {σ α β : Type} (full : σ → α → Bool) (start add : σ → α → σ)

/-- The rows that close, and the one that stays open. -/
def spread : σ → List α → List σ × σ
  | s, [] => ([], s)
  | s, a :: rest =>
    if full s a then
      let r := spread (start s a) rest
      (s :: r.1, r.2)
    else spread (add s a) rest

variable {full start add} {s : σ} {l : List α}

/-- What starting and adding keep holds of the open row, and what it comes to holds of every row
that closes. -/
theorem spread_keeps {I C : σ → Prop} {P : α → Prop}
    (hstart : ∀ s a, I s → P a → full s a = true → C s ∧ I (start s a))
    (hadd : ∀ s a, I s → P a → full s a = false → I (add s a)) (hs : I s) (hl : ∀ a ∈ l, P a) :
    (∀ c ∈ (spread full start add s l).1, C c) ∧ I (spread full start add s l).2 := by
  induction l generalizing s with
  | nil => exact ⟨nofun, hs⟩
  | cons a l ih =>
    rw [List.forall_mem_cons] at hl
    rw [spread]
    cases hfull : full s a with
    | true =>
      obtain ⟨hclosed, hopen⟩ := hstart s a hs hl.1 hfull
      obtain ⟨hrest, hlast⟩ := ih hopen hl.2
      exact ⟨List.forall_mem_cons.2 ⟨hclosed, hrest⟩, hlast⟩
    | false => exact ih (hadd s a hs hl.1 hfull) hl.2

/-- What every row satisfies that holds an item holds of the open row, if it held one before or
there are items. -/
theorem spread_last {C : σ → Prop} (hstart : ∀ s a, C (start s a)) (hadd : ∀ s a, C (add s a))
    (h : C s ∨ l ≠ []) : C (spread full start add s l).2 := by
  induction l generalizing s with
  | nil => exact h.resolve_right fun hne => hne rfl
  | cons a l ih =>
    rw [spread]
    split
    · exact ih (.inl (hstart s a))
    · exact ih (.inl (hadd s a))

/-- The rows hold what was in the first and the items, in their order. -/
theorem spread_flatMap {content : σ → List β} {f : α → List β}
    (hstart : ∀ s a, content (start s a) = f a)
    (hadd : ∀ s a, content (add s a) = content s ++ f a) :
    (spread full start add s l).1.flatMap content ++ content (spread full start add s l).2 =
      content s ++ l.flatMap f := by
  induction l generalizing s with
  | nil => rw [spread, List.flatMap_nil, List.flatMap_nil, List.nil_append, List.append_nil]
  | cons a l ih =>
    rw [spread, List.flatMap_cons]
    split
    · rw [List.flatMap_cons, List.append_assoc, ih, hstart]
    · rw [ih, hadd, List.append_assoc]

end Spreading
