import Mathlib.Data.List.Infix

/-!
# Runs of a Labelled Transition System

A system is a step relation `step s a s'` on states, labelled by what happened. A run is a
finite sequence of steps, recorded with its labels in order. Runs grow at the end, so an
invariant may speak of the whole past.
-/

namespace Lts

variable {σ α : Type*} {step : σ → α → σ → Prop}

/-- A run from one state to another, with the labels of its steps in order. -/
inductive Run (step : σ → α → σ → Prop) : σ → List α → σ → Prop
  | nil (s : σ) : Run step s [] s
  | snoc {s s' s'' : σ} {tr : List α} {a : α} (h : Run step s tr s') (ha : step s' a s'') :
      Run step s (tr ++ [a]) s''

variable {s s' : σ} {tr : List α}

/-- An invariant of the past and the state that holds at the start and is kept by every step
holds along every run. -/
theorem Run.invariant {I : List α → σ → Prop} (h : Run step s tr s') (hinit : I [] s)
    (hstep : ∀ tr s' a s'', I tr s' → step s' a s'' → I (tr ++ [a]) s'') : I tr s' := by
  induction h with
  | nil => exact hinit
  | snoc h ha ih => exact hstep _ _ _ _ ih ha

/-- One step is a run. -/
theorem Run.single {s s' : σ} {a : α} (h : step s a s') : Run step s [a] s' :=
  Run.snoc (Run.nil s) h

variable {s'' : σ} {tr' : List α}

/-- Runs compose. -/
theorem Run.append (h : Run step s tr s')
    (h' : Run step s' tr' s'') : Run step s (tr ++ tr') s'' := by
  induction h' with
  | nil => rwa [List.append_nil]
  | snoc _ ha ih =>
    rw [← List.append_assoc]
    exact ih.snoc ha

/-- A run without steps stays where it is. -/
theorem Run.eq_of_nil (h : Run step s [] s') : s' = s := by
  generalize htr : ([] : List α) = tr at h
  cases h with
  | nil => rfl
  | snoc => simp at htr

/-- The last step of a run. -/
theorem Run.snoc_inv {a : α} (h : Run step s (tr ++ [a]) s'') :
    ∃ s', Run step s tr s' ∧ step s' a s'' := by
  generalize htr : tr ++ [a] = l at h
  cases h with
  | nil => simp at htr
  | snoc h ha =>
    obtain ⟨rfl, hab⟩ := List.append_inj' htr rfl
    obtain rfl : a = _ := by simpa using hab
    exact ⟨_, h, ha⟩

/-- A run can be cut anywhere. -/
theorem Run.split (h : Run step s (tr ++ tr') s'') :
    ∃ s', Run step s tr s' ∧ Run step s' tr' s'' := by
  induction tr' using List.reverseRecOn generalizing s'' with
  | nil =>
    rw [List.append_nil] at h
    exact ⟨s'', h, Run.nil s''⟩
  | append_singleton tr' a ih =>
    rw [← List.append_assoc] at h
    obtain ⟨t, h, ha⟩ := h.snoc_inv
    obtain ⟨s', h₁, h₂⟩ := ih h
    exact ⟨s', h₁, h₂.snoc ha⟩

/-- The first step of a run. -/
theorem Run.cons_inv {a : α} (h : Run step s (a :: tr) s'') :
    ∃ s', step s a s' ∧ Run step s' tr s'' := by
  obtain ⟨s', ha, htr⟩ := Run.split (show Run step s ([a] ++ tr) s'' from h)
  obtain ⟨t, ht, ha⟩ := Run.snoc_inv (show Run step s ([] ++ [a]) s' from ha)
  rw [ht.eq_of_nil] at ha
  exact ⟨s', ha, htr⟩

end Lts
