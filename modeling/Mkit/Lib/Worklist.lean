import Mathlib.Algebra.Order.BigOperators.Group.Finset

/-!
# Walks with a Worklist

A walk over a finite graph takes nodes from a worklist, passes over those it has visited, and
queues the successors of the others. `potential` counts what such a walk can still take: it falls
by one with every node taken, in whatever order they wait, so it bounds the number of rounds.
-/

namespace Worklist

variable {α : Type} [DecidableEq α] {next : α → List α} {nodes : Finset α}

/-- What waits, and what the nodes not visited yet can still queue. -/
def potential (next : α → List α) (nodes visited : Finset α) (waiting : List α) : ℕ :=
  waiting.length + ∑ a ∈ nodes \ visited, (next a).length

theorem potential_cons (visited : Finset α) (a : α) (waiting : List α) :
    potential next nodes visited (a :: waiting) = potential next nodes visited waiting + 1 := by
  rw [potential, potential, List.length_cons]
  omega

/-- Visiting more nodes leaves less to queue. -/
theorem potential_anti {visited visited' : Finset α} (h : visited ⊆ visited') (waiting : List α) :
    potential next nodes visited' waiting ≤ potential next nodes visited waiting := by
  have hsum : ∑ a ∈ nodes \ visited', (next a).length ≤ ∑ a ∈ nodes \ visited, (next a).length :=
    Finset.sum_le_sum_of_subset (Finset.sdiff_subset_sdiff subset_rfl h)
  rw [potential, potential]
  omega

/-- Visiting a node and queueing its successors takes one off the potential. -/
theorem potential_visit {visited : Finset α} {a : α} {waiting waiting' : List α}
    (hnodes : ∀ a, a ∉ nodes → next a = []) (ha : a ∉ visited)
    (hlength : waiting'.length = waiting.length + (next a).length) :
    potential next nodes (insert a visited) waiting' + 1 =
      potential next nodes visited (a :: waiting) := by
  have hsum : ∑ x ∈ nodes \ insert a visited, (next x).length + (next a).length =
      ∑ x ∈ nodes \ visited, (next x).length := by
    by_cases hmem : a ∈ nodes
    · rw [Finset.sdiff_insert, Finset.sum_erase_add _ _ (Finset.mem_sdiff.2 ⟨hmem, ha⟩)]
    · rw [Finset.sdiff_insert_of_notMem hmem, hnodes a hmem]
      rfl
  rw [potential, potential, List.length_cons]
  omega

omit [DecidableEq α] in
/-- A set that is closed under successors holds what is reachable from its members. -/
theorem mem_of_reaches {P : α → Prop} (hclosed : ∀ a b, P a → b ∈ next a → P b) {a b : α}
    (h : Relation.ReflTransGen (fun a b => b ∈ next a) a b) (ha : P a) : P b := by
  induction h with
  | refl => exact ha
  | tail _ hb ih => exact hclosed _ _ ih hb

end Worklist
