import Mathlib.Tactic.Linarith

/-!
# Next-Fit Packing

Items are packed in the order they come. An item goes into the open bin unless the bin would be
overfull with it; then the bin is closed and the item opens the next one. An empty bin takes
anything. The item is judged by an announced size and takes up its actual one, which may be
smaller.

* `Lags.put`: a packing that takes up less is never ahead of one that takes up more, so it closes
  no more bins.
* `Loaded.bins_le`: two bins in a row weigh more than one overfull bin, so `k` times its weight
  fits into `2 * k` bins.
* `Bins.Behind.take_all_le`: of two packings of the same items, the bins of the one that is behind
  end no earlier.
-/

namespace NextFit

/-- Where a packing stands. -/
structure Fill where
  /-- Bins closed so far. -/
  closed : ℕ
  /-- What the open bin holds. -/
  load : ℕ
  /-- Items in the open bin. -/
  count : ℕ

namespace Fill

def empty : Fill := ⟨0, 0, 0⟩

/-- Bins in use. -/
def bins (f : Fill) : ℕ :=
  f.closed + if 0 < f.count then 1 else 0

variable (full : ℕ → ℕ → Prop) [∀ load count, Decidable (full load count)]

/-- Pack one item. -/
def put (announced actual : ℕ) (f : Fill) : Fill :=
  if 0 < f.count ∧ full (f.load + announced) (f.count + 1) then ⟨f.closed + 1, actual, 1⟩
  else ⟨f.closed, f.load + actual, f.count + 1⟩

/-- Pack items whose sizes are exact. -/
def putAll (sizes : List ℕ) (f : Fill) : Fill :=
  sizes.foldl (fun f size => f.put full size size) f

variable {full} {f : Fill}

theorem count_put (announced actual : ℕ) : 0 < (f.put full announced actual).count := by
  rw [put]
  split
  · exact one_pos
  · exact Nat.succ_pos _

theorem closed_le_put (announced actual : ℕ) : f.closed ≤ (f.put full announced actual).closed := by
  rw [put]
  split
  · exact Nat.le_succ _
  · exact le_rfl

theorem closed_le_putAll (sizes : List ℕ) : f.closed ≤ (f.putAll full sizes).closed := by
  induction sizes generalizing f with
  | nil => exact le_rfl
  | cons size sizes ih => exact (closed_le_put size size).trans ih

theorem count_putAll {sizes : List ℕ} (h : sizes ≠ [] ∨ 0 < f.count) :
    0 < (f.putAll full sizes).count := by
  induction sizes generalizing f with
  | nil => exact h.resolve_left fun hne => hne rfl
  | cons size sizes ih => exact ih (.inr (count_put size size))

end Fill

section Comparing

variable {full : ℕ → ℕ → Prop} [∀ load count, Decidable (full load count)] {f g : Fill}

/-- The first packing is behind the second, or level with it and no fuller. -/
structure Lags (f g : Fill) : Prop where
  closed_le : f.closed ≤ g.closed
  level : f.closed = g.closed → f.load ≤ g.load ∧ f.count ≤ g.count

theorem Lags.refl (f : Fill) : Lags f f :=
  ⟨le_rfl, fun _ => ⟨le_rfl, le_rfl⟩⟩

/-- An item that takes up less keeps a packing behind. -/
theorem Lags.put (hmono : ∀ {l l' n n'}, l ≤ l' → n ≤ n' → full l n → full l' n')
    (h : Lags f g) {announced actual announced' actual' : ℕ} (ha : announced ≤ announced')
    (hactual : actual ≤ actual') :
    Lags (f.put full announced actual) (g.put full announced' actual') := by
  obtain ⟨hclosed, hlevel⟩ := h
  rw [Fill.put, Fill.put]
  by_cases hf : 0 < f.count ∧ full (f.load + announced) (f.count + 1)
  · rw [if_pos hf]
    by_cases hg : 0 < g.count ∧ full (g.load + announced') (g.count + 1)
    · rw [if_pos hg]
      exact ⟨Nat.succ_le_succ hclosed, fun _ => ⟨hactual, le_rfl⟩⟩
    · rw [if_neg hg]
      -- Level with the second, the first bin could not have been overfull either.
      have hne : f.closed ≠ g.closed := by
        intro heq
        obtain ⟨hload, hcount⟩ := hlevel heq
        exact hg ⟨hf.1.trans_le hcount,
          hmono (Nat.add_le_add hload ha) (Nat.succ_le_succ hcount) hf.2⟩
      refine ⟨by dsimp only; omega, fun _ => ⟨?_, Nat.le_add_left _ _⟩⟩
      exact hactual.trans (Nat.le_add_left _ _)
  · rw [if_neg hf]
    by_cases hg : 0 < g.count ∧ full (g.load + announced') (g.count + 1)
    · rw [if_pos hg]
      exact ⟨hclosed.trans (Nat.le_succ _), fun heq => by dsimp only at heq; omega⟩
    · rw [if_neg hg]
      refine ⟨hclosed, fun heq => ?_⟩
      obtain ⟨hload, hcount⟩ := hlevel heq
      exact ⟨Nat.add_le_add hload hactual, Nat.succ_le_succ hcount⟩

/-- A packing that is behind has no more bins in use. -/
theorem Lags.bins_le (h : Lags f g) : f.bins ≤ g.bins := by
  obtain ⟨hclosed, hlevel⟩ := h
  rw [Fill.bins, Fill.bins]
  rcases hclosed.lt_or_eq with hlt | heq
  · split <;> split <;> omega
  · have hcount := (hlevel heq).2
    split <;> split <;> omega

end Comparing

section Weighing

variable {full : ℕ → ℕ → Prop} [∀ load count, Decidable (full load count)] {f : Fill}
  {W frame total : ℕ}

/-- The items packed so far weigh at most `total`, each `frame` more than its size, and an
overfull bin weighs more than `W`. -/
structure Loaded (W frame : ℕ) (f : Fill) (total : ℕ) : Prop where
  /-- All bins in pairs, the open one included. -/
  pairs : 0 < f.closed → (f.closed + 1) / 2 * W < total
  /-- The closed bins in pairs, and the open one. -/
  rest : f.closed / 2 * W + (f.load + frame * f.count) ≤ total

theorem loaded_empty : Loaded W frame .empty 0 where
  pairs := fun h => absurd h (lt_irrefl 0)
  rest := by simp [Fill.empty]

theorem Loaded.put (hweight : ∀ l n, 0 < n → full l n → W < l + frame * n)
    (h : Loaded W frame f total) (size : ℕ) :
    Loaded W frame (f.put full size size) (total + (size + frame)) := by
  obtain ⟨hpairs, hrest⟩ := h
  rw [Fill.put]
  by_cases hf : 0 < f.count ∧ full (f.load + size) (f.count + 1)
  · rw [if_pos hf]
    have hheavy : W < f.load + size + frame * (f.count + 1) := hweight _ _ (Nat.succ_pos _) hf.2
    rw [Nat.mul_succ] at hheavy
    constructor
    · intro _
      have hhalf : (f.closed + 1 + 1) / 2 * W = f.closed / 2 * W + W := by
        rw [show f.closed + 1 + 1 = f.closed + 2 from rfl, Nat.add_div_right _ two_pos,
          Nat.succ_mul]
      dsimp only
      omega
    · have hclosed : (f.closed + 1) / 2 * W ≤ total := by
        rcases Nat.eq_zero_or_pos f.closed with hzero | hpos
        · rw [hzero]
          simp
        · exact (hpairs hpos).le
      dsimp only
      omega
  · rw [if_neg hf]
    refine ⟨fun hpos => (hpairs hpos).trans_le (Nat.le_add_right _ _), ?_⟩
    dsimp only
    rw [Nat.mul_succ]
    omega

theorem Loaded.putAll (hweight : ∀ l n, 0 < n → full l n → W < l + frame * n)
    (h : Loaded W frame f total) (sizes : List ℕ) :
    Loaded W frame (f.putAll full sizes) (total + (sizes.map (· + frame)).sum) := by
  induction sizes generalizing f total with
  | nil => exact h
  | cons size sizes ih =>
    rw [List.map_cons, List.sum_cons, ← Nat.add_assoc]
    exact ih (h.put hweight size)

/-- **The bound.** What weighs no more than `k` overfull bins needs at most `2 * k` bins. -/
theorem Loaded.bins_le (h : Loaded W frame f total) (hframe : 0 < frame) {k : ℕ}
    (htotal : total ≤ k * W) : f.bins ≤ 2 * k := by
  rw [Fill.bins]
  rcases Nat.eq_zero_or_pos f.closed with hzero | hpos
  · by_cases hcount : 0 < f.count
    · have hmass : 0 < frame * f.count := Nat.mul_pos hframe hcount
      have hk : k ≠ 0 := by
        rintro rfl
        have := h.rest
        omega
      rw [if_pos hcount]
      omega
    · rw [if_neg hcount]
      omega
  · have hlt : (f.closed + 1) / 2 < k := lt_of_mul_lt_mul_right ((h.pairs hpos).trans_le htotal)
      (Nat.zero_le W)
    split <;> omega

end Weighing

/-! ### Which item is in which bin -/

/-- A packing with its items: the closed bins, and the open one. -/
structure Bins (α : Type) where
  closed : List (List α)
  current : List α

namespace Bins

variable {α : Type}

def empty : Bins α := ⟨[], []⟩

/-- Where the packing stands, by the sizes of its items. -/
def fill (size : α → ℕ) (b : Bins α) : Fill :=
  ⟨b.closed.length, (b.current.map size).sum, b.current.length⟩

/-- All items in the order they came. -/
def content (b : Bins α) : List α :=
  b.closed.flatten ++ b.current

/-- All bins, the open one included if it has an item. -/
def all (b : Bins α) : List (List α) :=
  if b.current.isEmpty then b.closed else b.closed ++ [b.current]

variable (full : ℕ → ℕ → Prop) [∀ load count, Decidable (full load count)]

/-- Pack one item. -/
def place (announced actual : α → ℕ) (b : Bins α) (a : α) : Bins α :=
  if 0 < b.current.length ∧
      full ((b.current.map actual).sum + announced a) (b.current.length + 1) then
    ⟨b.closed ++ [b.current], [a]⟩
  else ⟨b.closed, b.current ++ [a]⟩

/-- Pack items in their order. -/
def placeAll (announced actual : α → ℕ) (b : Bins α) (l : List α) : Bins α :=
  l.foldl (place full announced actual) b

variable {full} {announced actual large small : α → ℕ} {b c : Bins α}

/-- With the items forgotten, an item is put into a bin. -/
theorem fill_place (a : α) : (b.place full announced actual a).fill actual =
      (b.fill actual).put full (announced a) (actual a) := by
  rw [place, Fill.put]
  by_cases h : 0 < b.current.length ∧
      full ((b.current.map actual).sum + announced a) (b.current.length + 1)
  · have hfill : 0 < (b.fill actual).count ∧
        full ((b.fill actual).load + announced a) ((b.fill actual).count + 1) := h
    rw [if_pos h, if_pos hfill, fill, fill]
    simp
  · have hfill : ¬ (0 < (b.fill actual).count ∧
        full ((b.fill actual).load + announced a) ((b.fill actual).count + 1)) := h
    rw [if_neg h, if_neg hfill, fill, fill]
    simp

theorem content_place (a : α) : (b.place full announced actual a).content = b.content ++ [a] := by
  rw [place]
  split
  · simp [content]
  · simp [content]

/-- No item is lost, and none is out of order. -/
theorem content_placeAll (l : List α) :
    (b.placeAll full announced actual l).content = b.content ++ l := by
  induction l generalizing b with
  | nil => exact (List.append_nil _).symm
  | cons a l ih =>
    rw [placeAll, List.foldl_cons]
    refine ih.trans ?_
    rw [content_place, List.append_assoc, List.singleton_append]

theorem current_place_ne_nil (a : α) : (b.place full announced actual a).current ≠ [] := by
  rw [place]
  split
  · exact List.cons_ne_nil _ _
  · exact List.append_ne_nil_of_right_ne_nil _ (List.cons_ne_nil _ _)

/-- Once something is packed, the open bin has an item. -/
theorem current_placeAll_ne_nil {l : List α} (h : b.current ≠ [] ∨ l ≠ []) :
    (b.placeAll full announced actual l).current ≠ [] := by
  induction l generalizing b with
  | nil => exact h.resolve_right fun hne => hne rfl
  | cons a l ih => exact ih (.inl (current_place_ne_nil a))

theorem all_eq (h : b.current ≠ []) : b.all = b.closed ++ [b.current] := by
  rw [all, if_neg (by rwa [List.isEmpty_iff])]

theorem flatten_all : b.all.flatten = b.content := by
  rw [all, content]
  split
  · rename_i h
    rw [List.isEmpty_iff.1 h, List.append_nil]
  · rw [List.flatten_append, List.flatten_singleton]

theorem mem_all {g : List α} (h : g ∈ b.all) : g ∈ b.closed ∨ g = b.current := by
  rw [all] at h
  split at h
  · exact .inl h
  · exact (List.mem_append.1 h).imp_right List.mem_singleton.1

theorem length_all (size : α → ℕ) : b.all.length = (b.fill size).bins := by
  rw [all, Fill.bins, fill]
  by_cases h : b.current = []
  · rw [h]
    simp
  · rw [if_neg (by rwa [List.isEmpty_iff]), if_pos (List.length_pos_iff.2 h), List.length_append,
      List.length_singleton]

/-- Bins have items, and one with more than one item is not overfull. -/
structure Sound (full : ℕ → ℕ → Prop) (size : α → ℕ) (b : Bins α) : Prop where
  ne_nil : ∀ g ∈ b.closed, g ≠ []
  closed : ∀ g ∈ b.closed, 1 < g.length → ¬ full (g.map size).sum g.length
  current : 1 < b.current.length → ¬ full (b.current.map size).sum b.current.length

omit [∀ load count, Decidable (full load count)] in
theorem sound_empty (size : α → ℕ) : Sound full size empty where
  ne_nil := fun _ hg => absurd hg List.not_mem_nil
  closed := fun _ hg => absurd hg List.not_mem_nil
  current := fun h => absurd h (Nat.not_lt_zero 1)

theorem Sound.place (hmono : ∀ {l l' n n'}, l ≤ l' → n ≤ n' → full l n → full l' n')
    (h : Sound full actual b) {a : α} (ha : actual a ≤ announced a) :
    Sound full actual (b.place full announced actual a) := by
  rw [Bins.place]
  by_cases hfull : 0 < b.current.length ∧
      full ((b.current.map actual).sum + announced a) (b.current.length + 1)
  · rw [if_pos hfull]
    refine ⟨fun g hg => ?_, fun g hg => ?_, fun hone => absurd hone (lt_irrefl 1)⟩
    · rcases List.mem_append.1 hg with hg | hg
      · exact h.ne_nil g hg
      · obtain rfl := List.mem_singleton.1 hg
        exact List.ne_nil_of_length_pos hfull.1
    · rcases List.mem_append.1 hg with hg | hg
      · exact h.closed g hg
      · obtain rfl := List.mem_singleton.1 hg
        exact h.current
  · rw [if_neg hfull]
    refine ⟨h.ne_nil, h.closed, fun hone hload => hfull ⟨?_, hmono ?_ ?_ hload⟩⟩
    · rw [List.length_append, List.length_singleton] at hone
      exact Nat.lt_of_succ_lt_succ hone
    · rw [List.map_append, List.sum_append, List.map_singleton, List.sum_singleton]
      exact Nat.add_le_add_left ha _
    · rw [List.length_append, List.length_singleton]

theorem Sound.placeAll (hmono : ∀ {l l' n n'}, l ≤ l' → n ≤ n' → full l n → full l' n')
    (h : Sound full actual b) {l : List α} (hl : ∀ a ∈ l, actual a ≤ announced a) :
    Sound full actual (b.placeAll full announced actual l) := by
  induction l generalizing b with
  | nil => exact h
  | cons a l ih =>
    rw [List.forall_mem_cons] at hl
    exact ih (h.place hmono hl.1) hl.2

omit [∀ load count, Decidable (full load count)] in
theorem Sound.all_ne_nil (h : Sound full actual b) : ∀ g ∈ b.all, g ≠ [] := by
  intro g hg
  rw [all] at hg
  split at hg
  · exact h.ne_nil g hg
  · rename_i hne
    rcases List.mem_append.1 hg with hg | hg
    · exact h.ne_nil g hg
    · obtain rfl := List.mem_singleton.1 hg
      rwa [List.isEmpty_iff] at hne

omit [∀ load count, Decidable (full load count)] in
theorem Sound.not_over (h : Sound full actual b) {g : List α} (hg : g ∈ b.all)
    (hone : 1 < g.length) : ¬ full (g.map actual).sum g.length := by
  rcases mem_all hg with hg | rfl
  · exact h.closed g hg hone
  · exact h.current hone

/-- Two packings of the same items. The first, by its smaller sizes, is behind the second, so its
bins end no earlier. -/
structure Behind (small large : α → ℕ) (b c : Bins α) : Prop where
  lags : Lags (b.fill small) (c.fill large)
  content_eq : b.content = c.content
  closed_le : ∀ i < b.closed.length,
    (c.closed.take (i + 1)).flatten.length ≤ (b.closed.take (i + 1)).flatten.length

theorem behind_empty (small large : α → ℕ) : Behind small large empty empty where
  lags := .refl _
  content_eq := rfl
  closed_le := fun _ hi => absurd hi (Nat.not_lt_zero _)

theorem length_flatten_take_le (gs : List (List α)) (n : ℕ) :
    (gs.take n).flatten.length ≤ gs.flatten.length :=
  calc (gs.take n).flatten.length ≤ ((gs.take n).flatten ++ (gs.drop n).flatten).length := by
        rw [List.length_append]
        exact Nat.le_add_right _ _
    _ = gs.flatten.length := by rw [← List.flatten_append, List.take_append_drop]

/-- What a bin that is closed now held came before the item that closed it. -/
theorem flatten_closed_place (a : α) :
    (b.place full announced actual a).closed.flatten.length ≤ b.content.length := by
  rw [Bins.place]
  split
  · rw [List.flatten_append, List.flatten_singleton, content]
  · rw [content, List.length_append]
    exact Nat.le_add_right _ _

theorem Behind.place (hmono : ∀ {l l' n n'}, l ≤ l' → n ≤ n' → full l n → full l' n')
    (h : Behind small large b c) {a : α} (ha : small a ≤ large a) :
    Behind small large (b.place full large small a) (c.place full large large a) := by
  obtain ⟨hlags, hcontent, hclosed⟩ := h
  refine ⟨?_, ?_, fun i hi => ?_⟩
  · rw [fill_place, fill_place]
    exact hlags.put hmono le_rfl ha
  · rw [content_place, content_place, hcontent]
  · have hbehind : b.closed.length ≤ c.closed.length := hlags.closed_le
    -- A bin that was closed before is closed by both, and stays as it is.
    have hold : i < b.closed.length →
        ((c.place full large large a).closed.take (i + 1)).flatten.length ≤
          (b.closed.take (i + 1)).flatten.length := by
      intro hi
      rw [Bins.place]
      split
      · dsimp only
        rw [List.take_append_of_le_length (by omega)]
        exact hclosed i hi
      · exact hclosed i hi
    by_cases hfull : 0 < b.current.length ∧
        full ((b.current.map small).sum + large a) (b.current.length + 1)
    · have hb : b.place full large small a = ⟨b.closed ++ [b.current], [a]⟩ := if_pos hfull
      rw [hb] at hi ⊢
      dsimp only at hi ⊢
      rw [List.length_append, List.length_singleton] at hi
      rcases Nat.lt_succ_iff_lt_or_eq.1 hi with hi | rfl
      · rw [List.take_append_of_le_length hi]
        exact hold hi
      · -- The bin that is closed now ends with everything packed before.
        have hall : (b.closed ++ [b.current]).take (b.closed.length + 1) =
            b.closed ++ [b.current] :=
          List.take_of_length_le (by rw [List.length_append, List.length_singleton])
        rw [hall, List.flatten_append, List.flatten_singleton]
        refine (length_flatten_take_le _ _).trans ((flatten_closed_place a).trans_eq ?_)
        rw [← hcontent, content]
    · have hb : b.place full large small a = ⟨b.closed, b.current ++ [a]⟩ := if_neg hfull
      rw [hb] at hi ⊢
      exact hold hi

theorem Behind.placeAll (hmono : ∀ {l l' n n'}, l ≤ l' → n ≤ n' → full l n → full l' n')
    (h : Behind small large b c) {l : List α} (hl : ∀ a ∈ l, small a ≤ large a) :
    Behind small large (b.placeAll full large small l) (c.placeAll full large large l) := by
  induction l generalizing b c with
  | nil => exact h
  | cons a l ih =>
    rw [List.forall_mem_cons] at hl
    exact ih (h.place hmono hl.1) hl.2

/-- Every bin of the packing that is behind ends no earlier. -/
theorem Behind.take_all_le (h : Behind small large b c) (i : ℕ) :
    (c.all.take (i + 1)).flatten.length ≤ (b.all.take (i + 1)).flatten.length := by
  have hbehind : b.closed.length ≤ c.closed.length := h.lags.closed_le
  rcases Nat.lt_or_ge i b.closed.length with hlt | hge
  · have htake : ∀ d : Bins α, b.closed.length ≤ d.closed.length →
        d.all.take (i + 1) = d.closed.take (i + 1) := by
      intro d hd
      rw [all]
      split
      · rfl
      · exact List.take_append_of_le_length (by omega)
    rw [htake c hbehind, htake b le_rfl]
    exact h.closed_le i hlt
  · -- The last bin ends with the last item.
    have hall : b.all.length ≤ i + 1 := by
      rw [all]
      split
      · exact hge.trans (Nat.le_succ i)
      · rw [List.length_append, List.length_singleton]
        exact Nat.succ_le_succ hge
    rw [List.take_of_length_le hall, flatten_all, h.content_eq, ← flatten_all]
    exact length_flatten_take_le _ _

/-- A packing that is behind has no more bins. -/
theorem Behind.length_all_le (h : Behind small large b c) : b.all.length ≤ c.all.length := by
  rw [length_all small, length_all large]
  exact h.lags.bins_le

end Bins

end NextFit
