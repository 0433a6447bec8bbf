import Mkit.Content

/-!
# Comparing Content That Is Present

A store may fail to read what it holds. In one that does not, `ReadsAll`, the comparison of two
contents that can be reassembled always answers (`returns_contentEq`): no chunk is missing, the
bytes read never overflow their count, and they come to the declared size.
-/

namespace Mkit

open Effect

section Reads

variable {σ : Type} {io : SourceSink σ} {s : σ}

/-- Every stored object can be read. -/
def ReadsAll (io : SourceSink σ) : Prop :=
  ∀ s h o, io.view s h = some o → ∃ s', Yields (io.readObject h) s o s'

variable (hreads : ReadsAll io)

include hreads

theorem returns_readObject {h : Hash} {o : Object} (ho : io.view s h = some o) :
    Returns (io.readObject h) s fun r s' => r = o ∧ io.view s' = io.view s := by
  obtain ⟨s', hy⟩ := hreads s h o ho
  exact ⟨o, s', hy, rfl, (io.view_of_read hy).2⟩

theorem returns_readBlobChunk {h : Hash} {data : Bytes}
    (hd : chunkBytes (io.view s) h = some data) :
    Returns (readBlobChunk io h) s fun r s' => r = data ∧ io.view s' = io.view s := by
  rw [chunkBytes] at hd
  split at hd
  · rename_i b hb
    obtain rfl := Option.some.inj hd
    refine (returns_readObject hreads hb).bind ?_
    rintro r s' ⟨rfl, hkeep⟩
    exact returns_pure ⟨rfl, hkeep⟩
  · cases hd

omit hreads in
theorem returns_addRead {read len : ℕ} (h : read + len < 2 ^ 64) :
    Returns (addRead read len : StoreM σ ℕ) s fun n s' => n = read + len ∧ s' = s := by
  rw [addRead, if_pos h]
  exact returns_pure ⟨rfl, rfl⟩

/-! ### The cursors -/

omit hreads in
/-- The chunks not yet loaded make up what is missing from the expected length. -/
def ContentCursor.Loads (v : View) (c : ContentCursor) : Prop :=
  ∃ tail, reassemble v c.chunks = some tail ∧ c.loaded + tail.length = c.expected ∧
    (c.chunks = [] ∨ c.expected < 2 ^ 64)

theorem returns_remainingFrom {expected loaded : ℕ} {chunks : List Hash} {rest : Bytes}
    (h : ContentCursor.Loads (io.view s) ⟨rest, chunks, expected, loaded⟩) :
    Returns (ContentCursor.remainingFrom io expected chunks rest loaded) s fun c s' =>
      io.view s' = io.view s ∧ c.Loads (io.view s) := by
  induction chunks generalizing rest loaded s with
  | nil =>
    obtain ⟨tail, htail, hlength, -⟩ := h
    obtain rfl : [] = tail := Option.some.inj htail
    have hloaded : ¬ (rest = [] ∧ loaded ≠ expected) := fun hne => hne.2 hlength
    rw [ContentCursor.remainingFrom, if_neg hloaded]
    exact returns_pure ⟨rfl, [], rfl, hlength, .inl rfl⟩
  | cons h hs ih =>
    rw [ContentCursor.remainingFrom]
    split
    · exact returns_pure ⟨rfl, h⟩
    · obtain ⟨tail, htail, hlength, hexpected⟩ := h
      have hbound : expected < 2 ^ 64 := hexpected.resolve_left (List.cons_ne_nil _ _)
      simp only [reassemble, Option.bind_eq_bind, Option.bind_eq_some_iff, Option.some.injEq]
        at htail
      obtain ⟨data, hdata, rest', hrest', rfl⟩ := htail
      have htotal : loaded + (data.length + rest'.length) = expected := by
        rwa [List.length_append] at hlength
      refine (returns_readBlobChunk hreads hdata).bind ?_
      rintro r s' ⟨rfl, hkeep⟩
      refine (returns_addRead (by omega)).bind ?_
      rintro n s'' ⟨rfl, rfl⟩
      have hnext : ContentCursor.Loads (io.view s'') ⟨r, hs, expected, loaded + r.length⟩ :=
        ⟨rest', hkeep ▸ hrest', (Nat.add_assoc _ _ _).trans htotal, .inr hbound⟩
      exact hkeep ▸ ih hnext

theorem returns_cursorLoop {fuel : ℕ} {left right : ContentCursor} (equal : Bool)
    (hl : left.Loads (io.view s)) (hr : right.Loads (io.view s))
    (hfuel : steps left.rest left.chunks + steps right.rest right.chunks < fuel) :
    Returns (cursorLoop io fuel left right equal) s fun _ _ => True := by
  induction fuel generalizing left right equal s with
  | zero => omega
  | succ fuel ih =>
    refine ((returns_remainingFrom hreads hl).and_yields
      fun _ _ hy => steps_remainingFrom hy).bind ?_
    rintro left' s₁ ⟨⟨hkeep₁, hl'⟩, hsl⟩
    refine ((returns_remainingFrom hreads (hkeep₁ ▸ hr)).and_yields
      fun _ _ hy => steps_remainingFrom hy).bind ?_
    rintro right' s₂ ⟨⟨hkeep₂, hr'⟩, hsr⟩
    rw [hkeep₁] at hr' hkeep₂
    rw [← hkeep₂] at hl' hr'
    split
    · exact returns_pure trivial
    · rename_i hne
      split
      · have hlt := steps_drop_all left'.chunks right'.chunks hne
        exact ih _ hl' hr' (hlt.trans_le (by omega))
      · rename_i hnone
        rw [not_or] at hnone
        have hlt := steps_drop_min left'.chunks right'.chunks hnone.1 hnone.2
        exact ih _ hl' hr' (hlt.trans_le (by omega))

/-! ### The manifests -/

omit hreads in
/-- The chunks not yet reached make up what is missing from the declared size, unless some were
skipped. -/
def ChunkSide.Loads (v : View) (side : ChunkSide) : Prop :=
  ∃ tail, reassemble v side.chunks = some tail ∧
    side.read + tail.length ≤ side.total_size.toNat ∧
    (side.skipped = false → side.read + tail.length = side.total_size.toNat)

omit hreads in
/-- A manifest is present when all its later chunks are. -/
theorem reassemble_suffix {v : View} {hs hs' : List Hash} {bytes : Bytes}
    (h : reassemble v hs = some bytes) (hsuf : hs' <:+ hs) :
    ∃ bytes', reassemble v hs' = some bytes' ∧ bytes'.length ≤ bytes.length := by
  induction hs generalizing bytes with
  | nil =>
    obtain rfl := List.suffix_nil.1 hsuf
    exact ⟨bytes, h, le_rfl⟩
  | cons k hs ih =>
    rcases List.suffix_cons_iff.1 hsuf with rfl | hsuf
    · exact ⟨bytes, h, le_rfl⟩
    · simp only [reassemble, Option.bind_eq_bind, Option.bind_eq_some_iff, Option.some.injEq] at h
      obtain ⟨data, -, rest, hrest, rfl⟩ := h
      obtain ⟨bytes', h', hle⟩ := ih hrest hsuf
      refine ⟨bytes', h', ?_⟩
      rw [List.length_append]
      omega

omit hreads in
theorem skipShared_of_not {as bs : List Hash} (h : (skipShared as bs).2.2 = false) :
    (skipShared as bs).1 = as ∧ (skipShared as bs).2.1 = bs := by
  fun_cases skipShared as bs <;> simp_all [skipShared]

omit hreads in
theorem ChunkSide.Loads.skip {v : View} {side : ChunkSide} (h : side.Loads v)
    {chunks : List Hash} {skipped : Bool} (hsuf : chunks <:+ side.chunks)
    (hnot : skipped = false → chunks = side.chunks) :
    ChunkSide.Loads v { side with chunks := chunks, skipped := side.skipped || skipped } := by
  obtain ⟨tail, htail, hle, heq⟩ := h
  obtain ⟨tail', htail', hle'⟩ := reassemble_suffix htail hsuf
  refine ⟨tail', htail', (Nat.add_le_add_left hle' _).trans hle, fun hskipped => ?_⟩
  obtain ⟨hside, hnone⟩ := Bool.or_eq_false_iff.1 hskipped
  rw [hnot hnone, htail] at htail'
  obtain rfl := Option.some.inj htail'
  exact heq hside

omit hreads in
theorem loads_skipRun {v : View} {a b : ChunkSide} (ha : a.Loads v) (hb : b.Loads v) :
    (skipRun a b).1.Loads v ∧ (skipRun a b).2.Loads v := by
  rw [skipRun]
  split
  · obtain ⟨hsa, hsb⟩ := skipShared_suffix a.chunks b.chunks
    exact ⟨ha.skip hsa fun h => (skipShared_of_not h).1,
      hb.skip hsb fun h => (skipShared_of_not h).2⟩
  · exact ⟨ha, hb⟩

theorem returns_refill {side : ChunkSide} (h : side.Loads (io.view s)) :
    Returns (side.refill io) s fun side' s' =>
      io.view s' = io.view s ∧ side'.Loads (io.view s) := by
  rw [ChunkSide.refill]
  split
  · rename_i k hs hrest hchunks
    obtain ⟨tail, htail, hle, heq⟩ := h
    rw [hchunks] at htail
    simp only [reassemble, Option.bind_eq_bind, Option.bind_eq_some_iff, Option.some.injEq] at htail
    obtain ⟨data, hdata, rest, hrest', rfl⟩ := htail
    rw [List.length_append] at hle heq
    have hbound := side.total_size.toNat_lt
    refine (returns_readBlobChunk hreads hdata).bind ?_
    rintro r s' ⟨rfl, hkeep⟩
    refine (returns_addRead (by omega)).bind ?_
    rintro n s'' ⟨rfl, rfl⟩
    refine returns_pure ⟨hkeep, rest, hrest', ?_, fun hskipped => ?_⟩
    · simpa [Nat.add_assoc] using hle
    · simpa [Nat.add_assoc] using heq hskipped
  · exact returns_pure ⟨rfl, h⟩

omit hreads in
theorem returns_checkSize {v : View} {side : ChunkSide} (h : side.Loads v)
    (hnil : side.chunks = []) : Returns (side.checkSize : StoreM σ Unit) s fun _ _ => True := by
  obtain ⟨tail, htail, -, heq⟩ := h
  rw [hnil] at htail
  obtain rfl : [] = tail := Option.some.inj htail
  have hsize : ¬ (!side.skipped && side.read != side.total_size.toNat) = true := by
    rcases hskipped : side.skipped with - | -
    · simpa using heq hskipped
    · simp
  rw [ChunkSide.checkSize, if_neg hsize]
  exact returns_pure trivial

theorem returns_chunkedLoop {fuel : ℕ} {a b : ChunkSide} (equal : Bool)
    (ha : a.Loads (io.view s)) (hb : b.Loads (io.view s))
    (hfuel : steps a.rest a.chunks + steps b.rest b.chunks < fuel) :
    Returns (chunkedLoop io fuel a b equal) s fun _ _ => True := by
  induction fuel generalizing a b equal s with
  | zero => omega
  | succ fuel ih =>
    obtain ⟨hsa, hsb⟩ := steps_skipRun a b
    obtain ⟨ha, hb⟩ := loads_skipRun ha hb
    refine ((returns_refill hreads ha).and_yields fun _ _ hy => steps_refill hy).bind ?_
    rintro a' s₁ ⟨⟨hkeep₁, ha'⟩, hla, hla'⟩
    refine ((returns_refill hreads (hkeep₁ ▸ hb)).and_yields
      fun _ _ hy => steps_refill hy).bind ?_
    rintro b' s₂ ⟨⟨hkeep₂, hb'⟩, hlb, hlb'⟩
    rw [hkeep₁] at hb' hkeep₂
    rw [← hkeep₂] at ha' hb'
    split
    · rename_i hnil
      split
      · rename_i hend
        exact (returns_checkSize ha' hend.1).bind fun _ _ _ =>
          (returns_checkSize hb' hend.2).bind fun _ _ _ => returns_pure trivial
      · rename_i hmore
        refine ih _ ha' hb' ?_
        by_cases hc : a'.chunks = []
        · have := hlb' hnil.2 fun h => hmore ⟨hc, h⟩
          omega
        · have := hla' hnil.1 hc
          omega
    · rename_i hne
      dsimp only
      split
      · have hlt := steps_drop_all a'.chunks b'.chunks hne
        exact ih _ ha' hb' (hlt.trans_le (by omega))
      · rename_i hcount
        have ha0 : a'.rest ≠ [] := by
          rintro h
          simp [h] at hcount
        have hb0 : b'.rest ≠ [] := by
          rintro h
          simp [h] at hcount
        have hlt := steps_drop_min a'.chunks b'.chunks ha0 hb0
        exact ih _ ha' hb' (hlt.trans_le (by omega))

/-! ### The comparison -/

omit hreads in
theorem returns_fromObject {v : View} {h : Hash} {o : Object} {c : Bytes} (ho : v h = some o)
    (hc : content v h = some c) :
    Returns (ContentCursor.fromObject o : StoreM σ ContentCursor) s fun cur s' =>
      cur.Loads v ∧ s' = s := by
  rw [content, ho] at hc
  cases o with
  | blob b => exact returns_pure ⟨⟨[], rfl, rfl, .inl rfl⟩, rfl⟩
  | chunkedBlob m =>
    obtain ⟨hr, hlength⟩ := Option.filter_eq_some_iff.1 hc
    refine returns_pure ⟨⟨c, hr, ?_, .inr m.total_size.toNat_lt⟩, rfl⟩
    simpa using hlength
  | _ => cases hc

omit hreads in
theorem loads_start {v : View} {h : Hash} {m : ChunkedBlob} {c : Bytes}
    (hm : v h = some (.chunkedBlob m)) (hc : content v h = some c) :
    (ChunkSide.start m).Loads v := by
  obtain ⟨⟨tail, htail, heq⟩, hlength⟩ := content_chunkedBlob hm hc
  have hread : 0 + tail.length = m.total_size.toNat := by
    rwa [Nat.zero_add, ← List.nil_append tail, ← heq]
  exact ⟨tail, htail, hread.le, fun _ => hread⟩

/-- **Content comparison answers.** In a store that reads what it holds, two contents that can be
reassembled are compared without failing. -/
theorem returns_contentEq {a b : Hash} (ha : (content (io.view s) a).isSome)
    (hb : (content (io.view s) b).isSome) : Returns (contentEq io a b) s fun res s' =>
      (res = true ↔ content (io.view s) a = content (io.view s) b ∧ SameLayout (io.view s) a b) ∧
        io.view s' = io.view s := by
  suffices hreturns : Returns (contentEq io a b) s fun _ _ => True from
    (hreturns.and_yields fun res s' hy => contentEq_exact hy ha hb).imp fun _ _ h => h.2
  obtain ⟨ca, hca⟩ := Option.isSome_iff_exists.1 ha
  obtain ⟨cb, hcb⟩ := Option.isSome_iff_exists.1 hb
  have hview : ∀ {h c}, content (io.view s) h = some c → ∃ o, io.view s h = some o := by
    intro h c hc
    rcases hv : io.view s h with - | o
    · rw [content, hv] at hc
      cases hc
    · exact ⟨o, rfl⟩
  obtain ⟨objA, hva⟩ := hview hca
  obtain ⟨objB, hvb⟩ := hview hcb
  rw [contentEq]
  split
  · exact returns_pure trivial
  · refine (returns_readObject hreads hva).bind ?_
    rintro r s₁ ⟨rfl, hkeep₁⟩
    refine (returns_readObject hreads (hkeep₁ ▸ hvb)).bind ?_
    rintro r' s₂ ⟨rfl, hkeep₂⟩
    rw [hkeep₁] at hkeep₂
    rw [← hkeep₂] at hva hvb hca hcb
    split
    · rename_i ma mb
      rw [chunkedContentEq]
      split
      · exact returns_pure trivial
      · refine returns_chunkedLoop hreads _ (loads_start hva hca) (loads_start hvb hcb) ?_
        simp only [ChunkSide.start, steps_nil]
        omega
    · refine (returns_fromObject hva hca).bind ?_
      rintro left s₃ ⟨hl, rfl⟩
      refine (returns_fromObject hvb hcb).bind ?_
      rintro right s₄ ⟨hr, rfl⟩
      refine returns_cursorLoop hreads _ hl hr ?_
      have hl := steps_le left.rest left.chunks
      have hr := steps_le right.rest right.chunks
      omega

end Reads

end Mkit
