import Mkit.Lib.Effect
import Mkit.Store

/-!
# File Content

A file's content lives in a single blob or behind a manifest of chunks
(`worktree/blob.rs`). Content is compared independently of that layout: `contentEq` reads
both sides piece by piece and, when both are manifests, skips the chunks they share.

The comparison runs over any store that can be read and written, `SourceSink`. What such a
store holds is its `view`; reads may spend a budget and fail at any time, so the operations
only promise that what a read returns is in the view, and that what was put is.

The main result is `contentEq_exact`: on content that can be reassembled the comparison is
equality of the reassembled bytes, except that two manifests must also have their empty chunks
in the same places. Without empty chunks it is equality of the bytes, `contentEq_spec`.
-/

namespace Mkit

open Effect

/-- Operations on a store whose states are `σ`. -/
abbrev StoreM (σ : Type) := ExceptT StoreError (StateM σ)

/-- A store that can be read and written (`ObjectSource` and `ObjectSink`). A successful
`put` is immediately readable and takes nothing away. -/
structure SourceSink (σ : Type) where
  readObject : Hash → StoreM σ Object
  put : Bytes → StoreM σ Hash
  /-- The objects stored, whether or not there is budget left to read them. -/
  view : σ → Hash → Option Object
  view_of_read : ∀ {h s o s'}, Yields (readObject h) s o s' →
    view s h = some o ∧ view s' = view s
  view_of_put : ∀ {o bytes s h s'}, serialize o = .ok bytes → Yields (put bytes) s h s' →
    ∃ o', view s' h = some o' ∧ serialize o' = .ok bytes
  kept_of_put : ∀ {bytes s h s'}, Yields (put bytes) s h s' →
    ∀ k o, view s k = some o → view s' k = some o

/-- The stored objects, by id. -/
abbrev View := Hash → Option Object

/-! ### Reassembled content -/

section Reassembly

variable (v : View)

/-- The bytes of a chunk. -/
def chunkBytes (h : Hash) : Option Bytes :=
  match v h with
  | some (.blob b) => some b.data
  | _ => none

/-- The concatenated bytes of a list of chunks. -/
def reassemble : List Hash → Option Bytes
  | [] => some []
  | h :: hs => do
    let data ← chunkBytes v h
    let rest ← reassemble hs
    some (data ++ rest)

/-- The full content of a blob or chunked blob (`LoadedBlob::into_content`), whose length
must be the one the manifest declares. -/
def content (h : Hash) : Option Bytes :=
  match v h with
  | some (.blob b) => some b.data
  | some (.chunkedBlob m) => (reassemble v m.chunks).filter (·.length = m.total_size.toNat)
  | _ => none

/-- No chunk of the list is empty. -/
def NoEmptyChunk (chunks : List Hash) : Prop :=
  ∀ h ∈ chunks, chunkBytes v h ≠ some []

instance (chunks : List Hash) : Decidable (NoEmptyChunk v chunks) :=
  inferInstanceAs (Decidable (∀ h ∈ chunks, chunkBytes v h ≠ some []))

/-- If the object is a manifest, none of its chunks is empty. -/
def WholeChunks : Option Object → Prop
  | some (.chunkedBlob m) => NoEmptyChunk v m.chunks
  | _ => True

instance : (o : Option Object) → Decidable (WholeChunks v o)
  | some (.chunkedBlob m) => inferInstanceAs (Decidable (NoEmptyChunk v m.chunks))
  | some (.blob _) | some (.tree _) | some (.commit _) | some (.remix _) | some (.delta _)
  | some (.tag _) | none => isTrue trivial

/-- One more empty chunk in front of the first byte. -/
def pushBack : List (ℕ × UInt8) → List (ℕ × UInt8)
  | [] => []
  | (gap, b) :: l => (gap + 1, b) :: l

/-- Bytes with no empty chunk in front of any of them. -/
def packed (data : Bytes) : List (ℕ × UInt8) :=
  data.map fun b => (0, b)

/-- The bytes of a list of chunks, each with the number of empty chunks right before it. -/
def layout : List Hash → Option (List (ℕ × UInt8))
  | [] => some []
  | h :: hs => do
    let data ← chunkBytes v h
    let rest ← layout hs
    some (if data = [] then pushBack rest else packed data ++ rest)

/-- Of two manifests, the same bytes have the same number of empty chunks right before them. -/
def SameLayout (a b : Hash) : Prop :=
  match v a, v b with
  | some (.chunkedBlob ma), some (.chunkedBlob mb) =>
    a = b ∨ layout v ma.chunks = layout v mb.chunks
  | _, _ => True

/-- The content can be reassembled, and no chunk of it is empty. -/
def ValidContent (h : Hash) : Prop :=
  (content v h).isSome = true ∧ WholeChunks v (v h)

instance (h : Hash) : Decidable (ValidContent v h) :=
  inferInstanceAs (Decidable (_ ∧ _))

end Reassembly

/-! ### Reading chunks -/

section Model

variable {σ : Type} (io : SourceSink σ)

/-- One chunk of a manifest: it must be a blob. -/
def readBlobChunk (chunk : Hash) : StoreM σ Bytes := do
  match ← io.readObject chunk with
  | .blob b => pure b.data
  | _ => throw .io

/-- `checked_add` on a byte count. -/
def addRead (read len : ℕ) : StoreM σ ℕ :=
  if read + len < 2 ^ 64 then pure (read + len) else throw .objectTooLarge

/-- `ChunkedBlobSizeMismatch`. -/
def sizeMismatch (expected actual : ℕ) : StoreError :=
  .decode (.chunkedBlobSizeMismatch (UInt64.ofNat expected) (UInt64.ofNat actual))

/-! ### Comparing piece by piece -/

/-- A position in a blob or chunked blob: the bytes loaded and not yet passed, the chunks not
yet loaded. -/
structure ContentCursor where
  rest : Bytes
  chunks : List Hash
  expected : ℕ
  loaded : ℕ

/-- The start of an object already read. -/
def ContentCursor.fromObject : Object → StoreM σ ContentCursor
  | .blob b => pure ⟨b.data, [], b.data.length, b.data.length⟩
  | .chunkedBlob m => pure ⟨[], m.chunks, m.total_size.toNat, 0⟩
  | _ => throw .io

/-- Load chunks until there are bytes to pass or the content ends; at the end the length must
be the expected one. -/
def ContentCursor.remainingFrom (expected : ℕ) :
    List Hash → Bytes → ℕ → StoreM σ ContentCursor
  | [], rest, loaded =>
    if rest = [] ∧ loaded ≠ expected then throw (sizeMismatch expected loaded)
    else pure ⟨rest, [], expected, loaded⟩
  | h :: hs, rest, loaded =>
    if rest ≠ [] then pure ⟨rest, h :: hs, expected, loaded⟩
    else do
      let data ← readBlobChunk io h
      let loaded ← addRead loaded data.length
      remainingFrom expected hs data loaded

/-- The cursor with its next bytes loaded. -/
def ContentCursor.remaining (c : ContentCursor) : StoreM σ ContentCursor :=
  ContentCursor.remainingFrom io c.expected c.chunks c.rest c.loaded

/-- Pass `n` bytes. -/
def ContentCursor.pass (c : ContentCursor) (n : ℕ) : ContentCursor :=
  { c with rest := c.rest.drop n }

/-- Compare two cursors to their ends. A difference does not end the loop, so that a missing
chunk further on is still found. -/
def cursorLoop : ℕ → ContentCursor → ContentCursor → Bool → StoreM σ Bool
  | 0, _, _, _ => throw .panicked
  | fuel + 1, left, right, equal => do
    let left ← left.remaining io
    let right ← right.remaining io
    if left.rest = [] ∧ right.rest = [] then pure equal
    else if left.rest = [] ∨ right.rest = [] then
      cursorLoop fuel (left.pass left.rest.length) (right.pass right.rest.length) false
    else
      let count := min left.rest.length right.rest.length
      cursorLoop fuel (left.pass count) (right.pass count)
        (equal && left.rest.take count == right.rest.take count)

/-! ### Comparing two manifests -/

/-- One side of the comparison of two manifests: the bytes of the current chunk not yet
passed, the chunks not yet reached, the bytes read so far, and whether a chunk was skipped
because the other side has it too. -/
structure ChunkSide where
  rest : Bytes
  chunks : List Hash
  read : ℕ
  skipped : Bool
  total_size : UInt64

/-- The start of a manifest. -/
def ChunkSide.start (m : ChunkedBlob) : ChunkSide :=
  ⟨[], m.chunks, 0, false, m.total_size⟩

/-- Drop the leading chunks that two lists share. -/
def skipShared : List Hash → List Hash → List Hash × List Hash × Bool
  | a :: as, b :: bs =>
    if a = b then
      let (as', bs', _) := skipShared as bs
      (as', bs', true)
    else (a :: as, b :: bs, false)
  | as, bs => (as, bs, false)

/-- With both sides at a chunk boundary, skip the run of chunks that match by id. -/
def skipRun (a b : ChunkSide) : ChunkSide × ChunkSide :=
  if a.rest = [] ∧ b.rest = [] then
    let (as, bs, skipped) := skipShared a.chunks b.chunks
    ({ a with chunks := as, skipped := a.skipped || skipped },
      { b with chunks := bs, skipped := b.skipped || skipped })
  else (a, b)

/-- At a chunk boundary, read the next chunk, if there is one. -/
def ChunkSide.refill (side : ChunkSide) : StoreM σ ChunkSide :=
  match side.rest, side.chunks with
  | [], h :: hs => do
    let data ← readBlobChunk io h
    let read ← addRead side.read data.length
    pure { side with rest := data, chunks := hs, read := read }
  | _, _ => pure side

/-- A side all of whose chunks were read must have the declared size. -/
def ChunkSide.checkSize (side : ChunkSide) : StoreM σ Unit :=
  if !side.skipped && side.read != side.total_size.toNat then
    throw (sizeMismatch side.total_size.toNat side.read)
  else pure ()

/-- Pass `n` bytes. -/
def ChunkSide.pass (side : ChunkSide) (n : ℕ) : ChunkSide :=
  { side with rest := side.rest.drop n }

/-- The walk over two manifests. -/
def chunkedLoop : ℕ → ChunkSide → ChunkSide → Bool → StoreM σ Bool
  | 0, _, _, _ => throw .panicked
  | fuel + 1, a, b, equal => do
    let a' ← (skipRun a b).1.refill io
    let b' ← (skipRun a b).2.refill io
    if a'.rest = [] ∧ b'.rest = [] then
      if a'.chunks = [] ∧ b'.chunks = [] then do
        a'.checkSize
        b'.checkSize
        pure equal
      -- An empty chunk at the end of one side or both.
      else chunkedLoop fuel a' b' equal
    else
      let count := min a'.rest.length b'.rest.length
      -- One side has run out of chunks for good; drain the other.
      if count = 0 then
        chunkedLoop fuel (a'.pass a'.rest.length) (b'.pass b'.rest.length) false
      else
        chunkedLoop fuel (a'.pass count) (b'.pass count)
          (equal && a'.rest.take count == b'.rest.take count)

/-- Compare two manifests, skipping the chunks both refer to. -/
def chunkedContentEq (ma mb : ChunkedBlob) : StoreM σ Bool :=
  if ma.total_size ≠ mb.total_size then pure false
  else
    chunkedLoop io (ma.chunks.length + mb.chunks.length + 1) (ChunkSide.start ma)
      (ChunkSide.start mb) true

/-- Compare file content independently of its storage layout. -/
def contentEq (a b : Hash) : StoreM σ Bool :=
  if a = b then pure true
  else do
    let objA ← io.readObject a
    let objB ← io.readObject b
    match objA, objB with
    | .chunkedBlob ma, .chunkedBlob mb => chunkedContentEq io ma mb
    | objA, objB => do
      let left ← ContentCursor.fromObject objA
      let right ← ContentCursor.fromObject objB
      cursorLoop io (left.chunks.length + right.chunks.length + 3) left right true

/-! ### Reads leave the store as it is -/

variable {io} {s s' : σ}

variable {h : Hash}

theorem yields_readBlobChunk {data : Bytes} (hy : Yields (readBlobChunk io h) s data s') :
    chunkBytes (io.view s) h = some data ∧ io.view s' = io.view s := by
  obtain ⟨o, s₁, hread, hy⟩ := yields_bind.1 hy
  obtain ⟨hv, hkeep⟩ := io.view_of_read hread
  cases o with
  | blob b =>
    obtain ⟨rfl, rfl⟩ := yields_pure.1 hy
    exact ⟨by rw [chunkBytes, hv], hkeep⟩
  | _ => exact absurd hy yields_throw

theorem yields_addRead {read len n : ℕ} : Yields (addRead read len : StoreM σ ℕ) s n s' ↔
      read + len < 2 ^ 64 ∧ read + len = n ∧ s = s' := by
  rw [addRead]
  split
  · rename_i h
    rw [yields_pure]
    exact (and_iff_right h).symm
  · rename_i h
    exact ⟨fun hy => absurd hy yields_throw, fun hy => absurd hy.1 h⟩

/-! ### The cursors -/

/-- The bytes still ahead of a cursor. -/
def Ahead (v : View) (rest : Bytes) (chunks : List Hash) (bytes : Bytes) : Prop :=
  ∃ tail, reassemble v chunks = some tail ∧ bytes = rest ++ tail

variable {v : View}

theorem ahead_nil {rest bytes : Bytes} : Ahead v rest [] bytes ↔ bytes = rest := by
  simp [Ahead, reassemble]

variable {hs : List Hash}

/-- Moving on to the next chunk. -/
theorem ahead_cons {data bytes : Bytes}
    (hd : chunkBytes v h = some data) : Ahead v [] (h :: hs) bytes ↔ Ahead v data hs bytes := by
  cases hr : reassemble v hs <;> simp [Ahead, reassemble, hd, hr, eq_comm]

/-- Passing bytes. -/
theorem Ahead.drop {rest bytes : Bytes} {chunks : List Hash}
    (h : Ahead v rest chunks bytes) (n : ℕ) (hn : n ≤ rest.length) :
    Ahead v (rest.drop n) chunks (bytes.drop n) ∧ bytes.take n = rest.take n := by
  obtain ⟨tail, htail, rfl⟩ := h
  refine ⟨⟨tail, htail, ?_⟩, ?_⟩
  · rw [List.drop_append_of_le_length hn]
  · rw [List.take_append_of_le_length hn]

/-- Two contents agree when what was passed does and the rest does. -/
theorem eq_iff_take_drop {α : Type} (l r : List α) (n : ℕ) :
    l = r ↔ l.take n = r.take n ∧ l.drop n = r.drop n := by
  constructor
  · rintro rfl
    exact ⟨rfl, rfl⟩
  · rintro ⟨ht, hd⟩
    rw [← List.take_append_drop n l, ht, hd, List.take_append_drop]

/-- Loading keeps what is ahead, and finds bytes unless none are left. -/
theorem yields_remainingFrom {expected loaded : ℕ} {chunks : List Hash} {rest : Bytes}
    {c : ContentCursor}
    (hy : Yields (ContentCursor.remainingFrom io expected chunks rest loaded) s c s') :
    io.view s' = io.view s ∧ ∀ bytes, Ahead (io.view s) rest chunks bytes →
      Ahead (io.view s) c.rest c.chunks bytes ∧ (c.rest = [] → bytes = []) := by
  induction chunks generalizing rest loaded s with
  | nil =>
    rw [ContentCursor.remainingFrom] at hy
    split at hy
    · exact absurd hy yields_throw
    · obtain ⟨rfl, rfl⟩ := yields_pure.1 hy
      refine ⟨rfl, fun bytes hb => ⟨hb, fun hnil => ?_⟩⟩
      rw [ahead_nil.1 hb]
      exact hnil
  | cons h hs ih =>
    rw [ContentCursor.remainingFrom] at hy
    split at hy
    · rename_i hne
      obtain ⟨rfl, rfl⟩ := yields_pure.1 hy
      exact ⟨rfl, fun bytes hb => ⟨hb, fun hnil => absurd hnil hne⟩⟩
    · rename_i hnil
      rw [not_not] at hnil
      subst hnil
      obtain ⟨data, s₁, hchunk, hy⟩ := yields_bind.1 hy
      obtain ⟨n, s₂, hadd, hy⟩ := yields_bind.1 hy
      obtain ⟨-, -, rfl⟩ := yields_addRead.1 hadd
      obtain ⟨hd, hv₁⟩ := yields_readBlobChunk hchunk
      obtain ⟨hv₂, hahead⟩ := ih hy
      rw [hv₁] at hv₂ hahead
      exact ⟨hv₂, fun bytes hb => hahead bytes ((ahead_cons hd).1 hb)⟩

variable {res : Bool}

/-- The cursor loop compares what is ahead of the two cursors. -/
theorem yields_cursorLoop {fuel : ℕ} {left right : ContentCursor} {equal : Bool}
    {l r : Bytes} (hy : Yields (cursorLoop io fuel left right equal) s res s')
    (hl : Ahead (io.view s) left.rest left.chunks l)
    (hr : Ahead (io.view s) right.rest right.chunks r) :
    res = (equal && decide (l = r)) ∧ io.view s' = io.view s := by
  induction fuel generalizing left right equal l r s with
  | zero => exact absurd hy yields_throw
  | succ fuel ih =>
    obtain ⟨left', s₁, hleft, hy⟩ := yields_bind.1 hy
    obtain ⟨right', s₂, hright, hy⟩ := yields_bind.1 hy
    obtain ⟨hv₁, hl'⟩ := yields_remainingFrom hleft
    obtain ⟨hv₂, hr'⟩ := yields_remainingFrom hright
    rw [hv₁] at hv₂ hr'
    obtain ⟨hl', hlnil⟩ := hl' l hl
    obtain ⟨hr', hrnil⟩ := hr' r hr
    rw [← hv₂] at hl' hr'
    split at hy
    · rename_i hnil
      obtain ⟨rfl, rfl⟩ := yields_pure.1 hy
      rw [hlnil hnil.1, hrnil hnil.2]
      exact ⟨by simp, hv₂⟩
    · rename_i hne
      split at hy
      · rename_i hone
        obtain ⟨rfl, hv⟩ := ih hy (hl'.drop _ le_rfl).1 (hr'.drop _ le_rfl).1
        -- One content has ended and the other has not.
        have hlr : l ≠ r := by
          rintro rfl
          rcases hone with h | h
          · obtain ⟨tail, -, htail⟩ := hr'
            rw [hlnil h] at htail
            exact hne ⟨h, (List.append_eq_nil_iff.1 htail.symm).1⟩
          · obtain ⟨tail, -, htail⟩ := hl'
            rw [hrnil h] at htail
            exact hne ⟨(List.append_eq_nil_iff.1 htail.symm).1, h⟩
        exact ⟨by simp [hlr], hv.trans hv₂⟩
      · obtain ⟨hl'', htl⟩ := hl'.drop _ (min_le_left _ right'.rest.length)
        obtain ⟨hr'', htr⟩ := hr'.drop _ (min_le_right left'.rest.length _)
        obtain ⟨rfl, hv⟩ := ih hy hl'' hr''
        have hlr := eq_iff_take_drop l r (min left'.rest.length right'.rest.length)
        rw [htl, htr] at hlr
        refine ⟨?_, hv.trans hv₂⟩
        rw [Bool.eq_iff_iff]
        simp only [Bool.and_eq_true, beq_iff_eq, decide_eq_true_eq, hlr, and_assoc]

/-! ### The manifests

The walk over two manifests compares layouts. It takes an empty chunk that stands opposite bytes
for the end of the content, so that equal contents compare as different when their empty chunks
do not fall in the same places.
-/

variable {l : List (ℕ × UInt8)}

theorem pushBack_inj {r : List (ℕ × UInt8)} : pushBack l = pushBack r ↔ l = r := by
  rcases l with - | ⟨⟨g, x⟩, l⟩ <;> rcases r with - | ⟨⟨g', y⟩, r⟩ <;> simp [pushBack]

theorem map_snd_pushBack (l : List (ℕ × UInt8)) : (pushBack l).map Prod.snd = l.map Prod.snd := by
  cases l <;> rfl

theorem map_snd_packed (data : Bytes) : (packed data).map Prod.snd = data := by
  rw [packed, List.map_map]
  exact List.map_id data

theorem packed_inj {l r : Bytes} : packed l = packed r ↔ l = r :=
  ⟨fun h => by rw [← map_snd_packed l, h, map_snd_packed], congrArg packed⟩

/-- The bytes of a layout are what the chunks reassemble to. -/
theorem reassemble_eq_map_layout (v : View) (chunks : List Hash) :
    reassemble v chunks = (layout v chunks).map (List.map Prod.snd) := by
  induction chunks with
  | nil => rfl
  | cons h hs ih =>
    rw [reassemble, layout, ih]
    cases chunkBytes v h with
    | none => rfl
    | some data =>
      cases layout v hs with
      | none => rfl
      | some rest =>
        by_cases hd : data = []
        · simp [hd, map_snd_pushBack]
        · simp [hd, map_snd_packed]

variable {c : Bytes}

/-- Without empty chunks a layout says no more than the bytes. -/
theorem NoEmptyChunk.layout_eq {chunks : List Hash}
    (hne : NoEmptyChunk v chunks) (hc : reassemble v chunks = some c) :
    layout v chunks = some (packed c) := by
  induction chunks generalizing c with
  | nil =>
    obtain rfl := Option.some.inj hc
    rfl
  | cons h hs ih =>
    simp only [reassemble, Option.bind_eq_bind, Option.bind_eq_some_iff, Option.some.injEq] at hc
    obtain ⟨data, hd, rest, hr, rfl⟩ := hc
    have hdata : data ≠ [] := by
      rintro rfl
      exact hne h List.mem_cons_self hd
    have hrest := ih (fun x hx => hne x (List.mem_cons_of_mem _ hx)) hr
    simp [layout, hd, hrest, hdata, packed]

/-- The layout still ahead of a side. -/
def Spread (v : View) (rest : Bytes) (chunks : List Hash) (l : List (ℕ × UInt8)) : Prop :=
  ∃ tail, layout v chunks = some tail ∧ l = packed rest ++ tail

/-- Moving on to the next chunk. -/
theorem spread_cons {data : Bytes}
    (hd : chunkBytes v h = some data) (hl : Spread v [] (h :: hs) l) :
    (data ≠ [] → Spread v data hs l) ∧ (data = [] → ∃ l', Spread v [] hs l' ∧ l = pushBack l') := by
  obtain ⟨tail, htail, rfl⟩ := hl
  simp only [layout, hd, Option.bind_eq_bind, Option.bind_some, Option.bind_eq_some_iff,
    Option.some.injEq] at htail
  obtain ⟨rest, hrest, rfl⟩ := htail
  refine ⟨fun hne => ⟨rest, hrest, ?_⟩, fun hnil => ⟨rest, ⟨rest, hrest, rfl⟩, ?_⟩⟩
  · exact if_neg hne
  · exact if_pos hnil

/-- Passing bytes. -/
theorem Spread.drop {rest : Bytes} {chunks : List Hash}
    (h : Spread v rest chunks l) {n : ℕ} (hn : n ≤ rest.length) :
    Spread v (rest.drop n) chunks (l.drop n) ∧ l.take n = packed (rest.take n) := by
  obtain ⟨tail, htail, rfl⟩ := h
  have hlength : n ≤ (packed rest).length := by rwa [packed, List.length_map]
  refine ⟨⟨tail, htail, ?_⟩, ?_⟩
  · rw [List.drop_append_of_le_length hlength, packed, ← List.map_drop, packed]
  · rw [List.take_append_of_le_length hlength, packed, ← List.map_take, packed]

theorem skipShared_suffix (as bs : List Hash) :
    (skipShared as bs).1 <:+ as ∧ (skipShared as bs).2.1 <:+ bs := by
  fun_induction skipShared as bs with
  | case1 as b bs as' bs' _ hskip ih =>
    rw [hskip] at ih
    exact ⟨ih.1.trans (List.suffix_cons _ _), ih.2.trans (List.suffix_cons _ _)⟩
  | case2 a as b bs hab => exact ⟨List.suffix_rfl, List.suffix_rfl⟩
  | case3 as bs hnot => exact ⟨List.suffix_rfl, List.suffix_rfl⟩

/-- Skipping what both sides share does not change whether they agree. -/
theorem spread_skipShared {as bs : List Hash} {r : List (ℕ × UInt8)}
    (hl : Spread v [] as l) (hr : Spread v [] bs r) :
    ∃ l' r', Spread v [] (skipShared as bs).1 l' ∧ Spread v [] (skipShared as bs).2.1 r' ∧
      (l = r ↔ l' = r') := by
  fun_induction skipShared as bs generalizing l r with
  | case1 as b bs as' bs' _ hskip ih =>
    rw [hskip] at ih
    cases hd : chunkBytes v b with
    | none =>
      obtain ⟨tail, htail, -⟩ := hl
      simp [layout, hd] at htail
    | some data =>
      obtain ⟨hlbytes, hlgap⟩ := spread_cons hd hl
      obtain ⟨hrbytes, hrgap⟩ := spread_cons hd hr
      by_cases hnil : data = []
      · obtain ⟨l₁, hl₁, rfl⟩ := hlgap hnil
        obtain ⟨r₁, hr₁, rfl⟩ := hrgap hnil
        obtain ⟨l', r', hl', hr', heq⟩ := ih hl₁ hr₁
        exact ⟨l', r', hl', hr', pushBack_inj.trans heq⟩
      · obtain ⟨l₁, hl₁, rfl⟩ := hlbytes hnil
        obtain ⟨r₁, hr₁, rfl⟩ := hrbytes hnil
        obtain ⟨l', r', hl', hr', heq⟩ := ih ⟨l₁, hl₁, rfl⟩ ⟨r₁, hr₁, rfl⟩
        exact ⟨l', r', hl', hr', List.append_right_inj _ |>.trans heq⟩
  | case2 a as b bs hab => exact ⟨l, r, hl, hr, Iff.rfl⟩
  | case3 as bs hnot => exact ⟨l, r, hl, hr, Iff.rfl⟩

theorem spread_skipRun {a b : ChunkSide} {r : List (ℕ × UInt8)}
    (hl : Spread v a.rest a.chunks l) (hr : Spread v b.rest b.chunks r) :
    ∃ l' r', Spread v (skipRun a b).1.rest (skipRun a b).1.chunks l' ∧
      Spread v (skipRun a b).2.rest (skipRun a b).2.chunks r' ∧ (l = r ↔ l' = r') := by
  rw [skipRun]
  split
  · rename_i hnil
    rw [hnil.1] at hl
    rw [hnil.2] at hr
    obtain ⟨l', r', hl', hr', heq⟩ := spread_skipShared hl hr
    exact ⟨l', r', hnil.1 ▸ hl', hnil.2 ▸ hr', heq⟩
  · exact ⟨l, r, hl, hr, Iff.rfl⟩

variable {side side' : ChunkSide}

/-- Refilling finds bytes, or it has passed an empty chunk or come to the end. -/
theorem yields_refill (hy : Yields (side.refill io) s side' s') :
    io.view s' = io.view s ∧ ∀ l, Spread (io.view s) side.rest side.chunks l →
      (side'.rest ≠ [] → Spread (io.view s) side'.rest side'.chunks l) ∧
      (side'.rest = [] → ∃ l', Spread (io.view s) [] side'.chunks l' ∧ l = pushBack l') := by
  rw [ChunkSide.refill] at hy
  split at hy
  · rename_i h hs hrest hchunks
    obtain ⟨data, s₁, hchunk, hy⟩ := yields_bind.1 hy
    obtain ⟨n, s₂, hadd, hy⟩ := yields_bind.1 hy
    obtain ⟨-, -, rfl⟩ := yields_addRead.1 hadd
    obtain ⟨rfl, rfl⟩ := yields_pure.1 hy
    obtain ⟨hd, hv⟩ := yields_readBlobChunk hchunk
    rw [hrest, hchunks]
    exact ⟨hv, fun l hl => spread_cons hd hl⟩
  · rename_i hnot
    obtain ⟨rfl, rfl⟩ := yields_pure.1 hy
    refine ⟨rfl, fun l hl => ⟨fun _ => hl, fun hnil => ?_⟩⟩
    cases hc : side.chunks with
    | nil =>
      rw [hnil, hc] at hl
      obtain ⟨tail, htail, hl⟩ := hl
      obtain rfl : [] = tail := Option.some.inj htail
      exact ⟨[], ⟨[], rfl, rfl⟩, hl⟩
    | cons h hs => exact absurd hc (hnot h hs hnil)

theorem yields_checkSize {u : Unit}
    (hy : Yields (side.checkSize : StoreM σ Unit) s u s') : s' = s := by
  rw [ChunkSide.checkSize] at hy
  split at hy
  · exact absurd hy yields_throw
  · exact (yields_pure.1 hy).2.symm

/-- A layout that begins with bytes in front is not one that begins with an empty chunk. -/
theorem Spread.ne_pushBack {rest : Bytes} {chunks : List Hash}
    (h : Spread v rest chunks l) (hne : rest ≠ []) (r : List (ℕ × UInt8)) : l ≠ pushBack r := by
  obtain ⟨tail, -, rfl⟩ := h
  obtain ⟨b, rest, rfl⟩ := List.exists_cons_of_ne_nil hne
  rcases r with - | ⟨⟨gap, x⟩, r⟩
  · exact List.cons_ne_nil _ _
  · intro heq
    exact absurd (congrArg Prod.fst (List.cons.inj heq).1) (Nat.succ_ne_zero gap).symm

/-- The walk over two manifests compares what is ahead of the two sides. -/
theorem yields_chunkedLoop {fuel : ℕ} {a b : ChunkSide} {equal : Bool}
    {r : List (ℕ × UInt8)} (hy : Yields (chunkedLoop io fuel a b equal) s res s')
    (hl : Spread (io.view s) a.rest a.chunks l) (hr : Spread (io.view s) b.rest b.chunks r) :
    res = (equal && decide (l = r)) ∧ io.view s' = io.view s := by
  induction fuel generalizing a b equal l r s with
  | zero => exact absurd hy yields_throw
  | succ fuel ih =>
    obtain ⟨a', s₁, ha', hy⟩ := yields_bind.1 hy
    obtain ⟨b', s₂, hb', hy⟩ := yields_bind.1 hy
    obtain ⟨l₁, r₁, hl₁, hr₁, heq⟩ := spread_skipRun hl hr
    obtain ⟨hv₁, hl'⟩ := yields_refill ha'
    obtain ⟨hv₂, hr'⟩ := yields_refill hb'
    rw [hv₁] at hv₂ hr'
    obtain ⟨hlbytes, hlgap⟩ := hl' l₁ hl₁
    obtain ⟨hrbytes, hrgap⟩ := hr' r₁ hr₁
    rw [← hv₂] at hlbytes hlgap hrbytes hrgap
    have hdec : decide (l = r) = decide (l₁ = r₁) := decide_eq_decide.2 heq
    rw [hdec]
    split at hy
    · rename_i hnil
      obtain ⟨l₂, hl₂, rfl⟩ := hlgap hnil.1
      obtain ⟨r₂, hr₂, rfl⟩ := hrgap hnil.2
      have hgap : decide (pushBack l₂ = pushBack r₂) = decide (l₂ = r₂) :=
        decide_eq_decide.2 pushBack_inj
      rw [hgap]
      split at hy
      · rename_i hend
        obtain ⟨_, s₃, hc, hend₁⟩ := yields_bind.1 hy
        obtain ⟨_, s₄, hc', hend₂⟩ := yields_bind.1 hend₁
        obtain ⟨rfl, rfl⟩ := yields_pure.1 hend₂
        rw [yields_checkSize hc', yields_checkSize hc]
        rw [hend.1] at hl₂
        rw [hend.2] at hr₂
        obtain ⟨tail, htail, rfl⟩ := hl₂
        obtain ⟨tail', htail', rfl⟩ := hr₂
        rw [Option.some.inj (htail.symm.trans htail')]
        exact ⟨by simp, hv₂⟩
      · rw [← hnil.1] at hl₂
        rw [← hnil.2] at hr₂
        obtain ⟨rfl, hv⟩ := ih hy hl₂ hr₂
        exact ⟨rfl, hv.trans hv₂⟩
    · rename_i hne
      dsimp only at hy
      split at hy
      · rename_i hone
        -- An empty chunk or the end on one side, bytes on the other.
        have hdrain : ∀ {side : ChunkSide} {l : List (ℕ × UInt8)},
            (side.rest ≠ [] → Spread (io.view s₂) side.rest side.chunks l) →
            (side.rest = [] → ∃ l', Spread (io.view s₂) [] side.chunks l' ∧ l = pushBack l') →
            ∃ l', Spread (io.view s₂) (side.rest.drop side.rest.length) side.chunks l' := by
          intro side l hbytes hgap
          by_cases hside : side.rest = []
          · obtain ⟨l', hl', -⟩ := hgap hside
            exact ⟨l', hside ▸ hl'⟩
          · exact ⟨_, ((hbytes hside).drop le_rfl).1⟩
        obtain ⟨l₂, hl₂⟩ := hdrain hlbytes hlgap
        obtain ⟨r₂, hr₂⟩ := hdrain hrbytes hrgap
        obtain ⟨rfl, hv⟩ := ih hy hl₂ hr₂
        have hlr : l₁ ≠ r₁ := by
          rcases Nat.min_eq_zero_iff.1 hone with h | h
          · have ha := List.length_eq_zero_iff.1 h
            obtain ⟨l', -, rfl⟩ := hlgap ha
            have hb : b'.rest ≠ [] := fun hb => hne ⟨ha, hb⟩
            exact ((hrbytes hb).ne_pushBack hb l').symm
          · have hb := List.length_eq_zero_iff.1 h
            obtain ⟨r', -, rfl⟩ := hrgap hb
            have ha : a'.rest ≠ [] := fun ha => hne ⟨ha, hb⟩
            exact (hlbytes ha).ne_pushBack ha r'
        exact ⟨by simp [hlr], hv.trans hv₂⟩
      · rename_i hcount
        have ha : a'.rest ≠ [] := by
          rintro h
          simp [h] at hcount
        have hb : b'.rest ≠ [] := by
          rintro h
          simp [h] at hcount
        obtain ⟨hl'', htl⟩ := (hlbytes ha).drop (min_le_left _ b'.rest.length)
        obtain ⟨hr'', htr⟩ := (hrbytes hb).drop (min_le_right a'.rest.length _)
        obtain ⟨rfl, hv⟩ := ih hy hl'' hr''
        have hlr := eq_iff_take_drop l₁ r₁ (min a'.rest.length b'.rest.length)
        rw [htl, htr, packed_inj] at hlr
        refine ⟨?_, hv.trans hv₂⟩
        rw [Bool.eq_iff_iff]
        simp only [Bool.and_eq_true, beq_iff_eq, decide_eq_true_eq, hlr, and_assoc]

/-! ### The comparison -/

variable {m : ChunkedBlob}

theorem content_chunkedBlob (hm : v h = some (.chunkedBlob m)) (hc : content v h = some c) :
    Ahead v [] m.chunks c ∧ c.length = m.total_size.toNat := by
  rw [content, hm] at hc
  obtain ⟨hr, hlen⟩ := Option.filter_eq_some_iff.1 hc
  exact ⟨⟨c, hr, rfl⟩, by simpa using hlen⟩

/-- A fresh cursor has the whole content ahead of it. -/
theorem yields_fromObject {o : Object} {cur : ContentCursor}
    (ho : v h = some o) (hc : content v h = some c)
    (hy : Yields (ContentCursor.fromObject o : StoreM σ ContentCursor) s cur s') :
    Ahead v cur.rest cur.chunks c ∧ s' = s := by
  cases o with
  | blob b =>
    obtain ⟨rfl, rfl⟩ := yields_pure.1 hy
    rw [content, ho] at hc
    obtain rfl := Option.some.inj hc
    exact ⟨ahead_nil.2 rfl, rfl⟩
  | chunkedBlob m =>
    obtain ⟨rfl, rfl⟩ := yields_pure.1 hy
    exact ⟨(content_chunkedBlob ho hc).1, rfl⟩
  | _ => exact absurd hy yields_throw

/-- The content behind a manifest has the bytes of its layout. -/
theorem content_layout (hm : v h = some (.chunkedBlob m)) (hc : content v h = some c) :
    ∃ l, layout v m.chunks = some l ∧ l.map Prod.snd = c := by
  obtain ⟨⟨tail, htail, heq⟩, -⟩ := content_chunkedBlob hm hc
  rw [reassemble_eq_map_layout, Option.map_eq_some_iff] at htail
  obtain ⟨l, hl, rfl⟩ := htail
  exact ⟨l, hl, heq.symm⟩

variable {a b : Hash} {ma mb : ChunkedBlob}

theorem yields_chunkedContentEq {ca cb : Bytes} (hy : Yields (chunkedContentEq io ma mb) s res s')
    (hma : io.view s a = some (.chunkedBlob ma)) (hmb : io.view s b = some (.chunkedBlob mb))
    (hca : content (io.view s) a = some ca) (hcb : content (io.view s) b = some cb) :
    (res = true ↔ layout (io.view s) ma.chunks = layout (io.view s) mb.chunks) ∧
      io.view s' = io.view s := by
  obtain ⟨la, hla, rfl⟩ := content_layout hma hca
  obtain ⟨lb, hlb, rfl⟩ := content_layout hmb hcb
  rw [hla, hlb, Option.some.injEq]
  rw [chunkedContentEq] at hy
  split at hy
  · rename_i hne
    obtain ⟨rfl, rfl⟩ := yields_pure.1 hy
    refine ⟨iff_of_false Bool.false_ne_true ?_, rfl⟩
    rintro rfl
    exact hne (UInt64.toNat_inj.1 ((content_chunkedBlob hma hca).2.symm.trans
      (content_chunkedBlob hmb hcb).2))
  · have hsa : Spread (io.view s) [] ma.chunks la := ⟨la, hla, rfl⟩
    have hsb : Spread (io.view s) [] mb.chunks lb := ⟨lb, hlb, rfl⟩
    obtain ⟨rfl, hkeep⟩ := yields_chunkedLoop hy hsa hsb
    exact ⟨by simp, hkeep⟩

theorem SameLayout.refl (v : View) (a : Hash) : SameLayout v a a := by
  rw [SameLayout]
  split
  · exact .inl rfl
  · exact trivial

theorem sameLayout_manifests
    (hma : v a = some (.chunkedBlob ma)) (hmb : v b = some (.chunkedBlob mb)) :
    SameLayout v a b ↔ a = b ∨ layout v ma.chunks = layout v mb.chunks := by
  rw [SameLayout, hma, hmb]

/-- **What content comparison answers.** It finds two contents equal when their bytes are, unless
they are behind two manifests whose empty chunks fall in different places. -/
theorem contentEq_exact (hy : Yields (contentEq io a b) s res s')
    (ha : (content (io.view s) a).isSome) (hb : (content (io.view s) b).isSome) :
    (res = true ↔ content (io.view s) a = content (io.view s) b ∧ SameLayout (io.view s) a b) ∧
      io.view s' = io.view s := by
  obtain ⟨ca, hca⟩ := Option.isSome_iff_exists.1 ha
  obtain ⟨cb, hcb⟩ := Option.isSome_iff_exists.1 hb
  rw [contentEq] at hy
  split at hy
  · rename_i hab
    obtain ⟨rfl, rfl⟩ := yields_pure.1 hy
    subst hab
    exact ⟨iff_of_true rfl ⟨rfl, .refl _ a⟩, rfl⟩
  · rename_i hab
    obtain ⟨objA, s₁, hreadA, hy₁⟩ := yields_bind.1 hy
    obtain ⟨objB, s₂, hreadB, hy₂⟩ := yields_bind.1 hy₁
    obtain ⟨hva, hkeep₁⟩ := io.view_of_read hreadA
    obtain ⟨hvb, hkeep₂⟩ := io.view_of_read hreadB
    rw [hkeep₁] at hvb hkeep₂
    rw [← hkeep₂] at hva hvb hca hcb ⊢
    split at hy₂
    · rename_i ma mb
      obtain ⟨hres, hkeep⟩ := yields_chunkedContentEq hy₂ hva hvb hca hcb
      refine ⟨hres.trans ?_, hkeep⟩
      rw [sameLayout_manifests hva hvb, hca, hcb, or_iff_right hab]
      refine ⟨fun hlayout => ⟨?_, hlayout⟩, And.right⟩
      obtain ⟨la, hla, rfl⟩ := content_layout hva hca
      obtain ⟨lb, hlb, rfl⟩ := content_layout hvb hcb
      rw [hla, hlb, Option.some.injEq] at hlayout
      rw [hlayout]
    · rename_i hnot
      have hlayout : SameLayout (io.view s₂) a b := by
        rw [SameLayout, hva, hvb]
        split
        · rename_i ma mb hma hmb
          exact absurd (Option.some.inj hmb) (hnot ma mb (Option.some.inj hma))
        · exact trivial
      obtain ⟨left, s₃, hleft, hy₃⟩ := yields_bind.1 hy₂
      obtain ⟨right, s₄, hright, hy₄⟩ := yields_bind.1 hy₃
      obtain ⟨hal, rfl⟩ := yields_fromObject hva hca hleft
      obtain ⟨har, rfl⟩ := yields_fromObject hvb hcb hright
      obtain ⟨rfl, hkeep⟩ := yields_cursorLoop hy₄ hal har
      rw [hca, hcb, Option.some.injEq, and_iff_left hlayout]
      exact ⟨by simp, hkeep⟩

/-- Equal contents without empty chunks have the same layout. -/
theorem ValidContent.sameLayout (ha : ValidContent v a)
    (hb : ValidContent v b) (h : content v a = content v b) : SameLayout v a b := by
  have hpacked : ∀ {h m}, ValidContent v h → v h = some (.chunkedBlob m) →
      ∃ c, content v h = some c ∧ layout v m.chunks = some (packed c) := by
    intro h m hvalid hm
    obtain ⟨c, hc⟩ := Option.isSome_iff_exists.1 hvalid.1
    have hchunks := hvalid.2
    rw [hm] at hchunks
    obtain ⟨⟨tail, htail, heq⟩, -⟩ := content_chunkedBlob hm hc
    exact ⟨c, hc, by rw [hchunks.layout_eq htail, heq, List.nil_append]⟩
  rw [SameLayout]
  split
  · rename_i ma mb hma hmb
    obtain ⟨ca, hca, hla⟩ := hpacked ha hma
    obtain ⟨cb, hcb, hlb⟩ := hpacked hb hmb
    rw [hca, hcb, Option.some.injEq] at h
    exact .inr (by rw [hla, hlb, h])
  · exact trivial

/-- **Content comparison is exact.** On valid contents, whatever the layout of the two sides,
the comparison answers whether the reassembled bytes are the same. -/
theorem contentEq_spec (hy : Yields (contentEq io a b) s res s')
    (ha : ValidContent (io.view s) a) (hb : ValidContent (io.view s) b) :
    res = decide (content (io.view s) a = content (io.view s) b) ∧
      io.view s' = io.view s := by
  obtain ⟨hres, hkeep⟩ := contentEq_exact hy ha.1 hb.1
  refine ⟨?_, hkeep⟩
  rw [Bool.eq_iff_iff, decide_eq_true_iff, hres]
  exact and_iff_left_of_imp (ha.sameLayout hb)

/-! ### The loops end

The loops are given as many steps as there can be: every step either uses up a chunk or the
bytes in front of one side. So running out of steps is not among the ways to fail.
-/

/-- How many steps a side can still cause. -/
def steps (rest : Bytes) (chunks : List Hash) : ℕ :=
  chunks.length + if rest = [] then 0 else 1

theorem steps_nil (chunks : List Hash) : steps [] chunks = chunks.length := by
  simp [steps]

theorem steps_le (rest : Bytes) (chunks : List Hash) : steps rest chunks ≤ chunks.length + 1 := by
  rw [steps]
  split <;> omega

theorem steps_drop_le (rest : Bytes) (chunks : List Hash) (n : ℕ) :
    steps (rest.drop n) chunks ≤ steps rest chunks := by
  by_cases h : rest = []
  · simp [h]
  · have hle := steps_le (rest.drop n) chunks
    simpa [steps, h] using hle

/-- Passing everything in front uses up a step. -/
theorem steps_drop_lt {rest : Bytes} {n : ℕ} (chunks : List Hash) (h : rest ≠ [])
    (hn : rest.length ≤ n) : steps (rest.drop n) chunks < steps rest chunks := by
  rw [List.drop_of_length_le hn, steps_nil]
  simp [steps, h]

/-- Passing everything in front of both sides uses up a step. -/
theorem steps_drop_all {l r : Bytes} (ls rs : List Hash) (h : ¬ (l = [] ∧ r = [])) :
    steps (l.drop l.length) ls + steps (r.drop r.length) rs < steps l ls + steps r rs := by
  have hl := steps_drop_le l ls l.length
  have hr := steps_drop_le r rs r.length
  by_cases hnil : l = []
  · have hlt := steps_drop_lt rs (fun hr => h ⟨hnil, hr⟩) le_rfl
    omega
  · have hlt := steps_drop_lt ls hnil le_rfl
    omega

/-- Passing what both sides have in front uses up a step. -/
theorem steps_drop_min {l r : Bytes} (ls rs : List Hash) (hl : l ≠ []) (hr : r ≠ []) :
    steps (l.drop (min l.length r.length)) ls + steps (r.drop (min l.length r.length)) rs <
      steps l ls + steps r rs := by
  have hl' := steps_drop_le l ls (min l.length r.length)
  have hr' := steps_drop_le r rs (min l.length r.length)
  rcases le_total l.length r.length with hle | hle
  · have hlt := steps_drop_lt ls hl (le_min le_rfl hle)
    omega
  · have hlt := steps_drop_lt rs hr (le_min hle le_rfl)
    omega

/-- Loading does not add steps. -/
theorem steps_remainingFrom {expected loaded : ℕ} {chunks : List Hash} {rest : Bytes}
    {c : ContentCursor}
    (hy : Yields (ContentCursor.remainingFrom io expected chunks rest loaded) s c s') :
    steps c.rest c.chunks ≤ steps rest chunks := by
  induction chunks generalizing rest loaded s with
  | nil =>
    rw [ContentCursor.remainingFrom] at hy
    split at hy
    · exact absurd hy yields_throw
    · obtain ⟨rfl, -⟩ := yields_pure.1 hy
      exact le_rfl
  | cons h hs ih =>
    rw [ContentCursor.remainingFrom] at hy
    split at hy
    · obtain ⟨rfl, -⟩ := yields_pure.1 hy
      exact le_rfl
    · rename_i hnil
      rw [not_not] at hnil
      obtain ⟨data, s₁, hchunk, hy₁⟩ := yields_bind.1 hy
      obtain ⟨n, s₂, hadd, hy₂⟩ := yields_bind.1 hy₁
      have hle := steps_le data hs
      have hih := ih hy₂
      rw [hnil, steps_nil, List.length_cons]
      omega

/-- Skipping does not add steps. -/
theorem steps_skipRun (a b : ChunkSide) :
    steps (skipRun a b).1.rest (skipRun a b).1.chunks ≤ steps a.rest a.chunks ∧
      steps (skipRun a b).2.rest (skipRun a b).2.chunks ≤ steps b.rest b.chunks := by
  rw [skipRun]
  split
  · rename_i hnil
    obtain ⟨ha, hb⟩ := skipShared_suffix a.chunks b.chunks
    simp only [hnil.1, hnil.2, steps_nil]
    exact ⟨ha.length_le, hb.length_le⟩
  · exact ⟨le_rfl, le_rfl⟩

/-- Refilling does not add steps, and uses one up when it finds no bytes but more chunks were
left. -/
theorem steps_refill (hy : Yields (side.refill io) s side' s') :
    steps side'.rest side'.chunks ≤ steps side.rest side.chunks ∧
      (side'.rest = [] → side'.chunks ≠ [] →
        steps side'.rest side'.chunks < steps side.rest side.chunks) := by
  rw [ChunkSide.refill] at hy
  split at hy
  · rename_i h hs hrest hchunks
    obtain ⟨data, s₁, hchunk, hy₁⟩ := yields_bind.1 hy
    obtain ⟨n, s₂, hadd, hy₂⟩ := yields_bind.1 hy₁
    obtain ⟨rfl, -⟩ := yields_pure.1 hy₂
    have hle := steps_le data hs
    rw [hrest, hchunks, steps_nil, List.length_cons]
    refine ⟨hle, fun hnil _ => ?_⟩
    simp only at hnil
    simp [hnil, steps_nil]
  · rename_i hnot
    obtain ⟨rfl, -⟩ := yields_pure.1 hy
    refine ⟨le_rfl, fun hnil hne => ?_⟩
    obtain ⟨h, hs, hc⟩ := List.exists_cons_of_ne_nil hne
    exact absurd hc (hnot h hs hnil)

end Model

end Mkit
