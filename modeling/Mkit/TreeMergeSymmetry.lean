import Mkit.TreeMerge
import Mkit.LineMerge

/-!
# Exchanging the Sides of a Tree Merge

The decisions of `merge_entries_recursive` are not written symmetrically: ours wins where both
sides agree, and each deleting side has a branch of its own. Still a merge of base, theirs and
ours finds the conflicts of a merge of base, ours and theirs, with the two sides exchanged, and
without conflicts writes the same tree up to files whose contents compare equal
(`mergeTrees_symmetric`).

The two merges run on their own, each on a store that grows as it goes. What they read is fixed
by the objects that the two stores hold together (`Decided`), so both decide by the same
comparisons (`decision`), and the two decisions of a row mirror each other (`mirrors_decision`).
-/

namespace Mkit

open Effect Lockstep

/-! ### What is read is fixed by what is stored -/

section Decided

variable {σ : Type} (io : SourceSink σ) (w : View) {α β : Type}

/-- On a store that holds a part of `w`, the computation only reads, and can only yield `a`. -/
def Decided (x : StoreM σ α) (a : α) : Prop :=
  ∀ s b s', Extends (io.view s) w → Yields x s b s' → b = a ∧ io.view s' = io.view s

variable {io w}

theorem decided_pure (a : α) : Decided io w (pure a) a := by
  intro s b s' _ hy
  obtain ⟨rfl, rfl⟩ := yields_pure.1 hy
  exact ⟨rfl, rfl⟩

theorem decided_throw (e : StoreError) (a : α) : Decided io w (throw e) a :=
  fun _ _ _ _ hy => absurd hy yields_throw

theorem Decided.bind {x : StoreM σ α} {f : α → StoreM σ β} {a : α} {b : β}
    (hx : Decided io w x a) (hf : Decided io w (f a) b) : Decided io w (x >>= f) b := by
  intro s c s'' hs hy
  obtain ⟨a', s', ha, hc⟩ := yields_bind.1 hy
  obtain ⟨rfl, hkeep⟩ := hx s a' s' hs ha
  obtain ⟨rfl, hkeep'⟩ := hf s' c s'' (hkeep ▸ hs) hc
  exact ⟨rfl, hkeep'.trans hkeep⟩

variable (io w)

theorem decided_readObject (h : Hash) : ∃ o, Decided io w (io.readObject h) o := by
  cases hw : w h with
  | some o =>
    refine ⟨o, fun s o' s' hs hy => ?_⟩
    obtain ⟨hv, hkeep⟩ := io.view_of_read hy
    exact ⟨Option.some.inj ((hs h o' hv).symm.trans hw), hkeep⟩
  | none =>
    refine ⟨.blob ⟨[]⟩, fun s o' s' hs hy => ?_⟩
    have := hs h o' (io.view_of_read hy).1
    rw [hw] at this
    cases this

theorem decided_readBlobChunk (h : Hash) : ∃ data, Decided io w (readBlobChunk io h) data := by
  obtain ⟨o, ho⟩ := decided_readObject io w h
  cases o with
  | blob b => exact ⟨b.data, ho.bind (decided_pure _)⟩
  | _ => exact ⟨[], ho.bind (decided_throw _ _)⟩

theorem decided_addRead (read len : ℕ) : ∃ n, Decided io w (addRead read len) n := by
  rw [addRead]
  split
  · exact ⟨_, decided_pure _⟩
  · exact ⟨0, decided_throw _ _⟩

theorem decided_remainingFrom (expected : ℕ) (chunks : List Hash) (rest : Bytes) (loaded : ℕ) :
    ∃ c, Decided io w (ContentCursor.remainingFrom io expected chunks rest loaded) c := by
  induction chunks generalizing rest loaded with
  | nil =>
    rw [ContentCursor.remainingFrom]
    split
    · exact ⟨⟨[], [], 0, 0⟩, decided_throw _ _⟩
    · exact ⟨_, decided_pure _⟩
  | cons h hs ih =>
    rw [ContentCursor.remainingFrom]
    split
    · exact ⟨_, decided_pure _⟩
    · obtain ⟨data, hdata⟩ := decided_readBlobChunk io w h
      obtain ⟨n, hn⟩ := decided_addRead io w loaded data.length
      obtain ⟨c, hc⟩ := ih data n
      exact ⟨c, hdata.bind (hn.bind hc)⟩

/-- Comparing piece by piece decides the same in both directions. -/
theorem decided_cursorLoop (fuel : ℕ) (left right : ContentCursor) (equal : Bool) :
    ∃ r, Decided io w (cursorLoop io fuel left right equal) r ∧
      Decided io w (cursorLoop io fuel right left equal) r := by
  induction fuel generalizing left right equal with
  | zero => exact ⟨true, decided_throw _ _, decided_throw _ _⟩
  | succ fuel ih =>
    obtain ⟨l, hl⟩ : ∃ l, Decided io w (left.remaining io) l := decided_remainingFrom io w _ _ _ _
    obtain ⟨r, hr⟩ : ∃ r, Decided io w (right.remaining io) r := decided_remainingFrom io w _ _ _ _
    simp only [cursorLoop]
    by_cases hboth : l.rest = [] ∧ r.rest = []
    · refine ⟨equal, hl.bind (hr.bind ?_), hr.bind (hl.bind ?_)⟩
      · rw [if_pos hboth]
        exact decided_pure _
      · rw [if_pos hboth.symm]
        exact decided_pure _
    · by_cases hone : l.rest = [] ∨ r.rest = []
      · obtain ⟨b, hb, hb'⟩ := ih (l.pass l.rest.length) (r.pass r.rest.length) false
        refine ⟨b, hl.bind (hr.bind ?_), hr.bind (hl.bind ?_)⟩
        · rw [if_neg hboth, if_pos hone]
          exact hb
        · rw [if_neg (fun h => hboth h.symm), if_pos hone.symm]
          exact hb'
      · obtain ⟨b, hb, hb'⟩ := ih (l.pass (min l.rest.length r.rest.length))
          (r.pass (min l.rest.length r.rest.length))
          (equal && l.rest.take (min l.rest.length r.rest.length) ==
            r.rest.take (min l.rest.length r.rest.length))
        refine ⟨b, hl.bind (hr.bind ?_), hr.bind (hl.bind ?_)⟩
        · rw [if_neg hboth, if_neg hone]
          exact hb
        · rw [if_neg (fun h => hboth h.symm), if_neg (fun h => hone h.symm), min_comm,
            BEq.comm]
          exact hb'

theorem skipShared_swap (as bs : List Hash) :
    skipShared bs as = ((skipShared as bs).2.1, (skipShared as bs).1, (skipShared as bs).2.2) := by
  induction as generalizing bs with
  | nil => cases bs <;> rfl
  | cons a as ih =>
    cases bs with
    | nil => rfl
    | cons b bs =>
      rw [skipShared, skipShared]
      by_cases hab : a = b
      · rw [if_pos hab, if_pos hab.symm, ih bs]
      · rw [if_neg hab, if_neg (Ne.symm hab)]

theorem skipRun_swap (a b : ChunkSide) : skipRun b a = (skipRun a b).swap := by
  rw [skipRun, skipRun]
  by_cases hboth : a.rest = [] ∧ b.rest = []
  · rw [if_pos hboth, if_pos hboth.symm, skipShared_swap a.chunks b.chunks]
    rfl
  · rw [if_neg hboth, if_neg fun h => hboth h.symm]
    rfl

theorem decided_refill (side : ChunkSide) : ∃ side', Decided io w (side.refill io) side' := by
  rw [ChunkSide.refill]
  split
  · rename_i h hs _ _
    obtain ⟨data, hdata⟩ := decided_readBlobChunk io w h
    obtain ⟨n, hn⟩ := decided_addRead io w side.read data.length
    exact ⟨_, hdata.bind (hn.bind (decided_pure _))⟩
  · exact ⟨side, decided_pure _⟩

theorem decided_checkSize (side : ChunkSide) : Decided io w side.checkSize () := by
  rw [ChunkSide.checkSize]
  split
  · exact decided_throw _ _
  · exact decided_pure _

/-- Comparing two manifests decides the same in both directions. -/
theorem decided_chunkedLoop (fuel : ℕ) (a b : ChunkSide) (equal : Bool) :
    ∃ r, Decided io w (chunkedLoop io fuel a b equal) r ∧
      Decided io w (chunkedLoop io fuel b a equal) r := by
  induction fuel generalizing a b equal with
  | zero => exact ⟨true, decided_throw _ _, decided_throw _ _⟩
  | succ fuel ih =>
    simp only [chunkedLoop, skipRun_swap a b, Prod.fst_swap, Prod.snd_swap]
    obtain ⟨a', ha⟩ := decided_refill io w (skipRun a b).1
    obtain ⟨b', hb⟩ := decided_refill io w (skipRun a b).2
    by_cases hrest : a'.rest = [] ∧ b'.rest = []
    · by_cases hchunks : a'.chunks = [] ∧ b'.chunks = []
      · refine ⟨equal, ha.bind (hb.bind ?_), hb.bind (ha.bind ?_)⟩
        · rw [if_pos hrest, if_pos hchunks]
          exact (decided_checkSize io w a').bind ((decided_checkSize io w b').bind (decided_pure _))
        · rw [if_pos hrest.symm, if_pos hchunks.symm]
          exact (decided_checkSize io w b').bind ((decided_checkSize io w a').bind (decided_pure _))
      · obtain ⟨r, hr, hr'⟩ := ih a' b' equal
        refine ⟨r, ha.bind (hb.bind ?_), hb.bind (ha.bind ?_)⟩
        · rw [if_pos hrest, if_neg hchunks]
          exact hr
        · rw [if_pos hrest.symm, if_neg fun h => hchunks h.symm]
          exact hr'
    · by_cases hcount : min a'.rest.length b'.rest.length = 0
      · obtain ⟨r, hr, hr'⟩ := ih (a'.pass a'.rest.length) (b'.pass b'.rest.length) false
        refine ⟨r, ha.bind (hb.bind ?_), hb.bind (ha.bind ?_)⟩
        · rw [if_neg hrest, if_pos hcount]
          exact hr
        · rw [if_neg (fun h => hrest h.symm), min_comm, if_pos hcount]
          exact hr'
      · obtain ⟨r, hr, hr'⟩ := ih (a'.pass (min a'.rest.length b'.rest.length))
          (b'.pass (min a'.rest.length b'.rest.length))
          (equal && a'.rest.take (min a'.rest.length b'.rest.length) ==
            b'.rest.take (min a'.rest.length b'.rest.length))
        refine ⟨r, ha.bind (hb.bind ?_), hb.bind (ha.bind ?_)⟩
        · rw [if_neg hrest, if_neg hcount]
          exact hr
        · rw [if_neg (fun h => hrest h.symm), min_comm, if_neg hcount, BEq.comm]
          exact hr'

/-- The comparison of two objects that were read. -/
def compareObjects (objA objB : Object) : StoreM σ Bool :=
  match objA, objB with
  | .chunkedBlob ma, .chunkedBlob mb => chunkedContentEq io ma mb
  | objA, objB => do
    let left ← ContentCursor.fromObject objA
    let right ← ContentCursor.fromObject objB
    cursorLoop io (left.chunks.length + right.chunks.length + 3) left right true

theorem decided_fromObject (o : Object) : ∃ c, Decided io w (ContentCursor.fromObject o) c := by
  cases o with
  | blob b => exact ⟨_, decided_pure _⟩
  | chunkedBlob m => exact ⟨_, decided_pure _⟩
  | _ => exact ⟨⟨[], [], 0, 0⟩, decided_throw _ _⟩

theorem decided_compareObjects (objA objB : Object) :
    ∃ r, Decided io w (compareObjects io objA objB) r ∧
      Decided io w (compareObjects io objB objA) r := by
  have hpieces : ∃ r,
      Decided io w (do
        let left ← ContentCursor.fromObject objA
        let right ← ContentCursor.fromObject objB
        cursorLoop io (left.chunks.length + right.chunks.length + 3) left right true) r ∧
      Decided io w (do
        let left ← ContentCursor.fromObject objB
        let right ← ContentCursor.fromObject objA
        cursorLoop io (left.chunks.length + right.chunks.length + 3) left right true) r := by
    obtain ⟨l, hl⟩ := decided_fromObject io w objA
    obtain ⟨r, hr⟩ := decided_fromObject io w objB
    obtain ⟨b, hb, hb'⟩ := decided_cursorLoop io w
      (l.chunks.length + r.chunks.length + 3) l r true
    refine ⟨b, hl.bind (hr.bind hb), hr.bind (hl.bind ?_)⟩
    rwa [Nat.add_comm r.chunks.length]
  cases objA with
  | chunkedBlob ma =>
    cases objB with
    | chunkedBlob mb =>
      simp only [compareObjects, chunkedContentEq]
      by_cases hsize : ma.total_size = mb.total_size
      · obtain ⟨r, hr, hr'⟩ := decided_chunkedLoop io w
          (ma.chunks.length + mb.chunks.length + 1) (ChunkSide.start ma)
          (ChunkSide.start mb) true
        refine ⟨r, ?_, ?_⟩
        · rwa [if_neg (not_not.2 hsize)]
        · rwa [if_neg (not_not.2 hsize.symm), Nat.add_comm mb.chunks.length]
      · refine ⟨false, ?_, ?_⟩
        · rw [if_pos hsize]
          exact decided_pure _
        · rw [if_pos (Ne.symm hsize)]
          exact decided_pure _
    | _ => exact hpieces
  | _ =>
    cases objB with
    | _ => exact hpieces

/-- Comparing contents decides the same in both directions. -/
theorem decided_contentEq (a b : Hash) :
    ∃ r, Decided io w (contentEq io a b) r ∧ Decided io w (contentEq io b a) r := by
  by_cases hab : a = b
  · refine ⟨true, ?_, ?_⟩
    · rw [contentEq, if_pos hab]
      exact decided_pure _
    · rw [contentEq, if_pos hab.symm]
      exact decided_pure _
  · obtain ⟨objA, hA⟩ := decided_readObject io w a
    obtain ⟨objB, hB⟩ := decided_readObject io w b
    obtain ⟨r, hr, hr'⟩ := decided_compareObjects io w objA objB
    refine ⟨r, ?_, ?_⟩
    · rw [contentEq, if_neg hab]
      exact hA.bind (hB.bind hr)
    · rw [contentEq, if_neg (Ne.symm hab)]
      exact hB.bind (hA.bind hr')

/-- Comparing entries decides the same in both directions. -/
theorem decided_hashAndModeEq (a b : TreeEntry) :
    ∃ r, Decided io w (hashAndModeEq io a b) r ∧ Decided io w (hashAndModeEq io b a) r := by
  rw [hashAndModeEq, hashAndModeEq]
  by_cases hmode : a.mode = b.mode
  · rw [if_pos hmode, if_pos hmode.symm]
    by_cases hhash : a.object_hash = b.object_hash
    · rw [if_pos hhash, if_pos hhash.symm]
      exact ⟨true, decided_pure _, decided_pure _⟩
    · rw [if_neg hhash, if_neg (Ne.symm hhash), hmode]
      split
      · exact decided_contentEq io w _ _
      · exact ⟨false, decided_pure _, decided_pure _⟩
  · rw [if_neg hmode, if_neg (Ne.symm hmode)]
    exact ⟨false, decided_pure _, decided_pure _⟩

theorem decided_loadEntries (root : Option Hash) :
    ∃ entries, Decided io w (loadEntries io root) entries := by
  cases root with
  | none => exact ⟨_, decided_pure _⟩
  | some h =>
    obtain ⟨o, ho⟩ := decided_readObject io w h
    cases o with
    | tree t => exact ⟨_, ho.bind (decided_pure _)⟩
    | _ => exact ⟨[], ho.bind (decided_throw _ _)⟩

theorem decided_singleBlobBytes (h : Hash) : ∃ data, Decided io w (singleBlobBytes io h) data := by
  obtain ⟨o, ho⟩ := decided_readObject io w h
  cases o with
  | blob b => exact ⟨_, ho.bind (decided_pure _)⟩
  | _ => exact ⟨_, ho.bind (decided_pure _)⟩

end Decided

/-! ### The store grows -/

section Growth

variable {σ : Type} {io : SourceSink σ} {α : Type}

/-- Nothing that was stored is gone. -/
def Grows (io : SourceSink σ) (s s' : σ) : Prop := Extends (io.view s) (io.view s')

instance : Std.Refl (Grows io) := ⟨fun _ => Extends.refl _⟩

instance : IsTrans σ (Grows io) := ⟨fun _ _ _ h h' => Extends.trans h h'⟩

/-- A computation that only reads leaves the store as it is. -/
theorem along_of_decided {x : StoreM σ α} (h : ∀ w, ∃ a, Decided io w x a) :
    Along (Grows io) x := by
  intro s b s' hy
  obtain ⟨a, ha⟩ := h (io.view s)
  obtain ⟨-, hkeep⟩ := ha s b s' (.refl _) hy
  rw [Grows, hkeep]
  exact .refl _

theorem along_loadEntries (root : Option Hash) : Along (Grows io) (loadEntries io root) :=
  along_of_decided fun w => decided_loadEntries io w root

theorem along_putObject (o : Object) : Along (Grows io) (putObject io o) :=
  fun _ _ _ hy => (yields_putObject hy).2

variable {mergeBlob3way : Bytes → Bytes → Bytes → Option Bytes}

theorem along_tryTextMerge (b o t : Hash) :
    Along (Grows io) (tryTextMerge io mergeBlob3way b o t) := by
  refine (along_of_decided fun w => decided_singleBlobBytes io w b).bind fun base =>
    (along_of_decided fun w => decided_singleBlobBytes io w o).bind fun ours =>
    (along_of_decided fun w => decided_singleBlobBytes io w t).bind fun theirs => ?_
  rw [putTextMerge.eq_def]
  split
  · split
    · exact (along_putObject _).bind fun h => along_pure _
    · exact along_pure _
  · exact along_pure _

theorem along_mergeModified (dir : Bytes) (row : MergeRow) (b o t : TreeEntry) :
    Along (Grows io) (mergeModified io mergeBlob3way dir row b o t) := by
  refine Along.ite ((along_tryTextMerge _ _ _).bind fun merged => ?_) (along_pure _)
  cases merged <;> exact along_pure _

end Growth

/-! ### Decisions -/

/-- What is done about a row. -/
inductive Decision where
  | keep (e : TreeEntry)
  | drop
  | descend (base ours theirs : Option Hash)
  | modified (base ours theirs : TreeEntry)
  | conflict (kind : ConflictKind) (kept : TreeEntry)

/-- The decision about a row, by which of its entries compare equal. -/
def decision (bEqO bEqT oEqT : Bool) (row : MergeRow) : Decision :=
  match row.first, row.second, row.third with
  | some b, some o, some t =>
    if bEqO && bEqT then .keep b
    else if bEqT && !bEqO then
      if b.mode = .tree ∧ o.mode = .tree then
        .descend (some b.object_hash) (some o.object_hash) (some b.object_hash)
      else .keep o
    else if bEqO && !bEqT then
      if b.mode = .tree ∧ t.mode = .tree then
        .descend (some b.object_hash) (some b.object_hash) (some t.object_hash)
      else .keep t
    else if oEqT then
      if b.mode = .tree ∧ o.mode = .tree then
        .descend (some b.object_hash) (some o.object_hash) (some t.object_hash)
      else .keep o
    else if b.mode = .tree ∧ o.mode = .tree ∧ t.mode = .tree then
      .descend (some b.object_hash) (some o.object_hash) (some t.object_hash)
    else .modified b o t
  | none, some o, none => .keep o
  | none, none, some t => .keep t
  | none, some o, some t =>
    if oEqT then .keep o
    else if o.mode = .tree ∧ t.mode = .tree then
      .descend none (some o.object_hash) (some t.object_hash)
    else .conflict .addAdd o
  | some _, some o, none => if bEqO then .drop else .conflict .deleteModify o
  | some _, none, some t => if bEqT then .drop else .conflict .deleteModify t
  | some _, none, none => .drop
  | none, none, none => .drop

/-- Two decisions that mirror each other, where `same` entries are kept. -/
inductive Decision.Mirror (same : TreeEntry → TreeEntry → Prop) : Decision → Decision → Prop
  | keep (e : TreeEntry) : Mirror same (.keep e) (.keep e)
  | kept {o t : TreeEntry} (h : same o t) : Mirror same (.keep o) (.keep t)
  | drop : Mirror same .drop .drop
  | descend (b o t : Option Hash) : Mirror same (.descend b o t) (.descend b t o)
  | modified (b o t : TreeEntry) : Mirror same (.modified b o t) (.modified b t o)
  | conflict (kind : ConflictKind) (e e' : TreeEntry) :
      Mirror same (.conflict kind e) (.conflict kind e')

/-- The decisions about a row and about its mirror image. -/
theorem mirror_decision {same : TreeEntry → TreeEntry → Prop}
    (hmode : ∀ o t, same o t → o.mode = t.mode) {row : MergeRow} {bEqO bEqT oEqT : Bool}
    (hsame : ∀ o t, row.second = some o → row.third = some t → oEqT = true → same o t) :
    Decision.Mirror same (decision bEqO bEqT oEqT row) (decision bEqT bEqO oEqT row.swap) := by
  obtain ⟨key, first, second, third⟩ := row
  rcases first with _ | b <;> rcases second with _ | o <;> rcases third with _ | t
  · exact .drop
  · exact .keep t
  · exact .keep o
  · -- Both sides added the name.
    dsimp only [decision, Row.swap]
    cases oEqT with
    | true => exact .kept (hsame o t rfl rfl rfl)
    | false =>
      by_cases htrees : o.mode = .tree ∧ t.mode = .tree
      · simp only [htrees, and_self]
        exact .descend _ _ _
      · have htrees' : ¬ (t.mode = .tree ∧ o.mode = .tree) := fun h => htrees h.symm
        simp only [htrees, htrees']
        exact .conflict _ _ _
  · exact .drop
  · dsimp only [decision, Row.swap]
    cases bEqT with
    | true => exact .drop
    | false => exact .conflict _ _ _
  · dsimp only [decision, Row.swap]
    cases bEqO with
    | true => exact .drop
    | false => exact .conflict _ _ _
  · dsimp only [decision, Row.swap]
    cases bEqO with
    | true =>
      cases bEqT with
      | true => exact .keep b
      | false =>
        -- Ours unchanged, theirs changed.
        by_cases htrees : b.mode = .tree ∧ t.mode = .tree
        · simp only [htrees, and_self]
          exact .descend _ _ _
        · simp only [htrees]
          exact .keep t
    | false =>
      cases bEqT with
      | true =>
        by_cases htrees : b.mode = .tree ∧ o.mode = .tree
        · simp only [htrees, and_self]
          exact .descend _ _ _
        · simp only [htrees]
          exact .keep o
      | false =>
        cases oEqT with
        | true =>
          -- Both changed the same way.
          have hot := hsame o t rfl rfl rfl
          rw [hmode o t hot]
          by_cases htrees : b.mode = .tree ∧ t.mode = .tree
          · simp only [htrees, and_self]
            exact .descend _ _ _
          · simp only [htrees]
            exact .kept hot
        | false =>
          simp only [and_comm (a := t.mode = .tree)]
          by_cases htrees : b.mode = .tree ∧ o.mode = .tree ∧ t.mode = .tree
          · simp only [htrees, and_self]
            exact .descend _ _ _
          · simp only [htrees]
            exact .modified _ _ _

section Symmetry

variable {σ : Type} {io : SourceSink σ} {mergeBlob3way : Bytes → Bytes → Bytes → Option Bytes}

variable (io mergeBlob3way) in
/-- Carry a decision out. -/
def Decision.run (recurse : Option Hash → Option Hash → Option Hash → Bytes → StoreM σ Outcome)
    (dir : Bytes) (row : MergeRow) : Decision → StoreM σ Outcome
  | .keep e => Mkit.keep e
  | .drop => pure (none, [])
  | .descend base ours theirs => recurse base ours theirs row.key
  | .modified b o t => mergeModified io mergeBlob3way dir row b o t
  | .conflict kind kept => Mkit.conflict dir kind row kept

/-- The comparisons of a row, as `w` fixes them. -/
structure Compared (io : SourceSink σ) (w : View) (row : MergeRow) (bEqO bEqT oEqT : Bool) :
    Prop where
  bo : ∀ b o, row.first = some b → row.second = some o →
    Decided io w (hashAndModeEq io b o) bEqO
  bt : ∀ b t, row.first = some b → row.third = some t →
    Decided io w (hashAndModeEq io b t) bEqT
  ot : ∀ o t, row.second = some o → row.third = some t →
    Decided io w (hashAndModeEq io o t) oEqT

/-- A row and its mirror image compare alike. -/
theorem exists_compared (io : SourceSink σ) (w : View) (row : MergeRow) :
    ∃ bEqO bEqT oEqT, Compared io w row bEqO bEqT oEqT ∧
      Compared io w row.swap bEqT bEqO oEqT := by
  have hcompare : ∀ x y : Option TreeEntry, ∃ r, ∀ a b, x = some a → y = some b →
      Decided io w (hashAndModeEq io a b) r ∧ Decided io w (hashAndModeEq io b a) r := by
    intro x y
    cases x with
    | none => exact ⟨true, fun _ _ h => nomatch h⟩
    | some a =>
      cases y with
      | none => exact ⟨true, fun _ _ _ h => nomatch h⟩
      | some b =>
        obtain ⟨r, hr⟩ := decided_hashAndModeEq io w a b
        refine ⟨r, fun a' b' ha hb => ?_⟩
        obtain rfl := Option.some.inj ha
        obtain rfl := Option.some.inj hb
        exact hr
  obtain ⟨bEqO, hbo⟩ := hcompare row.first row.second
  obtain ⟨bEqT, hbt⟩ := hcompare row.first row.third
  obtain ⟨oEqT, hot⟩ := hcompare row.second row.third
  exact ⟨bEqO, bEqT, oEqT,
    ⟨fun b o hb ho => (hbo b o hb ho).1, fun b t hb ht => (hbt b t hb ht).1,
      fun o t ho ht => (hot o t ho ht).1⟩,
    ⟨fun b t hb ht => (hbt b t hb ht).1, fun b o hb ho => (hbo b o hb ho).1,
      fun t o ht ho => (hot o t ho ht).2⟩⟩

variable {w : View} {recurse : Option Hash → Option Hash → Option Hash → Bytes → StoreM σ Outcome}
  {dir : Bytes} {row : MergeRow} {s s' : σ} {out : Outcome}

/-- A row is merged by comparing its entries and carrying out the decision. The two sides are
compared whenever both have the name. -/
theorem yields_mergeRow_decision {bEqO bEqT oEqT : Bool}
    (hc : Compared io w row bEqO bEqT oEqT) (hs : Extends (io.view s) w)
    (hy : Yields (mergeRow io mergeBlob3way recurse dir row) s out s') :
    ∃ s₁, io.view s₁ = io.view s ∧
      Yields ((decision bEqO bEqT oEqT row).run io mergeBlob3way recurse dir row) s₁ out s' ∧
      ∀ o t, row.second = some o → row.third = some t →
        ∃ s₂ s₃, io.view s₂ = io.view s ∧ Yields (hashAndModeEq io o t) s₂ oEqT s₃ := by
  have hite := fun (c : Prop) [Decidable c] (x y : Decision) =>
    apply_ite (Decision.run io mergeBlob3way recurse dir row) c x y
  obtain ⟨key, first, second, third⟩ := row
  rw [mergeRow] at hy
  cases first with
  | none =>
    cases second with
    | none => cases third <;> exact ⟨s, rfl, hy, by rintro _ _ ⟨⟩⟩
    | some o =>
      cases third with
      | none => exact ⟨s, rfl, hy, by rintro _ _ _ ⟨⟩⟩
      | some t =>
        obtain ⟨_, s₁, h₁, hy⟩ := yields_bind.1 hy
        obtain ⟨rfl, hkeep⟩ := hc.ot o t rfl rfl s _ s₁ hs h₁
        refine ⟨s₁, hkeep, ?_, fun o' t' ho ht => ?_⟩
        · simp only [decision, hite]
          exact hy
        · obtain rfl := Option.some.inj ho
          obtain rfl := Option.some.inj ht
          exact ⟨s, s₁, rfl, h₁⟩
  | some b =>
    cases second with
    | none =>
      cases third with
      | none => exact ⟨s, rfl, hy, by rintro _ _ ⟨⟩⟩
      | some t =>
        obtain ⟨_, s₁, h₁, hy⟩ := yields_bind.1 hy
        obtain ⟨rfl, hkeep⟩ := hc.bt b t rfl rfl s _ s₁ hs h₁
        refine ⟨s₁, hkeep, ?_, by rintro _ _ ⟨⟩⟩
        simp only [decision, hite]
        exact hy
    | some o =>
      cases third with
      | none =>
        obtain ⟨_, s₁, h₁, hy⟩ := yields_bind.1 hy
        obtain ⟨rfl, hkeep⟩ := hc.bo b o rfl rfl s _ s₁ hs h₁
        refine ⟨s₁, hkeep, ?_, by rintro _ _ _ ⟨⟩⟩
        simp only [decision, hite]
        exact hy
      | some t =>
        obtain ⟨_, s₁, h₁, hy⟩ := yields_bind.1 hy
        obtain ⟨rfl, hkeep₁⟩ := hc.bo b o rfl rfl s _ s₁ hs h₁
        obtain ⟨_, s₂, h₂, hy⟩ := yields_bind.1 hy
        obtain ⟨rfl, hkeep₂⟩ := hc.bt b t rfl rfl s₁ _ s₂ (hkeep₁ ▸ hs) h₂
        obtain ⟨_, s₃, h₃, hy⟩ := yields_bind.1 hy
        obtain ⟨rfl, hkeep₃⟩ := hc.ot o t rfl rfl s₂ _ s₃ (hkeep₂ ▸ hkeep₁ ▸ hs) h₃
        refine ⟨s₃, hkeep₃.trans (hkeep₂.trans hkeep₁), ?_, fun o' t' ho ht => ?_⟩
        · simp only [decision, hite]
          exact hy
        · obtain rfl := Option.some.inj ho
          obtain rfl := Option.some.inj ht
          exact ⟨s₂, s₃, hkeep₂.trans hkeep₁, h₃⟩

/-! ### The merge grows the store -/

theorem along_run (hrec : ∀ b o t, Along (Grows io) (recurse b o t row.key)) (d : Decision) :
    Along (Grows io) (d.run io mergeBlob3way recurse dir row) := by
  cases d with
  | keep e => exact along_pure _
  | drop => exact along_pure _
  | descend b o t => exact hrec b o t
  | modified b o t => exact along_mergeModified dir row b o t
  | conflict kind kept => exact along_pure _

theorem along_mergeRow (hrec : ∀ b o t, Along (Grows io) (recurse b o t row.key)) :
    Along (Grows io) (mergeRow io mergeBlob3way recurse dir row) := by
  intro s out s' hy
  obtain ⟨_, _, _, hc, -⟩ := exists_compared io (io.view s) row
  obtain ⟨s₁, hkeep, hrun, -⟩ := yields_mergeRow_decision hc (.refl _) hy
  have := along_run hrec _ s₁ out s' hrun
  rwa [Grows, hkeep] at this

theorem along_mergeRows {step : MergeRow → StoreM σ Outcome}
    (hstep : ∀ row, Along (Grows io) (step row)) (rs : List MergeRow) :
    Along (Grows io) (mergeRows step rs) := by
  induction rs with
  | nil => exact along_pure _
  | cons row rs ih => exact (hstep row).bind fun _ => ih.bind fun _ => along_pure _

theorem along_recurseSubtreeMerge {merge : Bytes → List TreeEntry → List TreeEntry →
      List TreeEntry → StoreM σ (List TreeEntry × List Conflict)}
    (hmerge : ∀ dir bs os ts, Along (Grows io) (merge dir bs os ts)) (dir : Bytes)
    (base ours theirs : Option Hash) (name : Bytes) :
    Along (Grows io) (recurseSubtreeMerge io merge dir base ours theirs name) :=
  (along_loadEntries base).bind fun _ => (along_loadEntries ours).bind fun _ =>
    (along_loadEntries theirs).bind fun _ => (hmerge _ _ _ _).bind fun _ =>
      (along_putObject _).bind fun _ => along_pure _

theorem along_mergeEntriesRecursive (room : ℕ) (dir : Bytes) (bs os ts : List TreeEntry) :
    Along (Grows io) (mergeEntriesRecursive io mergeBlob3way room dir bs os ts) := by
  induction room generalizing dir bs os ts with
  | zero => exact along_throw _
  | succ room ih =>
    exact along_mergeRows (fun row => along_mergeRow fun b o t =>
      along_recurseSubtreeMerge ih dir b o t row.key) _

end Symmetry

/-! ### Trees that are the same up to equal files -/

section SameTree

variable {σ : Type} (io : SourceSink σ) (id : Bytes → Hash) (v₀ v₁ v₂ : View)

/-- A comparison of contents, on a store that holds `v₀`, finds no difference. -/
def ContentEqual (a b : Hash) : Prop :=
  ∃ s s', Extends v₀ (io.view s) ∧ Yields (contentEq io a b) s true s'

/-- The entries of two trees, stored in `v₁` and `v₂`, are the same but for the objects of files
whose contents compare equal. Directories that differ in such files are stored under the ids of
their bytes. -/
inductive SameTree : List TreeEntry → List TreeEntry → Prop
  | nil : SameTree [] []
  | same (e : TreeEntry) {es es' : List TreeEntry} (h : SameTree es es') :
      SameTree (e :: es) (e :: es')
  | file {name : Bytes} {mode : EntryMode} {a b : Hash} (hmode : mode ≠ .tree)
      (hcontent : ContentEqual io v₀ a b) {es es' : List TreeEntry} (h : SameTree es es') :
      SameTree (⟨name, mode, a⟩ :: es) (⟨name, mode, b⟩ :: es')
  | directory {name bytes bytes' : Bytes} {sub sub' : List TreeEntry}
      (hsub : v₁ (id bytes) = some (.tree ⟨sub⟩)) (hbytes : serialize (.tree ⟨sub⟩) = .ok bytes)
      (hsub' : v₂ (id bytes') = some (.tree ⟨sub'⟩))
      (hbytes' : serialize (.tree ⟨sub'⟩) = .ok bytes') (hs : SameTree sub sub')
      {es es' : List TreeEntry} (h : SameTree es es') :
      SameTree (⟨name, .tree, id bytes⟩ :: es) (⟨name, .tree, id bytes'⟩ :: es')

variable {io id v₀ v₁ v₂}

theorem SameTree.append {es es' fs fs' : List TreeEntry} (h : SameTree io id v₀ v₁ v₂ es es')
    (h' : SameTree io id v₀ v₁ v₂ fs fs') : SameTree io id v₀ v₁ v₂ (es ++ fs) (es' ++ fs') := by
  induction h with
  | nil => exact h'
  | same e _ ih => exact .same e ih
  | file hmode hcontent _ ih => exact .file hmode hcontent ih
  | directory hsub hbytes hsub' hbytes' hs _ _ ih =>
    exact .directory hsub hbytes hsub' hbytes' hs ih

/-- Where only equal ids compare equal the trees are the same. -/
theorem SameTree.eq {es es' : List TreeEntry} (h : SameTree io id v₀ v₁ v₂ es es')
    (hid : ∀ a b, ContentEqual io v₀ a b → a = b) : es = es' := by
  induction h with
  | nil => rfl
  | same e _ ih => rw [ih]
  | file hmode hcontent _ ih => rw [hid _ _ hcontent, ih]
  | directory hsub hbytes hsub' hbytes' _ _ ihs ih =>
    rw [ihs, hbytes'] at hbytes
    rw [ih, Except.ok.inj hbytes]

end SameTree

/-! ### Two merges side by side -/

/-- A conflict with its sides exchanged. -/
def Conflict.swap (c : Conflict) : Conflict where
  path := c.path
  kind := c.kind
  base_hash := c.base_hash
  ours_hash := c.theirs_hash
  theirs_hash := c.ours_hash
  ours_mode := c.theirs_mode
  theirs_mode := c.ours_mode

/-- Two merges with their sides exchanged: the store that the first one starts from, those that
the two end with, and what these hold together. -/
structure TwoMerges (σ : Type) where
  io : SourceSink σ
  mergeBlob3way : Bytes → Bytes → Bytes → Option Bytes
  id : Bytes → Hash
  start : View
  first : View
  second : View
  joint : View
  merge_comm : ∀ base ours theirs,
    mergeBlob3way base ours theirs = mergeBlob3way base theirs ours
  id_of_put : ∀ {bytes s h s'}, Yields (io.put bytes) s h s' → h = id bytes
  first_le : Extends first joint
  second_le : Extends second joint

namespace TwoMerges

variable {σ : Type} (m : TwoMerges σ)

/-- What two merges return mirrors each other. -/
structure Mirrored (out out' : List TreeEntry × List Conflict) : Prop where
  conflicts_eq : out'.2 = out.2.map Conflict.swap
  same : out.2 = [] → SameTree m.io m.id m.start m.first m.second out.1 out'.1

/-- Two computations return what mirrors each other, as `f` reads it. -/
def Mirrors {α : Type} (f : α → List TreeEntry × List Conflict) (x x' : StoreM σ α) : Prop :=
  ∀ s out s' t out' t', Yields x s out s' → Yields x' t out' t' →
    Extends m.start (m.io.view s) → Extends (m.io.view s') m.first →
    Extends (m.io.view t') m.second → m.Mirrored (f out) (f out')

/-- The outcome of a name as lists. -/
def lists (out : Outcome) : List TreeEntry × List Conflict := (out.1.toList, out.2)

variable {m}

/-- Entries under one name that the merge takes for the same. -/
structure SameEntry (m : TwoMerges σ) (o t : TreeEntry) : Prop where
  name_eq : o.name = t.name
  mode_eq : o.mode = t.mode
  same : o.object_hash = t.object_hash ∨
    o.mode ≠ .tree ∧ ContentEqual m.io m.start o.object_hash t.object_hash

theorem SameEntry.sameTree {o t : TreeEntry} (h : SameEntry m o t) :
    SameTree m.io m.id m.start m.first m.second [o] [t] := by
  obtain ⟨name, mode, a⟩ := o
  obtain ⟨name', mode', b⟩ := t
  obtain ⟨rfl, rfl, rfl | ⟨hmode, hcontent⟩⟩ := h
  · exact .same _ .nil
  · exact .file hmode hcontent .nil

/-- Entries that were compared and found equal. -/
theorem sameEntry_of_yields {o t : TreeEntry} {s s' : σ} (hname : o.name = t.name)
    (hy : Yields (hashAndModeEq m.io o t) s true s') (hs : Extends m.start (m.io.view s)) :
    SameEntry m o t := by
  rw [hashAndModeEq] at hy
  split at hy
  case isFalse => exact absurd (yields_pure.1 hy).1 Bool.false_ne_true
  case isTrue hmode =>
    refine ⟨hname, hmode, ?_⟩
    split at hy
    case isTrue hhash => exact .inl hhash
    case isFalse =>
      split at hy
      case isTrue hfile => exact .inr ⟨hfile, s, s', hs, hy⟩
      case isFalse => exact absurd (yields_pure.1 hy).1 Bool.false_ne_true

theorem mirrored_pure {out out' : Outcome} (h : m.Mirrored (lists out) (lists out')) :
    m.Mirrors lists (pure out) (pure out') := by
  intro s b s' t b' t' hy hy' _ _ _
  obtain ⟨rfl, -⟩ := yields_pure.1 hy
  obtain ⟨rfl, -⟩ := yields_pure.1 hy'
  exact h

variable {dir : Bytes} {row : MergeRow}

/-- A conflict is reported by both. -/
theorem mirrors_conflict (kind : ConflictKind) (kept kept' : TreeEntry) :
    m.Mirrors lists (conflict dir kind row kept) (conflict dir kind row.swap kept') :=
  mirrored_pure ⟨rfl, fun h => nomatch h⟩

theorem mirrors_keep {o t : TreeEntry} (h : SameTree m.io m.id m.start m.first m.second [o] [t]) :
    m.Mirrors lists (keep o) (keep t) :=
  mirrored_pure ⟨rfl, fun _ => h⟩

/-- What is put is stored under the id of its bytes. -/
theorem yields_putObject_id {o : Object} {s s' : σ} {h : Hash}
    (hy : Yields (putObject m.io o) s h s') : ∃ bytes, serialize o = .ok bytes ∧ h = m.id bytes := by
  obtain ⟨bytes, s₁, hser, hput⟩ := yields_bind.1 hy
  obtain ⟨hser, rfl⟩ := yields_liftExcept.1 hser
  refine ⟨bytes, ?_, m.id_of_put hput⟩
  cases hs : serialize o with
  | error e => simp [hs, Except.mapError] at hser
  | ok bs => simpa [hs, Except.mapError] using hser

/-- Both merge a file by lines, into the same object, or neither does. -/
theorem tryTextMerge_swap {b o t : Hash} {s s' u u' : σ} {r r' : Option Hash}
    (hy : Yields (tryTextMerge m.io m.mergeBlob3way b o t) s r s')
    (hy' : Yields (tryTextMerge m.io m.mergeBlob3way b t o) u r' u')
    (hs : Extends (m.io.view s) m.joint) (hu : Extends (m.io.view u) m.joint) : r' = r := by
  obtain ⟨x₀, hx⟩ := decided_singleBlobBytes m.io m.joint b
  obtain ⟨y₀, hy₀⟩ := decided_singleBlobBytes m.io m.joint o
  obtain ⟨z₀, hz⟩ := decided_singleBlobBytes m.io m.joint t
  obtain ⟨x₁, s₁, h₁, hy⟩ := yields_bind.1 hy
  obtain ⟨rfl, hkeep₁⟩ := hx _ _ _ hs h₁
  obtain ⟨y₁, s₂, h₂, hy⟩ := yields_bind.1 hy
  obtain ⟨rfl, hkeep₂⟩ := hy₀ _ _ _ (hkeep₁ ▸ hs) h₂
  obtain ⟨z₁, s₃, h₃, hy⟩ := yields_bind.1 hy
  obtain ⟨rfl, -⟩ := hz _ _ _ (hkeep₂ ▸ hkeep₁ ▸ hs) h₃
  obtain ⟨x, u₁, k₁, hy'⟩ := yields_bind.1 hy'
  obtain ⟨rfl, hkeep₁'⟩ := hx _ _ _ hu k₁
  obtain ⟨z, u₂, k₂, hy'⟩ := yields_bind.1 hy'
  obtain ⟨rfl, hkeep₂'⟩ := hz _ _ _ (hkeep₁' ▸ hu) k₂
  obtain ⟨y, u₃, k₃, hy'⟩ := yields_bind.1 hy'
  obtain ⟨rfl, -⟩ := hy₀ _ _ _ (hkeep₂' ▸ hkeep₁' ▸ hu) k₃
  rcases x with _ | x <;> rcases y with _ | y <;> rcases z with _ | z
  all_goals try exact (yields_pure.1 hy').1.symm.trans (yields_pure.1 hy).1
  rw [putTextMerge] at hy hy'
  rw [m.merge_comm x z y] at hy'
  cases hm : m.mergeBlob3way x y z with
  | none =>
    rw [hm] at hy hy'
    exact (yields_pure.1 hy').1.symm.trans (yields_pure.1 hy).1
  | some merged =>
    rw [hm] at hy hy'
    obtain ⟨h, _, hput, hy⟩ := yields_bind.1 hy
    obtain ⟨h', _, hput', hy'⟩ := yields_bind.1 hy'
    obtain ⟨rfl, -⟩ := yields_pure.1 hy
    obtain ⟨rfl, -⟩ := yields_pure.1 hy'
    obtain ⟨bytes, hbytes, rfl⟩ := yields_putObject_id hput
    obtain ⟨bytes', hbytes', rfl⟩ := yields_putObject_id hput'
    rw [hbytes] at hbytes'
    rw [Except.ok.inj hbytes']

/-- A file that both sides changed. -/
theorem mirrors_mergeModified (b o t : TreeEntry) :
    m.Mirrors lists (mergeModified m.io m.mergeBlob3way dir row b o t)
      (mergeModified m.io m.mergeBlob3way dir row.swap b t o) := by
  by_cases hmode : o.mode = t.mode ∧ (o.mode = .blob ∨ o.mode = .executable)
  · have hmode' : t.mode = o.mode ∧ (t.mode = .blob ∨ t.mode = .executable) :=
      ⟨hmode.1.symm, hmode.1 ▸ hmode.2⟩
    intro s out s' u out' u' hy hy' hstart hs hu
    rw [mergeModified, if_pos hmode] at hy
    rw [mergeModified, if_pos hmode'] at hy'
    obtain ⟨merged, s₁, htext, hy⟩ := yields_bind.1 hy
    obtain ⟨merged', u₁, htext', hy'⟩ := yields_bind.1 hy'
    have hend : s₁ = s' := by
      cases merged with
      | none => exact (yields_pure.1 hy).2
      | some h => exact (yields_pure.1 hy).2
    have hend' : u₁ = u' := by
      cases merged' with
      | none => exact (yields_pure.1 hy').2
      | some h => exact (yields_pure.1 hy').2
    subst hend hend'
    have hgrow : Extends (m.io.view s) (m.io.view s₁) := along_tryTextMerge _ _ _ _ _ _ htext
    have hgrow' : Extends (m.io.view u) (m.io.view u₁) := along_tryTextMerge _ _ _ _ _ _ htext'
    obtain rfl := tryTextMerge_swap htext htext' (hgrow.trans (hs.trans m.first_le))
      (hgrow'.trans (hu.trans m.second_le))
    cases merged' with
    | none => exact mirrors_conflict _ _ _ _ _ _ _ _ _ hy hy' (hstart.trans hgrow) hs hu
    | some h =>
      refine mirrors_keep ?_ _ _ _ _ _ _ hy hy' (hstart.trans hgrow) hs hu
      rw [hmode'.1]
      exact .same _ .nil
  · have hmode' : ¬ (t.mode = o.mode ∧ (t.mode = .blob ∨ t.mode = .executable)) :=
      fun h => hmode ⟨h.1.symm, h.1 ▸ h.2⟩
    rw [mergeModified, if_neg hmode, mergeModified, if_neg hmode']
    exact mirrors_conflict _ _ _

variable {recurse : Option Hash → Option Hash → Option Hash → Bytes → StoreM σ Outcome}

/-- Decisions that mirror each other are carried out so. -/
theorem mirrors_run {d d' : Decision} (h : Decision.Mirror (SameEntry m) d d')
    (hrec : ∀ b o t name, m.Mirrors lists (recurse b o t name) (recurse b t o name)) :
    m.Mirrors lists (d.run m.io m.mergeBlob3way recurse dir row)
      (d'.run m.io m.mergeBlob3way recurse dir row.swap) := by
  cases h with
  | keep e => exact mirrors_keep (.same _ .nil)
  | kept hsame => exact mirrors_keep hsame.sameTree
  | drop => exact mirrored_pure ⟨rfl, fun _ => .nil⟩
  | descend b o t => exact hrec b o t row.key
  | modified b o t => exact mirrors_mergeModified b o t
  | conflict kind e e' => exact mirrors_conflict kind e e'

/-- A row and its mirror image. -/
theorem mirrors_mergeRow
    (hkey : ∀ e, e ∈ row.first ∨ e ∈ row.second ∨ e ∈ row.third → e.name = row.key)
    (hgrow : ∀ b o t name, Along (Grows m.io) (recurse b o t name))
    (hrec : ∀ b o t name, m.Mirrors lists (recurse b o t name) (recurse b t o name)) :
    m.Mirrors lists (mergeRow m.io m.mergeBlob3way recurse dir row)
      (mergeRow m.io m.mergeBlob3way recurse dir row.swap) := by
  intro s out s' u out' u' hy hy' hstart hs hu
  have hgrew : Extends (m.io.view s) (m.io.view s') :=
    along_mergeRow (fun b o t => hgrow b o t row.key) _ _ _ hy
  have hgrew' : Extends (m.io.view u) (m.io.view u') :=
    along_mergeRow (fun b o t => hgrow b o t row.swap.key) _ _ _ hy'
  -- Both rows compare as the joint view says.
  obtain ⟨_, _, _, hc, hc'⟩ := exists_compared m.io m.joint row
  obtain ⟨s₁, hkeep, hrun, hcompared⟩ :=
    yields_mergeRow_decision hc (hgrew.trans (hs.trans m.first_le)) hy
  obtain ⟨u₁, -, hrun', -⟩ :=
    yields_mergeRow_decision hc' (hgrew'.trans (hu.trans m.second_le)) hy'
  refine mirrors_run (mirror_decision (fun o t h => h.mode_eq) fun o t ho ht heq => ?_) hrec
    _ _ _ _ _ _ hrun hrun' (hkeep ▸ hstart) hs hu
  obtain ⟨s₂, s₃, hview, hcompare⟩ := hcompared o t ho ht
  rw [heq] at hcompare
  exact sameEntry_of_yields ((hkey o (.inr (.inl ho))).trans (hkey t (.inr (.inr ht))).symm)
    hcompare (hview ▸ hstart)

/-- All rows, one after the other. -/
theorem mirrors_mergeRows {step step' : MergeRow → StoreM σ Outcome} {rs : List MergeRow}
    (hgrow : ∀ row, Along (Grows m.io) (step row)) (hgrow' : ∀ row, Along (Grows m.io) (step' row))
    (hstep : ∀ row ∈ rs, m.Mirrors lists (step row) (step' row.swap)) :
    m.Mirrors (fun out => out) (mergeRows step rs) (mergeRows step' (rs.map Row.swap)) := by
  induction rs with
  | nil =>
    intro s out s' u out' u' hy hy' _ _ _
    obtain ⟨rfl, -⟩ := yields_pure.1 hy
    obtain ⟨rfl, -⟩ := yields_pure.1 hy'
    exact ⟨rfl, fun _ => .nil⟩
  | cons row rs ih =>
    intro s out s' u out' u' hy hy' hstart hs hu
    obtain ⟨one, s₁, hrow, hy⟩ := yields_bind.1 hy
    obtain ⟨more, s₂, hrest, hy⟩ := yields_bind.1 hy
    obtain ⟨rfl, rfl⟩ := yields_pure.1 hy
    obtain ⟨one', u₁, hrow', hy'⟩ := yields_bind.1 hy'
    obtain ⟨more', u₂, hrest', hy'⟩ := yields_bind.1 hy'
    obtain ⟨rfl, rfl⟩ := yields_pure.1 hy'
    have hlater : Extends (m.io.view s₁) (m.io.view s₂) := along_mergeRows hgrow rs _ _ _ hrest
    have hlater' : Extends (m.io.view u₁) (m.io.view u₂) :=
      along_mergeRows hgrow' _ _ _ _ hrest'
    have hone := hstep row List.mem_cons_self s one s₁ u one' u₁ hrow hrow' hstart
      (hlater.trans hs) (hlater'.trans hu)
    have hmore := ih (fun r hr => hstep r (List.mem_cons_of_mem row hr)) s₁ more s₂ u₁ more' u₂
      hrest hrest' (hstart.trans (hgrow row _ _ _ hrow)) hs hu
    refine ⟨?_, fun hnone => ?_⟩
    · change one'.2 ++ more'.2 = (one.2 ++ more.2).map Conflict.swap
      rw [List.map_append, ← hmore.conflicts_eq]
      exact congrArg (· ++ more'.2) hone.conflicts_eq
    · obtain ⟨hnone₁, hnone₂⟩ := List.append_eq_nil_iff.1 hnone
      exact (hone.same hnone₁).append (hmore.same hnone₂)

variable {merge : Bytes → List TreeEntry → List TreeEntry → List TreeEntry →
  StoreM σ (List TreeEntry × List Conflict)}

/-- Load three directories, merge them and write the result, from which `k` makes what is
returned. -/
def written {α : Type} (io : SourceSink σ)
    (merge : List TreeEntry → List TreeEntry → List TreeEntry →
      StoreM σ (List TreeEntry × List Conflict)) (k : Hash → List Conflict → α)
    (base ours theirs : Option Hash) : StoreM σ α := do
  let baseEntries ← loadEntries io base
  let oursEntries ← loadEntries io ours
  let theirsEntries ← loadEntries io theirs
  let (sub, conflicts) ← merge baseEntries oursEntries theirsEntries
  let h ← putTree io sub
  pure (k h conflicts)

theorem along_written {α : Type} {merge : List TreeEntry → List TreeEntry → List TreeEntry →
      StoreM σ (List TreeEntry × List Conflict)}
    (hgrow : ∀ bs os ts, Along (Grows m.io) (merge bs os ts)) (k : Hash → List Conflict → α)
    (base ours theirs : Option Hash) : Along (Grows m.io) (written m.io merge k base ours theirs) :=
  (along_loadEntries base).bind fun _ => (along_loadEntries ours).bind fun _ =>
    (along_loadEntries theirs).bind fun _ => (hgrow _ _ _).bind fun _ =>
      (along_putObject _).bind fun _ => along_pure _

/-- Written trees are stored in the end, and what they were written from mirrors each other. -/
theorem mirrored_written {α : Type} {merge : List TreeEntry → List TreeEntry → List TreeEntry →
      StoreM σ (List TreeEntry × List Conflict)} {k : Hash → List Conflict → α}
    (hgrow : ∀ bs os ts, Along (Grows m.io) (merge bs os ts))
    (hmerge : ∀ bs os ts, m.Mirrors (fun out => out) (merge bs os ts) (merge bs ts os))
    {base ours theirs : Option Hash} {s s' u u' : σ} {out out' : α}
    (hy : Yields (written m.io merge k base ours theirs) s out s')
    (hy' : Yields (written m.io merge k base theirs ours) u out' u')
    (hstart : Extends m.start (m.io.view s)) (hs : Extends (m.io.view s') m.first)
    (hu : Extends (m.io.view u') m.second) :
    ∃ sub sub' cs cs' bytes bytes', out = k (m.id bytes) cs ∧ out' = k (m.id bytes') cs' ∧
      m.first (m.id bytes) = some (.tree ⟨sub⟩) ∧ serialize (.tree ⟨sub⟩) = .ok bytes ∧
      m.second (m.id bytes') = some (.tree ⟨sub'⟩) ∧ serialize (.tree ⟨sub'⟩) = .ok bytes' ∧
      m.Mirrored (sub, cs) (sub', cs') := by
  have hgrew : Extends (m.io.view s) (m.io.view s') := along_written hgrow k _ _ _ _ _ _ hy
  have hgrew' : Extends (m.io.view u) (m.io.view u') := along_written hgrow k _ _ _ _ _ _ hy'
  have hjoint := hgrew.trans (hs.trans m.first_le)
  have hjoint' := hgrew'.trans (hu.trans m.second_le)
  obtain ⟨_, hb⟩ := decided_loadEntries m.io m.joint base
  obtain ⟨_, ho⟩ := decided_loadEntries m.io m.joint ours
  obtain ⟨_, ht⟩ := decided_loadEntries m.io m.joint theirs
  obtain ⟨bs, s₁, h₁, hy⟩ := yields_bind.1 hy
  obtain ⟨rfl, hkeep₁⟩ := hb _ _ _ hjoint h₁
  obtain ⟨os, s₂, h₂, hy⟩ := yields_bind.1 hy
  obtain ⟨rfl, hkeep₂⟩ := ho _ _ _ (hkeep₁ ▸ hjoint) h₂
  obtain ⟨ts, s₃, h₃, hy⟩ := yields_bind.1 hy
  obtain ⟨rfl, hkeep₃⟩ := ht _ _ _ (hkeep₂ ▸ hkeep₁ ▸ hjoint) h₃
  obtain ⟨bs, u₁, k₁, hy'⟩ := yields_bind.1 hy'
  obtain ⟨rfl, hkeep₁'⟩ := hb _ _ _ hjoint' k₁
  obtain ⟨ts, u₂, k₂, hy'⟩ := yields_bind.1 hy'
  obtain ⟨rfl, hkeep₂'⟩ := ht _ _ _ (hkeep₁' ▸ hjoint') k₂
  obtain ⟨os, u₃, k₃, hy'⟩ := yields_bind.1 hy'
  obtain ⟨rfl, -⟩ := ho _ _ _ (hkeep₂' ▸ hkeep₁' ▸ hjoint') k₃
  obtain ⟨⟨sub, cs⟩, s₄, hsub, hy⟩ := yields_bind.1 hy
  obtain ⟨h, s₅, hput, hy⟩ := yields_bind.1 hy
  obtain ⟨rfl, rfl⟩ := yields_pure.1 hy
  obtain ⟨⟨sub', cs'⟩, u₄, hsub', hy'⟩ := yields_bind.1 hy'
  obtain ⟨h', u₅, hput', hy'⟩ := yields_bind.1 hy'
  obtain ⟨rfl, rfl⟩ := yields_pure.1 hy'
  obtain ⟨hstored, hlater⟩ := yields_putTree hput
  obtain ⟨hstored', hlater'⟩ := yields_putTree hput'
  obtain ⟨bytes, hbytes, rfl⟩ := yields_putObject_id hput
  obtain ⟨bytes', hbytes', rfl⟩ := yields_putObject_id hput'
  have hkeep : m.io.view s₃ = m.io.view s := hkeep₃.trans (hkeep₂.trans hkeep₁)
  exact ⟨sub, sub', cs, cs', bytes, bytes', rfl, rfl, hs _ _ hstored, hbytes, hu _ _ hstored',
    hbytes', hmerge _ _ _ _ _ _ _ _ _ hsub hsub' (hkeep ▸ hstart) (hlater.trans hs)
      (hlater'.trans hu)⟩

variable {merge : Bytes → List TreeEntry → List TreeEntry → List TreeEntry →
  StoreM σ (List TreeEntry × List Conflict)}

/-- Three directories merged below a name. -/
theorem mirrors_recurseSubtreeMerge
    (hgrow : ∀ dir bs os ts, Along (Grows m.io) (merge dir bs os ts))
    (hmerge : ∀ dir bs os ts, m.Mirrors (fun out => out) (merge dir bs os ts) (merge dir bs ts os))
    (dir : Bytes) (base ours theirs : Option Hash) (name : Bytes) :
    m.Mirrors lists (recurseSubtreeMerge m.io merge dir base ours theirs name)
      (recurseSubtreeMerge m.io merge dir base theirs ours name) := by
  have hwritten : ∀ ours theirs, recurseSubtreeMerge m.io merge dir base ours theirs name =
      written m.io (merge (joinPath dir name)) (fun h cs => (some ⟨name, .tree, h⟩, cs)) base ours
        theirs := fun _ _ => rfl
  intro s out s' u out' u' hy hy' hstart hs hu
  rw [hwritten] at hy hy'
  obtain ⟨sub, sub', cs, cs', bytes, bytes', rfl, rfl, hstored, hbytes, hstored', hbytes',
    hmirror⟩ := mirrored_written (hgrow _) (hmerge _) hy hy' hstart hs hu
  exact ⟨hmirror.conflicts_eq, fun hnone =>
    .directory hstored hbytes hstored' hbytes' (hmirror.same hnone) .nil⟩

/-- All names, at any depth, by induction on the levels left. -/
theorem mirrors_mergeEntriesRecursive (room : ℕ) (dir : Bytes) (bs os ts : List TreeEntry) :
    m.Mirrors (fun out => out) (mergeEntriesRecursive m.io m.mergeBlob3way room dir bs os ts)
      (mergeEntriesRecursive m.io m.mergeBlob3way room dir bs ts os) := by
  induction room generalizing dir bs os ts with
  | zero => exact fun _ _ _ _ _ _ hy => absurd hy yields_throw
  | succ room ih =>
    have hgrow := @along_mergeEntriesRecursive _ m.io m.mergeBlob3way room
    rw [mergeEntriesRecursive, mergeEntriesRecursive, Nat.add_right_comm bs.length ts.length,
      rows_swap TreeEntry.name _ bs os ts]
    refine mirrors_mergeRows (fun row => along_mergeRow fun b o t =>
        along_recurseSubtreeMerge hgrow dir b o t row.key)
      (fun row => along_mergeRow fun b o t => along_recurseSubtreeMerge hgrow dir b o t row.key)
      fun row hrow => ?_
    exact mirrors_mergeRow (fun e he => key_of_mem_rows TreeEntry.name hrow he)
      (along_recurseSubtreeMerge hgrow dir) (mirrors_recurseSubtreeMerge hgrow ih dir)

end TwoMerges

/-- **Exchanging the two sides of a merge.** Two merges that return, each on a store that puts
objects under the ids of their bytes, report the same conflicts with the sides exchanged, as
long as the two stores do not end with different objects under one id. When there are none the
merged trees are the same but for files whose contents compare equal, and have one id when
contents compare equal only under one id. -/
theorem mergeTrees_symmetric {σ : Type} (io : SourceSink σ) (id : Bytes → Hash)
    (hid : ∀ bytes s h s', Yields (io.put bytes) s h s' → h = id bytes)
    (s s' t t' : σ) (base ours theirs : Option Hash) (result result' : MergeResult)
    (hy : Yields (mergeTrees io LineDiff.mergeBlob3way base ours theirs) s result s')
    (hy' : Yields (mergeTrees io LineDiff.mergeBlob3way base theirs ours) t result' t')
    (hagree : ∀ h o o', io.view s' h = some o → io.view t' h = some o' → o = o') :
    result'.conflicts = result.conflicts.map Conflict.swap ∧
      (result'.conflicts = [] ↔ result.conflicts = []) ∧
      (result.conflicts = [] → ∃ merged merged',
        io.view s' result.tree_hash = some (.tree ⟨merged⟩) ∧
        io.view t' result'.tree_hash = some (.tree ⟨merged'⟩) ∧
        SameTree io id (io.view s) (io.view s') (io.view t') merged merged' ∧
        ((∀ a b, ContentEqual io (io.view s) a b → a = b) →
          result'.tree_hash = result.tree_hash)) := by
  let m : TwoMerges σ :=
    { io, id, mergeBlob3way := LineDiff.mergeBlob3way
      start := io.view s, first := io.view s', second := io.view t'
      joint := fun h => (io.view s' h).or (io.view t' h)
      merge_comm := LineDiff.mergeBlob3way_comm
      id_of_put := fun hput => hid _ _ _ _ hput
      first_le := fun h o ho => by
        dsimp only
        rw [ho, Option.some_or]
      second_le := fun h o ho => by
        dsimp only
        cases hfirst : io.view s' h with
        | none => rwa [Option.none_or]
        | some o' => rw [Option.some_or, hagree h o' o hfirst ho] }
  obtain ⟨merged, merged', cs, cs', bytes, bytes', rfl, rfl, hstored, hbytes, hstored', hbytes',
    hmirror⟩ := m.mirrored_written (k := MergeResult.mk)
      (along_mergeEntriesRecursive (MAX_TREE_DEPTH + 1) [])
      (m.mirrors_mergeEntriesRecursive (MAX_TREE_DEPTH + 1) []) hy hy' (.refl _) (.refl _) (.refl _)
  have hconflicts : cs' = cs.map Conflict.swap := hmirror.conflicts_eq
  refine ⟨hconflicts, ?_, fun hnone => ?_⟩
  · dsimp only
    rw [hconflicts, List.map_eq_nil_iff]
  · have hsame : SameTree io id (io.view s) (io.view s') (io.view t') merged merged' :=
      hmirror.same hnone
    refine ⟨merged, merged', hstored, hstored', hsame, fun hequal => ?_⟩
    rw [hsame.eq hequal, hbytes'] at hbytes
    exact congrArg id (Except.ok.inj hbytes)

/-! ### Two merges in memory -/

/-- The store in memory puts objects under their ids. -/
theorem id_of_memoryPut {B : Blake3} {bytes : Bytes} {s s' : MemoryObjects} {h : Hash}
    (hy : Yields (memoryPut B bytes) s h s') : h = (objectIdFromBytes B bytes).getD ZERO := by
  rw [memoryPut, yields_get_bind] at hy
  split at hy
  · rename_i h' o hid hd
    rw [hid, Option.getD_some]
    split at hy
    · rw [yields_set_bind] at hy
      exact (yields_pure.1 hy).1.symm
    · rename_i old hold
      split at hy
      · exact (yields_pure.1 hy).1.symm
      · exact absurd hy yields_throw
  · exact absurd hy yields_throw

/-- Stores with the same bytes under the ids they share have the same objects there. -/
theorem agree_of_entries {s t : MemoryObjects}
    (h : ∀ e ∈ s.entries, ∀ e' ∈ t.entries, e.1 = e'.1 → e.2 = e'.2) (k : Hash) (o o' : Object)
    (ho : s.view k = some o) (ho' : t.view k = some o') : o = o' := by
  obtain ⟨bytes, hbytes, hd⟩ := Option.bind_eq_some_iff.1 ho
  obtain ⟨bytes', hbytes', hd'⟩ := Option.bind_eq_some_iff.1 ho'
  have heq : bytes = bytes' := h ⟨k, bytes⟩ (AList.mem_lookup_iff.1 hbytes) ⟨k, bytes'⟩
    (AList.mem_lookup_iff.1 hbytes') rfl
  rw [heq, hd'] at hd
  exact (Option.some.inj hd).symm

/-- A file below a directory whose first line both sides change. -/
def contestedMemory : MemoryObjects :=
  storedObjects [textFile 49 51, textFile 48 51, textFile 47 51,
    directoryOf (textFile 49 51), directoryOf (textFile 48 51), directoryOf (textFile 47 51),
    treeOfDirectory (textFile 49 51) [], treeOfDirectory (textFile 48 51) [],
    treeOfDirectory (textFile 47 51) []]

/-- The merge of the two changes. -/
def contestedMerge (ours theirs : UInt8) : StoreM MemoryObjects MergeResult :=
  mergeTrees (memorySink toyBlake3) LineDiff.mergeBlob3way
    (some (stored (treeOfDirectory (textFile 49 51) [])).2)
    (some (stored (treeOfDirectory (textFile ours 51) [])).2)
    (some (stored (treeOfDirectory (textFile theirs 51) [])).2)

/-- What it returns: the conflict, with ours kept. -/
def contestedResult (ours theirs : UInt8) : MergeResult where
  tree_hash := (stored (treeOfDirectory (textFile ours 51) [])).2
  conflicts := [{
    path := [100, 47, 102]
    kind := .modifyModify
    base_hash := some (stored (textFile 49 51)).2
    ours_hash := some (stored (textFile ours 51)).2
    theirs_hash := some (stored (textFile theirs 51)).2
    ours_mode := some .blob
    theirs_mode := some .blob }]

theorem yields_contestedMerge {ours theirs : UInt8}
    (h : (exec (contestedMerge ours theirs) contestedMemory).1 = .ok (contestedResult ours theirs)) :
    Yields (contestedMerge ours theirs) contestedMemory (contestedResult ours theirs)
      (exec (contestedMerge ours theirs) contestedMemory).2 := by
  rw [Yields, ← h]

theorem mergeTrees_symmetric_contested : let io := memorySink toyBlake3
    let id := fun bytes => (objectIdFromBytes toyBlake3 bytes).getD ZERO
    let result := contestedResult 48 47
    let result' := contestedResult 47 48
    ∃ s' t', Yields (contestedMerge 48 47) contestedMemory result s' ∧
      Yields (contestedMerge 47 48) contestedMemory result' t' ∧
      result'.conflicts = result.conflicts.map Conflict.swap ∧
      (result'.conflicts = [] ↔ result.conflicts = []) ∧
      (result.conflicts = [] → ∃ merged merged',
        io.view s' result.tree_hash = some (.tree ⟨merged⟩) ∧
        io.view t' result'.tree_hash = some (.tree ⟨merged'⟩) ∧
        SameTree io id (io.view contestedMemory) (io.view s') (io.view t') merged merged' ∧
        ((∀ a b, ContentEqual io (io.view contestedMemory) a b → a = b) →
          result'.tree_hash = result.tree_hash)) := by
  have hy := @yields_contestedMerge 48 47 (by decide +kernel)
  have hy' := @yields_contestedMerge 47 48 (by decide +kernel)
  exact ⟨_, _, hy, hy', mergeTrees_symmetric _ _ (fun _ _ _ _ hput => id_of_memoryPut hput)
    _ _ _ _ _ _ _ _ _ hy hy' (agree_of_entries (by decide +kernel))⟩

end Mkit
