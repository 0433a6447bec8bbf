import Mathlib.Algebra.Order.BigOperators.Group.Finset
import Mathlib.Data.Finset.Sort
import Mkit.DeltaStream
import Mkit.Graph
import Mkit.Lib.Gathering
import Mkit.TreeMerge

/-!
# Planning a Pack

What a push sends (`transfer.rs`, and the encoding of its deltas in `push/mod.rs`): everything
reachable from the new tip and not from the old one. A changed blob goes as a delta against the
blob that was in its place, when that makes it smaller.

The source lets the caller encode the deltas and checks that it got one answer for each candidate.
Every push encodes them with `encodeDeltaCandidatesBatch`, which gives exactly that
(`length_encodeDeltaCandidatesBatch`), so the plan here calls it directly.

`Sends` says what a plan is: every object to be sent goes once, as it is or as a smaller delta.
So it weighs no more than the files of these objects (`Sends.weight_le`).
-/

namespace Mkit

namespace ObjectStore

variable (B : Blake3) (s : ObjectStore)

/-- Read the bytes of an object and check their id. -/
def read (h : Hash) : Except StoreError Bytes := do
  let bytes ← s.readRaw h
  match objectIdFromBytes B bytes with
  | none => .error .panicked
  | some actual =>
    if actual ≠ h then .error (.hashMismatch (toHex h) (toHex actual)) else .ok bytes

/-- The length of an object file, from its metadata. A file that cannot be read has no length
here; nothing asks for the length of a file whose type it could not tell. -/
def objectLen (h : Hash) : Except StoreError ℕ :=
  match s.lookup h with
  | none => .error (.objectNotFound (toHex h))
  | some file =>
    match file.content with
    | none => .error .io
    | some bytes => .ok bytes.length

/-- The length of an object file, zero where it has none. -/
def fileLen (h : Hash) : ℕ :=
  (s.objectLen h).toOption.getD 0

variable {B : Blake3} {s : ObjectStore}

variable {h : Hash}

theorem objectLen_of_content {file : ObjectFile} {bytes : Bytes}
    (hfile : s.lookup h = some file) (hcontent : file.content = some bytes) :
    s.objectLen h = .ok bytes.length := by
  rw [objectLen, hfile]
  dsimp only
  rw [hcontent]

/-- A file whose type could be told has a length. -/
theorem objectLen_of_objectType {ty : ObjectType} (hty : s.objectType h = .ok ty) :
    s.objectLen h = .ok (s.fileLen h) := by
  rw [objectType] at hty
  cases hfile : s.lookup h with
  | none =>
    rw [hfile] at hty
    cases hty
  | some file =>
    rw [hfile] at hty
    dsimp only at hty
    cases hcontent : file.content with
    | none =>
      rw [hcontent] at hty
      cases hty
    | some bytes =>
      rw [fileLen, objectLen_of_content hfile hcontent]
      rfl

/-- What is read is the whole file, and within the size bound. -/
theorem fileLen_of_read {bytes : Bytes} (hread : s.read B h = .ok bytes) :
    s.fileLen h = bytes.length ∧ bytes.length ≤ MAX_RAW_OBJECT_SIZE := by
  rw [read, Wire.bind_eq_ok] at hread
  obtain ⟨raw, hraw, hread⟩ := hread
  obtain rfl : raw = bytes := by
    split at hread
    · cases hread
    · split at hread
      · cases hread
      · exact Except.ok.inj hread
  rw [readRaw] at hraw
  cases hfile : s.lookup h with
  | none =>
    rw [hfile] at hraw
    cases hraw
  | some file =>
    rw [hfile] at hraw
    dsimp only at hraw
    cases hcontent : file.content with
    | none =>
      rw [hcontent] at hraw
      cases hraw
    | some bytes =>
      rw [hcontent] at hraw
      dsimp only at hraw
      rw [fileLen, objectLen_of_content hfile hcontent]
      split at hraw
      · cases hraw
      · rename_i hle
        obtain rfl := Except.ok.inj hraw
        exact ⟨rfl, not_lt.1 hle⟩

end ObjectStore

namespace Transfer

open Gathering Lockstep

variable (B : Blake3) (s : ObjectStore)

/-! ### Pairing what changed -/

/-- Which object a new one is best encoded against. -/
abbrev BaseMap := AList fun _ : Hash => Hash

/-- Pair an object, unless it is paired already. -/
def BaseMap.orInsert (out : BaseMap) (new old : Hash) : BaseMap :=
  if (out.lookup new).isSome then out else out.insert new old

/-- Read an object; a missing one is `none`. -/
def readOptional (h : Hash) : Except StoreError (Option Object) :=
  match s.readObject B h with
  | .ok obj => .ok (some obj)
  | .error (.objectNotFound _) => .ok none
  | .error e => .error e

/-- The tree of a commit or remix. -/
def tipTree (tip : Hash) : Except StoreError (Option Hash) :=
  match s.readObject B tip with
  | .ok (.commit c) => .ok (some c.tree_hash)
  | .ok (.remix r) => .ok (some r.tree_hash)
  | .ok _ => .ok none
  | .error (.objectNotFound _) => .ok none
  | .error e => .error e

/-- Window size of the content sketches. -/
def FEATURE_WINDOW : ℕ := 16

/-- Features kept for each chunk. -/
def FEATURE_COUNT : ℕ := 4

/-- FNV-1a over a window. -/
def fnv1a (block : Bytes) : UInt64 :=
  block.foldl (fun h b => (h ^^^ b.toUInt64) * 0x100000001b3) 0xcbf29ce484222325

/-- The windows of a byte string. -/
def windows (n : ℕ) : Bytes → List Bytes
  | [] => []
  | b :: bytes => if n ≤ bytes.length + 1 then (b :: bytes).take n :: windows n bytes else []

/-- Keep the smallest distinct features, in ascending order. -/
def addFeature (best : List UInt64) (h : UInt64) : List UInt64 :=
  if h ∈ best then best else (best.orderedInsert (· ≤ ·) h).take FEATURE_COUNT

/-- The features of a chunk: the smallest distinct hashes of its windows. -/
def chunkFeatures (bytes : Bytes) : List UInt64 :=
  ((windows FEATURE_WINDOW bytes).map fnv1a).foldl addFeature []

/-- The content of a chunk; none when it is missing or no blob. -/
def chunkBytes (h : Hash) : Except StoreError (Option Bytes) :=
  match s.readObject B h with
  | .ok (.blob b) => .ok (some b.data)
  | .ok _ => .ok none
  | .error (.objectNotFound _) => .ok none
  | .error e => .error e

/-- Every feature of the old chunks, with the chunk it is a feature of. -/
def featureIndex (old_chunks : List Hash) : Except StoreError (List (UInt64 × Hash)) := do
  let features ← old_chunks.mapM fun oc => do
    let content ← chunkBytes B s oc
    pure ((content.elim [] chunkFeatures).map fun f => (f, oc))
  pure features.flatten

/-- One vote for an old chunk by each feature that it shares. -/
def castVotes (index : List (UInt64 × Hash)) (features : List UInt64) : List Hash :=
  features.flatMap fun f => (index.filter fun entry => entry.1 = f).map Prod.snd

/-- The candidate with the most votes, and of several the one with the lowest hash. -/
def mostVotes (votes : List Hash) : List Hash → Option Hash
  | [] => none
  | cand :: cands =>
    match mostVotes votes cands with
    | none => some cand
    | some best =>
      if votes.count best < votes.count cand ∨
          votes.count best = votes.count cand ∧ cand < best then some cand
      else some best

/-- Pair the changed chunks of a file. With equal counts the chunks in the same place belong
together; else those that share most of their content. -/
def pairChunks (new_chunks old_chunks : List Hash) (out : BaseMap) : Except StoreError BaseMap :=
  if old_chunks.isEmpty then .ok out
  else if new_chunks.length = old_chunks.length then
    .ok <| (new_chunks.zip old_chunks).foldl
      (fun out (nj, oj) => if nj ∈ old_chunks then out else out.orInsert nj oj) out
  else do
    let index ← featureIndex B s old_chunks
    new_chunks.foldlM
      (fun out nj =>
        if nj ∈ old_chunks ∨ (out.lookup nj).isSome then pure out
        else do
          match ← chunkBytes B s nj with
          | none => pure out
          | some content =>
            let votes := castVotes index (chunkFeatures content)
            match mostVotes votes (votes.dedup.filter (· ≠ nj)) with
            | none => pure out
            | some base => pure (out.insert nj base))
      out

/-- Pair a changed entry: trees by their entries, chunked blobs by their chunks, blobs with each
other. -/
def pairEntry (pairTrees : Hash → Hash → BaseMap → Except StoreError BaseMap)
    (new_hash old_hash : Hash) (out : BaseMap) : Except StoreError BaseMap :=
  match s.readObject B new_hash, s.readObject B old_hash with
  | .ok (.tree _), .ok (.tree _) => pairTrees new_hash old_hash out
  | .ok (.chunkedBlob new_cb), .ok (.chunkedBlob old_cb) =>
    pairChunks B s new_cb.chunks old_cb.chunks out
  | .ok (.blob _), .ok (.blob _) => .ok (out.orInsert new_hash old_hash)
  | .error (.objectNotFound _), _ => .ok out
  | _, .error (.objectNotFound _) => .ok out
  | .error e, _ => .error e
  | _, .error e => .error e
  | _, _ => .ok out

/-- Pair the entries of two trees that have the same name and not the same content, with so many
levels left. -/
def pairTrees : ℕ → Hash → Hash → BaseMap → Except StoreError BaseMap
  | 0, _, _, out => .ok out
  | room + 1, new_tree, old_tree, out =>
    if new_tree = old_tree then .ok out
    else do
      match ← readOptional B s new_tree, ← readOptional B s old_tree with
      | some (.tree new_t), some (.tree old_t) =>
        (pairs TreeEntry.name (new_t.entries.length + old_t.entries.length) new_t.entries
          old_t.entries).foldlM
          (fun out row =>
            match row with
            | (some ne, some oe) =>
              if ne.object_hash ≠ oe.object_hash then
                pairEntry B s (pairTrees room) ne.object_hash oe.object_hash out
              else pure out
            | _ => pure out)
          out
      | _, _ => pure out

/-- The bases for the blobs of a new tip in the tree of an old one. -/
def selectChunkDeltaBases (new_tip old_tip : Hash) : Except StoreError BaseMap := do
  match ← tipTree B s new_tip, ← tipTree B s old_tip with
  | some new_tree, some old_tree => pairTrees B s (MAX_TREE_DEPTH + 1) new_tree old_tree ∅
  | _, _ => pure ∅

/-! ### Encoding the pairs -/

/-- An object encoded against one the remote holds. -/
structure PlannedDelta where
  target : Hash
  base : Hash
  stream : Bytes
deriving DecidableEq

/-- The payload of a delta entry. -/
def deltaSize (delta : PlannedDelta) : ℕ :=
  HASH_LEN + delta.stream.length

/-- What a push sends, in the order it is packed: non-blobs before blobs, then deltas. -/
structure PackPlan where
  raw : List Hash
  deltas : List PlannedDelta
  self_contained : Bool
deriving DecidableEq

def PackPlan.isEmpty (plan : PackPlan) : Bool :=
  plan.raw.isEmpty && plan.deltas.isEmpty

/-- A blob and the base it may be encoded against. -/
structure DeltaCandidate where
  target : Hash
  base : Hash
deriving DecidableEq

/-- Encode a target, and keep the delta only if it is smaller than the target. -/
def tryDelta (target base : Hash) (target_bytes base_bytes : Bytes) : Option PlannedDelta :=
  match DeltaStream.encode base_bytes target_bytes with
  | .error _ => none
  | .ok stream =>
    if HASH_LEN + stream.length < target_bytes.length then some ⟨target, base, stream⟩ else none

def encodeDeltaCandidate (candidate : DeltaCandidate) :
    Except StoreError (Option PlannedDelta) := do
  let target_bytes ← s.read B candidate.target
  let base_bytes ← s.read B candidate.base
  pure (tryDelta candidate.target candidate.base target_bytes base_bytes)

def encodeDeltaCandidateWithBase (candidate : DeltaCandidate) (base_bytes : Bytes) :
    Except StoreError (Option PlannedDelta) := do
  let target_bytes ← s.read B candidate.target
  pure (tryDelta candidate.target candidate.base target_bytes base_bytes)

/-- Candidates whose bases are cached together. -/
def DELTA_CANDIDATE_BATCH_CAP : ℕ := 64

/-- Most bytes of bases kept at once. -/
def DELTA_BASE_CACHE_BYTES : ℕ := 64 * 1024 * 1024

/-- Read the bases that several candidates share, as far as they fit. -/
def cacheDeltaBases (candidates : List DeltaCandidate) (byte_budget : ℕ) :
    Except StoreError (AList fun _ : Hash => Bytes) := do
  let bases := candidates.map (·.base)
  let (cache, _) ← (ascending bases).foldlM
    (fun (cache, remaining) base =>
      if bases.count base < 2 ∨ remaining = 0 then pure (cache, remaining)
      else do
        let len ← s.objectLen base
        if remaining < len then pure (cache, remaining)
        else do
          let bytes ← s.read B base
          if bytes.length ≤ remaining then
            pure (cache.insert base bytes, remaining - bytes.length)
          else pure (cache, remaining))
    ((∅ : AList fun _ : Hash => Bytes), byte_budget)
  pure cache

/-- One answer for each candidate, in their order. -/
def encodeDeltaCandidatesBatch (candidates : List DeltaCandidate) :
    Except StoreError (List (Option PlannedDelta)) := do
  let results ← (chunks DELTA_CANDIDATE_BATCH_CAP candidates).mapM fun batch => do
    let base_bytes ← cacheDeltaBases B s batch DELTA_BASE_CACHE_BYTES
    batch.mapM fun c =>
      match base_bytes.lookup c.base with
      | some bytes => encodeDeltaCandidateWithBase B s c bytes
      | none => encodeDeltaCandidate B s c
  pure results.flatten

/-! ### The plan -/

/-- Everything reachable from a root; that the cap cut the walk short is not told. -/
def reachableObjects (root : Hash) : Except StoreError (Finset Hash) := do
  let (out, _) ← reachableClosureChecked B s [root]
  pure out

/-- What the remote holds by its tip, the bases that offers, and whether there is such a tip
whose closure is here. -/
def remoteSide (new_tip : Hash) (old_tip : Option Hash) :
    Except StoreError (Finset Hash × BaseMap × Bool) :=
  match old_tip.filter (s.contains ·) with
  | none => .ok (∅, ∅, false)
  | some o =>
    match reachableObjects B s o with
    | .ok remote_set => do
      let base_map ← selectChunkDeltaBases B s new_tip o
      pure (remote_set, base_map, true)
    | .error (.objectNotFound _) => .ok (∅, ∅, false)
    | .error e => .error e

/-- The base of a blob, if the remote holds it. -/
def heldBase (remote_set : Finset Hash) (base_map : BaseMap) (h : Hash) : Option Hash :=
  (base_map.lookup h).filter (· ∈ remote_set)

/-- The blobs to be encoded, each against its base. -/
def candidatesOf (slots : List (Hash × Option Hash)) : List DeltaCandidate :=
  slots.filterMap fun (h, base) => base.map fun base => ⟨h, base⟩

/-- Give every blob with a base its answer: a delta, or the blob as it is. -/
def fillSlots : List (Hash × Option Hash) → List (Option PlannedDelta) →
    List Hash × List PlannedDelta
  | [], _ => ([], [])
  | (h, none) :: slots, results =>
    let (raw, deltas) := fillSlots slots results
    (h :: raw, deltas)
  | (_, some _) :: slots, some planned :: results =>
    let (raw, deltas) := fillSlots slots results
    (raw, planned :: deltas)
  | (h, some _) :: slots, none :: results =>
    let (raw, deltas) := fillSlots slots results
    (h :: raw, deltas)
  | (_, some _) :: _, [] => ([], [])

/-- Plan the pack that takes a remote from one tip to another. -/
def planPackWith (new_tip : Hash) (old_tip : Option Hash) : Except StoreError PackPlan := do
  let new_set ← reachableObjects B s new_tip
  let (remote_set, base_map, have_old) ← remoteSide B s new_tip old_tip
  let send ← ((new_set \ remote_set).sort (· ≤ ·)).mapM fun h => do
    let ty ← s.objectType h
    pure (h, decide (ty = .blob))
  let non_blob_raw := (send.filter fun entry => !entry.2).map Prod.fst
  let blob_slots := (send.filter fun entry => entry.2).map fun entry =>
    (entry.1, heldBase remote_set base_map entry.1)
  let delta_results ← encodeDeltaCandidatesBatch B s (candidatesOf blob_slots)
  let (blob_raw, deltas) := fillSlots blob_slots delta_results
  pure ⟨non_blob_raw ++ blob_raw, deltas, !have_old⟩

/-! ### What a plan holds -/

section Planned

variable {B : Blake3} {s : ObjectStore}

variable {target_bytes base_bytes : Bytes}

/-- A delta is smaller than its target, which is no larger than an object may be. -/
def Smaller (s : ObjectStore) (d : PlannedDelta) : Prop :=
  deltaSize d < s.fileLen d.target ∧ s.fileLen d.target ≤ MAX_RAW_OBJECT_SIZE

/-- A delta decodes, against the file of its base, to that of its target. -/
def Rebuilds (B : Blake3) (s : ObjectStore) (d : PlannedDelta) : Prop :=
  ∃ v bytes, s.read B d.base = .ok v ∧ s.read B d.target = .ok bytes ∧
    DeltaStream.decode v d.stream = .ok bytes

/-- What an answer says about its candidate. -/
def Saves (B : Blake3) (s : ObjectStore) (c : DeltaCandidate) (answer : Option PlannedDelta) :
    Prop :=
  ∀ p ∈ answer, p.target = c.target ∧ p.base = c.base ∧ Smaller s p ∧ Rebuilds B s p

theorem saves_tryDelta {c : DeltaCandidate} {target_bytes base_bytes : Bytes}
    (h : s.read B c.target = .ok target_bytes) (hbase : s.read B c.base = .ok base_bytes) :
    Saves B s c (tryDelta c.target c.base target_bytes base_bytes) := by
  intro p hp
  rw [tryDelta] at hp
  split at hp
  · exact nomatch hp
  · rename_i stream hstream
    split at hp
    · rename_i hlt
      obtain rfl := Option.some.inj hp
      obtain ⟨hlen, hmax⟩ := ObjectStore.fileLen_of_read h
      rw [Smaller, hlen]
      exact ⟨rfl, rfl, ⟨hlt, hmax⟩, _, _, hbase, h, DeltaStream.decode_encode hstream⟩
    · exact nomatch hp

/-- What is cached of a base is its file. -/
theorem read_of_cacheDeltaBases {candidates : List DeltaCandidate} {budget : ℕ}
    {cache : AList fun _ : Hash => Bytes} (h : cacheDeltaBases B s candidates budget = .ok cache) :
    ∀ base bytes, cache.lookup base = some bytes → s.read B base = .ok bytes := by
  rw [cacheDeltaBases, Wire.bind_eq_ok] at h
  obtain ⟨⟨cache', left⟩, hfold, h⟩ := h
  obtain rfl : cache' = cache := Except.ok.inj h
  refine foldlM_invariant (I := fun acc : (AList fun _ : Hash => Bytes) × ℕ =>
    ∀ base bytes, acc.1.lookup base = some bytes → s.read B base = .ok bytes)
    (fun ⟨cache, remaining⟩ base acc' hacc hone => ?_) (fun b w hw => by simp at hw)
    hfold
  dsimp only at hone
  split at hone
  · obtain rfl := Except.ok.inj hone
    exact hacc
  · rw [Wire.bind_eq_ok] at hone
    obtain ⟨len, -, hone⟩ := hone
    split at hone
    · obtain rfl := Except.ok.inj hone
      exact hacc
    · rw [Wire.bind_eq_ok] at hone
      obtain ⟨bytes, hbytes, hone⟩ := hone
      split at hone
      · obtain rfl := Except.ok.inj hone
        intro b w hw
        by_cases hb : b = base
        · subst hb
          rw [AList.lookup_insert] at hw
          rwa [← Option.some.inj hw]
        · rw [AList.lookup_insert_ne hb] at hw
          exact hacc b w hw
      · obtain rfl := Except.ok.inj hone
        exact hacc

/-- Every candidate has its answer in its place, whether its base was cached or not. -/
theorem encodeDeltaCandidatesBatch_eq_ok {candidates : List DeltaCandidate}
    (h : encodeDeltaCandidatesBatch B s candidates = .ok results) :
    List.Forall₂ (Saves B s) candidates results := by
  rw [encodeDeltaCandidatesBatch, Wire.bind_eq_ok] at h
  obtain ⟨batches, hbatches, h⟩ := h
  obtain rfl := Except.ok.inj h
  have hsaves : List.Forall₂ (List.Forall₂ (Saves B s))
      (chunks DELTA_CANDIDATE_BATCH_CAP candidates) batches := by
    refine (mapM_eq_ok.1 hbatches).imp fun batch answers hanswers => ?_
    rw [Wire.bind_eq_ok] at hanswers
    obtain ⟨cache, hcache, hanswers⟩ := hanswers
    refine (mapM_eq_ok.1 hanswers).imp fun c answer hanswer => ?_
    split at hanswer
    · rename_i base_bytes hbase
      rw [encodeDeltaCandidateWithBase, Wire.bind_eq_ok] at hanswer
      obtain ⟨target_bytes, htarget, hanswer⟩ := hanswer
      obtain rfl := Except.ok.inj hanswer
      exact saves_tryDelta htarget (read_of_cacheDeltaBases hcache _ _ hbase)
    · rw [encodeDeltaCandidate, Wire.bind_eq_ok] at hanswer
      obtain ⟨target_bytes, htarget, hanswer⟩ := hanswer
      rw [Wire.bind_eq_ok] at hanswer
      obtain ⟨base_bytes, hbase, hanswer⟩ := hanswer
      obtain rfl := Except.ok.inj hanswer
      exact saves_tryDelta htarget hbase
  have hflat := List.rel_flatten hsaves
  rwa [flatten_chunks (by decide)] at hflat

/-- Every blob goes out once, as it is or as a delta that is smaller and rebuilds it. -/
theorem fillSlots_spec {slots : List (Hash × Option Hash)}
    (h : List.Forall₂ (Saves B s) (candidatesOf slots) results) :
    ((fillSlots slots results).1 ++ (fillSlots slots results).2.map (·.target)).Perm
        (slots.map Prod.fst) ∧
      ∀ d ∈ (fillSlots slots results).2,
        (d.target, some d.base) ∈ slots ∧ Smaller s d ∧ Rebuilds B s d := by
  induction slots generalizing results with
  | nil => exact ⟨.refl _, fun d hd => absurd hd List.not_mem_nil⟩
  | cons slot slots ih =>
    obtain ⟨h', base⟩ := slot
    cases base with
    | none =>
      obtain ⟨hperm, hdeltas⟩ := ih h
      exact ⟨hperm.cons _, fun d hd => (hdeltas d hd).imp_left (List.mem_cons_of_mem _)⟩
    | some base =>
      have hcands : candidatesOf ((h', some base) :: slots) =
          ⟨h', base⟩ :: candidatesOf slots := rfl
      rw [hcands] at h
      cases h with
      | @cons _ answer _ results hanswer hrest =>
        obtain ⟨hperm, hdeltas⟩ := ih hrest
        have htail : ∀ d ∈ (fillSlots slots results).2,
            (d.target, some d.base) ∈ (h', some base) :: slots ∧ Smaller s d ∧ Rebuilds B s d :=
          fun d hd => (hdeltas d hd).imp_left (List.mem_cons_of_mem _)
        cases answer with
        | none => exact ⟨hperm.cons _, htail⟩
        | some planned =>
          obtain ⟨htarget, hbase, hplanned⟩ := hanswer planned rfl
          dsimp only at htarget hbase
          subst htarget hbase
          refine ⟨List.perm_middle.trans (hperm.cons _), fun d hd => ?_⟩
          rcases List.mem_cons.1 hd with rfl | hd
          · exact ⟨List.mem_cons_self, hplanned⟩
          · exact htail d hd

/-- What is to be sent is sent, each object once; what goes as it is has a file, and a delta is
smaller than its target. -/
structure Sends (s : ObjectStore) (send : Finset Hash) (plan : PackPlan) : Prop where
  perm : (plan.raw ++ plan.deltas.map (·.target)).Perm (send.sort (· ≤ ·))
  typed : ∀ h ∈ send, ∃ ty, s.objectType h = .ok ty
  smaller : ∀ d ∈ plan.deltas, Smaller s d

theorem planPackWith_eq_ok {new_tip : Hash} {old_tip : Option Hash} {plan : PackPlan}
    (h : planPackWith B s new_tip old_tip = .ok plan) :
    ∃ new_set remote_set base_map have_old, reachableObjects B s new_tip = .ok new_set ∧
      remoteSide B s new_tip old_tip = .ok (remote_set, base_map, have_old) ∧
      Sends s (new_set \ remote_set) plan ∧ plan.self_contained = !have_old ∧
      ∀ d ∈ plan.deltas, d.base ∈ remote_set ∧ Rebuilds B s d := by
  rw [planPackWith, Wire.bind_eq_ok] at h
  obtain ⟨new_set, hnew, h⟩ := h
  rw [Wire.bind_eq_ok] at h
  obtain ⟨⟨remote_set, base_map, have_old⟩, hremote, h⟩ := h
  rw [Wire.bind_eq_ok] at h
  obtain ⟨send, hsend, h⟩ := h
  rw [Wire.bind_eq_ok] at h
  obtain ⟨results, hresults, h⟩ := h
  obtain rfl := Except.ok.inj h
  refine ⟨new_set, remote_set, base_map, have_old, hnew, hremote, ?_⟩
  have htyped : List.Forall₂ (fun h entry => (∃ ty, s.objectType h = .ok ty) ∧ h = entry.1)
      ((new_set \ remote_set).sort (· ≤ ·)) send := by
    refine (mapM_eq_ok.1 hsend).imp fun h entry hentry => ?_
    rw [Wire.bind_eq_ok] at hentry
    obtain ⟨ty, hty, hentry⟩ := hentry
    obtain rfl := Except.ok.inj hentry
    exact ⟨⟨ty, hty⟩, rfl⟩
  rw [List.forall₂_and_left, ← List.forall₂_map_right_iff, List.forall₂_eq_eq_eq] at htyped
  obtain ⟨htyped, hsend⟩ := htyped
  obtain ⟨hperm, hdeltas⟩ := fillSlots_spec (encodeDeltaCandidatesBatch_eq_ok hresults)
  refine ⟨⟨?_, fun h hh => ?_, fun d hd => (hdeltas d hd).2.1⟩, rfl, fun d hd => ?_⟩
  · dsimp only
    rw [List.append_assoc, hsend]
    refine (hperm.append_left _).trans ?_
    rw [List.map_map]
    have hsplit := (List.filter_append_perm (fun entry : Hash × Bool => entry.2) send).map Prod.fst
    rw [List.map_append] at hsplit
    exact List.perm_append_comm.trans hsplit
  · exact htyped h ((Finset.mem_sort _).2 hh)
  · obtain ⟨hslot, -, hrebuilds⟩ := hdeltas d hd
    obtain ⟨entry, -, hentry⟩ := List.mem_map.1 hslot
    exact ⟨of_decide_eq_true (Option.filter_eq_some_iff.1 (Prod.mk.inj hentry).2).2, hrebuilds⟩

/-- The sizes of the entries of a plan, in the order they are packed. -/
def PackPlan.sizes (s : ObjectStore) (plan : PackPlan) : List ℕ :=
  plan.raw.map s.fileLen ++ plan.deltas.map deltaSize

variable {send : Finset Hash} {plan : PackPlan}

theorem Sends.mem_send (h : Sends s send plan) {a : Hash}
    (ha : a ∈ plan.raw ++ plan.deltas.map (·.target)) : a ∈ send :=
  (Finset.mem_sort _).1 (h.perm.mem_iff.1 ha)

theorem Sends.mapM_objectLen (h : Sends s send plan) :
    plan.raw.mapM s.objectLen = .ok (plan.raw.map s.fileLen) := by
  rw [mapM_eq_ok, List.forall₂_map_right_iff, List.forall₂_same]
  intro a ha
  obtain ⟨ty, hty⟩ := h.typed a (h.mem_send (List.mem_append_left _ ha))
  exact ObjectStore.objectLen_of_objectType hty

/-- A plan has one entry for each object. -/
theorem Sends.length_sizes (h : Sends s send plan) : (plan.sizes s).length = send.card := by
  have hlength := h.perm.length_eq
  rw [Finset.length_sort, List.length_append, List.length_map] at hlength
  rw [PackPlan.sizes, List.length_append, List.length_map, List.length_map, hlength]

/-- **What a plan weighs.** With a frame for each, no more than the files of the objects sent. -/
theorem Sends.weight_le (h : Sends s send plan) (frame : ℕ) :
    ((plan.sizes s).map (· + frame)).sum ≤ ∑ a ∈ send, (s.fileLen a + frame) := by
  have hdeltas : (plan.deltas.map fun d => deltaSize d + frame).sum ≤
      (plan.deltas.map fun d => s.fileLen d.target + frame).sum :=
    List.sum_le_sum fun d hd => Nat.add_le_add_right (h.smaller d hd).1.le _
  have hsend : ∑ a ∈ send, (s.fileLen a + frame) =
      ((send.sort (· ≤ ·)).map fun a => s.fileLen a + frame).sum := by
    rw [Finset.sum_eq_multiset_sum, ← Finset.sort_eq send (· ≤ ·), Multiset.map_coe,
      Multiset.sum_coe]
  rw [hsend, ← (h.perm.map _).sum_eq, PackPlan.sizes]
  simp only [List.map_append, List.map_map, List.sum_append, Function.comp_def]
  exact Nat.add_le_add_left hdeltas _

end Planned

end Transfer

end Mkit
