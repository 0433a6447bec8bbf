import Mkit.AncestryChain
import Mkit.Lib.Durable
import Mkit.Lib.Run

/-!
# Publishing Ancestry

`advance` moves a branch to a new tip together with the snapshot of its ancestry. It makes
its intent durable, then writes the snapshot, the ref, the generation and the pointer to it,
and removes the intent; each of these writes may be the last before the process dies. The
next call of `advance` or `recover` finds the intent and finishes it first.

The writes are operations on the branch's files (`DiskOp`), the functions are durable
programs over them, and a process may die at every checkpoint of the code. Calls are
serialised by the branch lock, so a run is a sequence of whole calls.
-/

namespace Mkit

open Wire Durable

/-- A durable write. -/
inductive DiskOp where
  /-- Create the identity of the repository. -/
  | createRepositoryId (id : Hash)
  /-- Make an intent durable. -/
  | writeTransaction (tx : Transaction)
  /-- Write the snapshot beside the published ones. -/
  | writePending (file : Bytes)
  /-- Move the ref. -/
  | writeRef (h : Hash)
  /-- Rename the pending snapshot to its generation. -/
  | publish (generation : Hash)
  /-- Point to a generation. -/
  | writeCurrent (generation : Hash)
  /-- Remove the intent. -/
  | removeTransaction
  /-- Record the scrub progress. -/
  | writeScrub (state : ScrubState)

/-- The files after a write. -/
def DiskOp.apply (B : Blake3) (d : BranchFiles) : DiskOp → BranchFiles
  | createRepositoryId id => { d with repositoryId := some (encodeRefWire id) }
  | writeTransaction tx => { d with transaction := some (tx.encode B) }
  | writePending file => { d with pendingSnapshot := some file }
  | writeRef h => { d with ref := some (encodeRefWire h) }
  | publish generation =>
    { d with
      generations := Function.update d.generations generation d.pendingSnapshot
      pendingSnapshot := none }
  | writeCurrent generation => { d with current := some (encodeRefWire generation) }
  | removeTransaction => { d with transaction := none }
  | writeScrub state => { d with scrub := some (state.encode B) }

/-- A publication program. -/
abbrev Publish := Prog BranchFiles DiskOp HistoryError

/-- What a call gets from outside: the clock and two random ids, if the random source
works. -/
structure Env where
  now : UInt64
  freshRepository : Option Hash
  freshGeneration : Option Hash

/-- The writes that finish an intent, in order. -/
def finishOps (tx : Transaction) (file : Bytes) : List DiskOp :=
  [.writePending file, .writeRef tx.target, .publish tx.generation,
    .writeCurrent tx.generation, .removeTransaction]

/-- A repeated call is one with the target and the expectation of the intent. -/
def Transaction.isRetry (tx : Transaction) (condition : RefWriteCondition) (target : Hash) :
    Bool :=
  target == tx.target &&
    match condition with
    | .any => true
    | .missing => tx.previous == none
    | .matching expected => tx.previous == some expected

section Programs

variable (B : Blake3) (mmb : List Hash → Except HistoryError Hash) (br : Branch)
  (store : ObjectStore) (env : Env)

/-- A random id. -/
def freshId : Option Hash → Publish Hash
  | some id => pure id
  | none => throw (.failed .io)

/-- The identity of the repository, created when there is none. -/
def repositoryId : Publish Hash := do
  match ← observe BranchFiles.readRepositoryId with
  | some id => pure id
  | none => do
    let id ← freshId env.freshRepository
    perform (DiskOp.apply B) (.createRepositoryId id)
    match ← observe BranchFiles.readRepositoryId with
    | some id => pure id
    | none => throw (.failed (.corrupted "history repository identity disappeared"))

/-- The snapshot of an intent, walked from the objects. -/
def rebuild (tx : Transaction) : Except HistoryError AncestrySnapshot := do
  let chain ← firstParentChain B store tx.target
  AncestrySnapshot.build mmb tx.repository tx.fullRef tx.generation chain

/-- Does a snapshot that was built before belong to the intent? -/
def AncestrySnapshot.isFor (s : AncestrySnapshot) (tx : Transaction) : Bool :=
  s.descriptor.repository = tx.repository ∧ s.descriptor.fullRef = tx.fullRef ∧
    s.descriptor.generation = tx.generation ∧ s.descriptor.tip = tx.target

/-- The snapshot to publish for an intent: the one at hand if it belongs to the intent. -/
def snapshotFor (tx : Transaction) (prebuilt : Option AncestrySnapshot) :
    Publish AncestrySnapshot :=
  match prebuilt.filter (·.isFor tx) with
  | some s => pure s
  | none => observe fun _ => rebuild B mmb store tx

/-- Finish a durable intent. The directory of a branch is named by the digest of its full
ref. -/
def finish (tx : Transaction) (prebuilt : Option AncestrySnapshot) :
    Publish AncestrySnapshot := do
  let repository ← repositoryId B env
  if tx.repository ≠ repository ∨ toHex (B.hash tx.fullRef) ≠ toHex (B.hash br.fullRef) then
    throw (.failed (.corrupted "history transaction context mismatch"))
  else do
    let current ← observe fun d => (d.tip br).mapError .ref
    if current ≠ tx.previous ∧ current ≠ some tx.target then
      throw (.failed (.corrupted "ref diverged from pending history transaction"))
    else do
      let snapshot ← snapshotFor B mmb store tx prebuilt
      let encoded ← observe fun _ => snapshot.encode B
      steps (DiskOp.apply B) (finishOps tx encoded)
      pure snapshot

/-- The pending intent. -/
def readTransaction : Publish (Option Transaction) :=
  observe fun d => (Transaction.read B d.transaction).mapError .ref

/-- Finish the pending intent, if there is one. -/
def recover : Publish Unit := do
  match ← readTransaction B with
  | some tx => do
    let _ ← finish B mmb br store env tx none
    pure ()
  | none => pure ()

/-- The chain, generation and scrub progress a decision leads to. -/
def placement (compatible : Option AncestryDescriptor) :
    ChainDecision → Publish (List Hash × Hash × ScrubState)
  | .sameGeneration chain scrub =>
    match compatible with
    | some descr => pure (chain, descr.generation, scrub)
    | none => throw (.failed .panicked)
  | .newGeneration chain scrub => do
    let generation ← freshId env.freshGeneration
    pure (chain, generation, scrub)

/-- The part of `advance` after a pending intent is out of the way. -/
def publishTarget (condition : RefWriteCondition) (target : Hash) : Publish Unit := do
  observe fun d => (d.check br condition).mapError .ref
  let previous ← observe fun d => (d.tip br).mapError .ref
  let repository ← repositoryId B env
  let old ← observe BranchFiles.readCurrentDescriptor
  let compatible := old.filter fun descr =>
    descr.repository = repository ∧ descr.fullRef = br.fullRef ∧ some descr.tip = previous
  if compatible.any (·.tip = target) then pure ()
  else do
    let decision ← observe fun d => decideChain B store d compatible target env.now
    let (chain, generation, scrub) ← placement env compatible decision
    let tx : Transaction :=
      ⟨repository, br.fullRef, previous, compatible.map (·.generation), target, generation⟩
    let snapshot ← observe fun _ =>
      AncestrySnapshot.build mmb repository tx.fullRef generation chain
    steps (DiskOp.apply B) [.writeTransaction tx]
    let _ ← finish B mmb br store env tx (some snapshot)
    perform (DiskOp.apply B) (.writeScrub { scrub with generation := generation })

/-- Move the branch to `target` under `condition`. -/
def advance (condition : RefWriteCondition) (target : Hash) : Publish Unit := do
  match ← readTransaction B with
  | some tx => do
    let _ ← finish B mmb br store env tx none
    if tx.isRetry condition target then pure ()
    else publishTarget B mmb br store env condition target
  | none => publishTarget B mmb br store env condition target

end Programs

/-! ### The invariant -/

section Invariant

variable (B : Blake3) (mmb : List Hash → Except HistoryError Hash) (br : Branch)
  (store : ObjectStore)

/-- The file of a snapshot. -/
def AncestrySnapshot.file (s : AncestrySnapshot) : Bytes :=
  s.payload ++ (B.hash s.payload).bytes

/-- An intent that can be finished: it is about this branch and repository, the ref stands
before or after it, and its snapshot is `s`. -/
structure Finishable (d : BranchFiles) (tx : Transaction) (s : AncestrySnapshot) : Prop where
  fullRef : tx.fullRef = br.fullRef
  identity : d.readRepositoryId = .ok (some tx.repository)
  tip : d.tip br = .ok tx.previous ∨ d.tip br = .ok (some tx.target)
  snapshot : rebuild B mmb store tx = .ok s

/-- What holds of a branch's files between calls. -/
structure Consistent (d : BranchFiles) : Prop where
  /-- Every published file holds a snapshot of its generation. -/
  generations : ∀ g file, d.generations g = some file →
    ∃ s, Holds B mmb br store file s ∧ s.descriptor.generation = g
  /-- The pointer names a published generation. -/
  current : ∀ b, d.current = some b → ∃ g, b = encodeRefWire g ∧ (d.generations g).isSome
  /-- A pending intent can be finished. -/
  transaction : ∀ b, d.transaction = some b →
    ∃ tx s, b = tx.encode B ∧ Finishable B mmb br store d tx s

end Invariant

section Proofs

variable {B : Blake3} {mmb : List Hash → Except HistoryError Hash} {br : Branch}
  {store : ObjectStore} {env : Env} {d : BranchFiles} {tx : Transaction} {s : AncestrySnapshot}

theorem BranchFiles.tip_of_ref {h : Hash} (hd : d.ref = some (encodeRefWire h)) :
    d.tip br = .ok (some h) := by
  simp only [BranchFiles.tip, hd, decodeRefWire_encodeRefWire]

/-- The snapshot of an intent holds the chain of its target. -/
theorem Finishable.holds (h : Finishable B mmb br store d tx s) :
    Holds B mmb br store (s.file B) s ∧ s.descriptor.repository = tx.repository ∧
      s.descriptor.generation = tx.generation ∧ s.descriptor.tip = tx.target := by
  have hs := h.snapshot
  rw [rebuild, bind_eq_ok, h.fullRef] at hs
  obtain ⟨chain, hchain, hbuild⟩ := hs
  obtain ⟨hwf, hrepo, hgen, rfl, htip⟩ := AncestrySnapshot.wf_of_build hbuild
  obtain ⟨hfp, -⟩ := firstParentChain_eq_ok.1 hchain
  have htarget : s.descriptor.tip = tx.target :=
    Option.some.inj (htip.symm.trans hfp.getLast?)
  exact ⟨⟨hwf, rfl, htarget ▸ hfp⟩, hrepo, hgen, htarget⟩

variable {store' : ObjectStore}

/-- Intents stay finishable when objects are added. -/
theorem Finishable.kept (hk : ObjectStore.Kept B store store')
    (h : Finishable B mmb br store d tx s) : Finishable B mmb br store' d tx s := by
  refine ⟨h.fullRef, h.identity, h.tip, ?_⟩
  have hs := h.snapshot
  rw [rebuild, bind_eq_ok] at hs ⊢
  obtain ⟨chain, hchain, hbuild⟩ := hs
  obtain ⟨hfp, hlen⟩ := firstParentChain_eq_ok.1 hchain
  exact ⟨chain, firstParentChain_eq_ok.2 ⟨hfp.kept hk, hlen⟩, hbuild⟩

theorem Holds.kept {file : Bytes}
    (hk : ObjectStore.Kept B store store') (h : Holds B mmb br store file s) :
    Holds B mmb br store' file s :=
  ⟨h.wf, h.file, h.chain.kept hk⟩

/-- Files stay consistent when objects are added. -/
theorem Consistent.kept (hk : ObjectStore.Kept B store store')
    (h : Consistent B mmb br store d) : Consistent B mmb br store' d := by
  refine ⟨fun g file hg => ?_, h.current, fun b hb => ?_⟩
  · obtain ⟨s, hs, hgen⟩ := h.generations g file hg
    exact ⟨s, hs.kept hk, hgen⟩
  · obtain ⟨tx, s, hb, hf⟩ := h.transaction b hb
    exact ⟨tx, s, hb, hf.kept hk⟩

/-! ### Finishing an intent -/

variable {p : Proc BranchFiles DiskOp}

theorem exec_repositoryId {id : Hash} (h : p.disk.readRepositoryId = .ok (some id)) :
    exec (repositoryId B env) p = (.ok id, p) := by
  have hobs : exec (observe BranchFiles.readRepositoryId : Publish _) p = (.ok (some id), p) := by
    rw [exec_observe, h]
  rw [repositoryId, exec_bind_of_ok hobs, exec_pure]

variable {prebuilt : Option AncestrySnapshot}

/-- Finishing a finishable intent never fails: it performs its writes. -/
theorem exec_finish
    (h : Finishable B mmb br store p.disk tx s) (hpre : prebuilt = none ∨ prebuilt = some s) :
    exec (finish B mmb br store env tx prebuilt) p =
      exec (do
        steps (DiskOp.apply B) (finishOps tx (s.file B))
        pure s : Publish AncestrySnapshot) p := by
  obtain ⟨hholds, hrepo, hgen, htip⟩ := h.holds
  have hcontext : ¬ (tx.repository ≠ tx.repository ∨
      toHex (B.hash tx.fullRef) ≠ toHex (B.hash br.fullRef)) := by
    rw [h.fullRef]
    simp
  obtain ⟨current, hcurrent, hnear⟩ : ∃ current, p.disk.tip br = .ok current ∧
      ¬ (current ≠ tx.previous ∧ current ≠ some tx.target) := by
    rcases h.tip with htip | htip
    · exact ⟨_, htip, by simp⟩
    · exact ⟨_, htip, by simp⟩
  have htipobs : exec (observe fun d => (d.tip br).mapError .ref : Publish _) p =
      (.ok current, p) := by
    rw [exec_observe, hcurrent]
    rfl
  have hsnap : exec (snapshotFor B mmb store tx prebuilt) p = (.ok s, p) := by
    rcases hpre with rfl | rfl
    · change exec (observe fun _ => rebuild B mmb store tx : Publish AncestrySnapshot) p = _
      rw [exec_observe, h.snapshot]
    · have hfor : s.isFor tx = true := by
        simp only [AncestrySnapshot.isFor, hrepo, hgen, htip, hholds.wf.fullRef, h.fullRef,
          and_self, decide_true]
      rw [snapshotFor, Option.filter_some, if_pos hfor, exec_pure]
  have henc : exec (observe fun _ => s.encode B : Publish Bytes) p = (.ok (s.file B), p) := by
    rw [exec_observe, hholds.wf.encode_eq]
    rfl
  rw [finish, exec_bind_of_ok (exec_repositoryId h.identity), if_neg hcontext,
    exec_bind_of_ok htipobs, if_neg hnear, exec_bind_of_ok hsnap, exec_bind_of_ok henc]

/-- The files after the first `k` writes of an intent. -/
def finishing (B : Blake3) (d : BranchFiles) (tx : Transaction) (s : AncestrySnapshot)
    (k : ℕ) : BranchFiles :=
  ((finishOps tx (s.file B)).take k).foldl (DiskOp.apply B) d

/-- The five kinds of files that finishing an intent passes through, by the writes done. -/
theorem finishing_eq (B : Blake3) (d : BranchFiles) (tx : Transaction) (s : AncestrySnapshot)
    (k : ℕ) : (finishing B d tx s k).repositoryId = d.repositoryId ∧
    (finishing B d tx s k).scrub = d.scrub ∧
    (finishing B d tx s k).transaction = (if k < 5 then d.transaction else none) ∧
    (finishing B d tx s k).ref = (if k < 2 then d.ref else some (encodeRefWire tx.target)) ∧
    (finishing B d tx s k).generations = (if k < 3 then d.generations
      else Function.update d.generations tx.generation (some (s.file B))) ∧
    (finishing B d tx s k).current =
      (if k < 4 then d.current else some (encodeRefWire tx.generation)) := by
  rcases k with _ | _ | _ | _ | _ | k
  · exact ⟨rfl, rfl, rfl, rfl, rfl, rfl⟩
  · exact ⟨rfl, rfl, rfl, rfl, rfl, rfl⟩
  · exact ⟨rfl, rfl, rfl, rfl, rfl, rfl⟩
  · exact ⟨rfl, rfl, rfl, rfl, rfl, rfl⟩
  · exact ⟨rfl, rfl, rfl, rfl, rfl, rfl⟩
  · have htake : (finishOps tx (s.file B)).take (k + 5) = finishOps tx (s.file B) :=
      List.take_of_length_le (Nat.le_add_left _ _)
    have h₅ : ∀ n, n ≤ 5 → ¬ k + 5 < n := fun n hn => by omega
    rw [finishing, htake, if_neg (h₅ 5 (by omega)), if_neg (h₅ 2 (by omega)),
      if_neg (h₅ 3 (by omega)), if_neg (h₅ 4 (by omega))]
    exact ⟨rfl, rfl, rfl, rfl, rfl, rfl⟩

/-- An intent can be finished from every point on the way. -/
theorem Finishable.finishing (h : Finishable B mmb br store d tx s) (k : ℕ) :
    Finishable B mmb br store (Mkit.finishing B d tx s k) tx s := by
  obtain ⟨hid, -, -, href, -, -⟩ := finishing_eq B d tx s k
  refine ⟨h.fullRef, ?_, ?_, h.snapshot⟩
  · rw [BranchFiles.readRepositoryId, hid]
    exact h.identity
  · by_cases hk : k < 2
    · rw [if_pos hk] at href
      rw [BranchFiles.tip, href]
      exact h.tip
    · rw [if_neg hk] at href
      exact .inr (BranchFiles.tip_of_ref href)

/-- The files are consistent at every point of finishing an intent. -/
theorem Consistent.finishing (h : Consistent B mmb br store d)
    (ht : d.transaction = some (tx.encode B)) (hf : Finishable B mmb br store d tx s) (k : ℕ) :
    Consistent B mmb br store (Mkit.finishing B d tx s k) := by
  obtain ⟨-, -, htx, -, hgens, hcur⟩ := finishing_eq B d tx s k
  obtain ⟨hholds, -, hgen, -⟩ := hf.holds
  refine ⟨fun g file hg => ?_, fun b hb => ?_, fun b hb => ?_⟩
  · rw [hgens] at hg
    by_cases hk : k < 3
    · rw [if_pos hk] at hg
      exact h.generations g file hg
    · rw [if_neg hk] at hg
      by_cases hgg : g = tx.generation
      · subst hgg
        rw [Function.update_self] at hg
        obtain rfl := Option.some.inj hg
        exact ⟨s, hholds, hgen⟩
      · rw [Function.update_of_ne hgg] at hg
        exact h.generations g file hg
  · -- The pointer moves only after the file it then names is in place.
    rw [hcur] at hb
    have hkeep : ∀ g, (d.generations g).isSome →
        ((Mkit.finishing B d tx s k).generations g).isSome := by
      intro g hg
      rw [hgens]
      by_cases hk : k < 3
      · rwa [if_pos hk]
      · rw [if_neg hk]
        by_cases hgg : g = tx.generation
        · rw [hgg, Function.update_self]
          rfl
        · rwa [Function.update_of_ne hgg]
    by_cases hk : k < 4
    · rw [if_pos hk] at hb
      obtain ⟨g, hb, hg⟩ := h.current b hb
      exact ⟨g, hb, hkeep g hg⟩
    · rw [if_neg hk] at hb
      refine ⟨tx.generation, (Option.some.inj hb).symm, ?_⟩
      rw [hgens, if_neg (by omega), Function.update_self]
      rfl
  · rw [htx] at hb
    by_cases hk : k < 5
    · rw [if_pos hk, ht] at hb
      exact ⟨tx, s, (Option.some.inj hb).symm, hf.finishing k⟩
    · rw [if_neg hk] at hb
      cases hb

/-- Finishing an intent ends with all its writes done, or dies after some of them. -/
theorem exec_finish_cases (env : Env)
    (h : Finishable B mmb br store p.disk tx s) (hpre : prebuilt = none ∨ prebuilt = some s) :
    (∃ life, exec (finish B mmb br store env tx prebuilt) p =
      (.ok s, ⟨finishing B p.disk tx s 5, p.log ++ finishOps tx (s.file B), life⟩)) ∨
    (∃ k life, 0 < k ∧ k ≤ 5 ∧ exec (finish B mmb br store env tx prebuilt) p =
      (.error .crashed, ⟨finishing B p.disk tx s k,
        p.log ++ (finishOps tx (s.file B)).take k, life⟩)) := by
  rw [exec_finish h hpre]
  have hsteps : Triple (· = p)
      (steps (DiskOp.apply B) (finishOps tx (s.file B)) : Publish Unit)
      (fun _ q => ∃ life, q = ⟨finishing B p.disk tx s 5,
        p.log ++ finishOps tx (s.file B), life⟩)
      (fun e q => e = .crashed ∧ ∃ k life, 0 < k ∧ k ≤ 5 ∧ q = ⟨finishing B p.disk tx s k,
        p.log ++ (finishOps tx (s.file B)).take k, life⟩) := by
    refine Triple.steps ?_ ?_
    · rintro q life rfl
      exact ⟨life, rfl⟩
    · rintro q k life rfl hk hle
      exact ⟨rfl, k, life, hk, hle, rfl⟩
  rcases hx : exec (steps (DiskOp.apply B) (finishOps tx (s.file B)) : Publish Unit) p with
    ⟨e | u, q⟩
  · obtain ⟨rfl, k, life, hk, hle, rfl⟩ := hsteps.of_error rfl hx
    exact .inr ⟨k, life, hk, hle, exec_bind_of_error hx⟩
  · obtain ⟨life, rfl⟩ := hsteps.of_ok rfl hx
    exact .inl ⟨life, exec_bind_of_ok hx⟩

/-- A process that does not die finishes the intent. -/
theorem exec_finish_of_none (env : Env)
    (h : Finishable B mmb br store p.disk tx s) (hpre : prebuilt = none ∨ prebuilt = some s)
    (hlife : p.life = none) : exec (finish B mmb br store env tx prebuilt) p =
      (.ok s, ⟨finishing B p.disk tx s 5, p.log ++ finishOps tx (s.file B), none⟩) := by
  rw [exec_finish h hpre, exec_bind_of_ok (exec_steps_of_none hlife)]
  rfl

theorem exec_readTransaction_none
    (h : p.disk.transaction = none) : exec (readTransaction B) p = (.ok none, p) := by
  rw [readTransaction, exec_observe, h]
  rfl

theorem exec_readTransaction_some
    (h : p.disk.transaction = some (tx.encode B)) (hf : tx.fullRef = br.fullRef) :
    exec (readTransaction B) p = (.ok (some tx), p) := by
  rw [readTransaction, exec_observe, h, Transaction.read_encode B br hf]
  rfl

/-! ### Reading the current snapshot -/

variable {g : Hash}

theorem currentGeneration_eq (h : d.current = some (encodeRefWire g)) :
    d.currentGeneration = .ok (some g) := by
  simp only [BranchFiles.currentGeneration, h, readBounded, length_encodeRefWire, gt_iff_lt,
    lt_self_iff_false, if_false, decodeRefWire_encodeRefWire, Bind.bind, Except.bind,
    Pure.pure, Except.pure]

/-- The descriptor that is read is that of the snapshot the pointer names. -/
theorem readCurrentDescriptor_eq {file : Bytes}
    (hg : d.current = some (encodeRefWire g)) (hfile : d.generations g = some file)
    (hs : Holds B mmb br store file s) (hgen : s.descriptor.generation = g) :
    d.readCurrentDescriptor = .ok (some s.descriptor) := by
  obtain ⟨rest, hparse⟩ := hs.wf.parse_header (B.hash s.payload).bytes
  rw [← hs.file] at hparse
  simp only [BranchFiles.readCurrentDescriptor, currentGeneration_eq hg, hfile, hparse,
    Bind.bind, Except.bind, hgen, ne_eq, not_true_eq_false, if_false, Pure.pure, Except.pure]

/-- The pointer of consistent files names a file that holds a snapshot. -/
theorem Consistent.holds_current (h : Consistent B mmb br store d)
    (hg : d.current = some (encodeRefWire g)) :
    ∃ file s, d.generations g = some file ∧ Holds B mmb br store file s ∧
      s.descriptor.generation = g := by
  obtain ⟨g', hb, hsome⟩ := h.current _ hg
  obtain rfl := encodeRefWire_injective hb
  obtain ⟨file, hfile⟩ := Option.isSome_iff_exists.1 hsome
  obtain ⟨s, hs, hgen⟩ := h.generations g file hfile
  exact ⟨file, s, hfile, hs, hgen⟩

theorem Consistent.holds_of_descriptor (h : Consistent B mmb br store d)
    {descr : AncestryDescriptor} (hd : d.readCurrentDescriptor = .ok (some descr)) :
    ∃ file s, d.generations descr.generation = some file ∧ Holds B mmb br store file s ∧
      s.descriptor = descr := by
  cases hcur : d.current with
  | none =>
    rw [BranchFiles.readCurrentDescriptor, BranchFiles.currentGeneration, hcur] at hd
    cases hd
  | some b =>
    obtain ⟨g, rfl, -⟩ := h.current b hcur
    obtain ⟨file, s, hfile, hs, hgen⟩ := h.holds_current hcur
    rw [readCurrentDescriptor_eq hcur hfile hs hgen] at hd
    obtain rfl := Option.some.inj (Except.ok.inj hd)
    exact ⟨file, s, hgen.symm ▸ hfile, hs, rfl⟩

/-! ### Publishing a target -/

/-- The files once the intent `tx` is durable. -/
def intended (B : Blake3) (d : BranchFiles) (id : Option Bytes) (tx : Transaction) :
    BranchFiles :=
  { d with repositoryId := id, transaction := some (tx.encode B) }

/-- What is left of an attempt to publish `target` on files without a pending intent: how it
ends, the files and the writes. Besides the writes of an intent it may create the identity of
the repository. -/
inductive Attempt (B : Blake3) (mmb : List Hash → Except HistoryError Hash) (br : Branch)
    (store : ObjectStore) (d : BranchFiles) (condition : RefWriteCondition) (target : Hash) :
    Except (Stop HistoryError) Unit → BranchFiles → List DiskOp → Prop
  /-- It fails before its intent is durable. -/
  | refused {e : HistoryError} (id : Option Bytes) {l : List DiskOp}
      (hl : ∀ tx, .writeTransaction tx ∉ l) :
      Attempt B mmb br store d condition target (.error (.failed e))
        { d with repositoryId := id } l
  /-- The branch is already there. -/
  | noop (id : Option Bytes) {l : List DiskOp} (hl : ∀ tx, .writeTransaction tx ∉ l)
      (hcheck : d.check br condition = .ok ()) (htip : d.tip br = .ok (some target)) :
      Attempt B mmb br store d condition target (.ok ()) { d with repositoryId := id } l
  /-- It dies with its intent durable, after `k` of the writes that finish it. -/
  | crashed (id : Option Bytes) {l : List DiskOp} {tx : Transaction} {s : AncestrySnapshot}
      {k : ℕ} (hl : ∀ tx, .writeTransaction tx ∉ l) (hcheck : d.check br condition = .ok ())
      (htip : d.tip br = .ok tx.previous) (htarget : tx.target = target)
      (hf : Finishable B mmb br store (intended B d id tx) tx s) (hk : k ≤ 5) :
      Attempt B mmb br store d condition target (.error .crashed)
        (finishing B (intended B d id tx) tx s k)
        (l ++ .writeTransaction tx :: (finishOps tx (s.file B)).take k)
  /-- It publishes. -/
  | published (id : Option Bytes) {l : List DiskOp} {tx : Transaction} {s : AncestrySnapshot}
      (scrub : ScrubState) (hl : ∀ tx, .writeTransaction tx ∉ l)
      (hcheck : d.check br condition = .ok ()) (htip : d.tip br = .ok tx.previous)
      (htarget : tx.target = target)
      (hf : Finishable B mmb br store (intended B d id tx) tx s) :
      Attempt B mmb br store d condition target (.ok ())
        (DiskOp.apply B (finishing B (intended B d id tx) tx s 5) (.writeScrub scrub))
        (l ++ .writeTransaction tx :: (finishOps tx (s.file B) ++ [.writeScrub scrub]))

/-- Getting the identity changes nothing but the identity. -/
theorem exec_repositoryId_cases (B : Blake3) (env : Env) (p : Proc BranchFiles DiskOp) :
    ∃ r l, (∀ tx, DiskOp.writeTransaction tx ∉ l) ∧
      ((∃ e, exec (repositoryId B env) p =
        (.error (.failed e), ⟨{ p.disk with repositoryId := r }, p.log ++ l, p.life⟩)) ∨
      ∃ id, exec (repositoryId B env) p =
        (.ok id, ⟨{ p.disk with repositoryId := r }, p.log ++ l, p.life⟩) ∧
        BranchFiles.readRepositoryId { p.disk with repositoryId := r } = .ok (some id)) := by
  have hnone : ∀ tx, DiskOp.writeTransaction tx ∉ ([] : List DiskOp) :=
    fun _ => List.not_mem_nil
  cases hread : p.disk.readRepositoryId with
  | error e =>
    refine ⟨p.disk.repositoryId, [], hnone, .inl ⟨e, ?_⟩⟩
    rw [repositoryId, exec_observe_bind, hread, List.append_nil]
  | ok id? =>
    cases id? with
    | some id =>
      refine ⟨p.disk.repositoryId, [], hnone, .inr ⟨id, ?_, hread⟩⟩
      rw [exec_repositoryId hread, List.append_nil]
    | none =>
      cases hfresh : env.freshRepository with
      | none =>
        refine ⟨p.disk.repositoryId, [], hnone, .inl ⟨.io, ?_⟩⟩
        rw [repositoryId, exec_observe_bind, hread, hfresh, List.append_nil]
        rfl
      | some id =>
        have hid : BranchFiles.readRepositoryId
            { p.disk with repositoryId := some (encodeRefWire id) } = .ok (some id) := by
          simp only [BranchFiles.readRepositoryId, readBounded, length_encodeRefWire,
            gt_iff_lt, lt_self_iff_false, if_false, decodeRefWire_encodeRefWire,
            Bind.bind, Except.bind, Pure.pure, Except.pure]
        refine ⟨some (encodeRefWire id), [.createRepositoryId id], by simp,
          .inr ⟨id, ?_, hid⟩⟩
        rw [repositoryId, exec_observe_bind, hread]
        simp only [hfresh, freshId]
        rw [exec_bind_of_ok (exec_pure id), exec_bind_of_ok (exec_perform _),
          exec_observe_bind]
        simp only [DiskOp.apply, hid, exec_pure]

theorem Consistent.setIdentity (h : Consistent B mmb br store d) (ht : d.transaction = none)
    (r : Option Bytes) : Consistent B mmb br store { d with repositoryId := r } := by
  refine ⟨h.generations, h.current, fun b hb => ?_⟩
  rw [show BranchFiles.transaction { d with repositoryId := r } = d.transaction from rfl,
    ht] at hb
  cases hb

/-- Making an intent durable and finishing it. -/
theorem exec_intent_cases (env : Env) (scrub : ScrubState)
    (hf : Finishable B mmb br store { p.disk with transaction := some (tx.encode B) } tx s) :
    (∃ life, exec (do
        steps (DiskOp.apply B) [.writeTransaction tx]
        let _ ← finish B mmb br store env tx (some s)
        perform (DiskOp.apply B) (.writeScrub scrub) : Publish Unit) p =
      (.ok (), ⟨DiskOp.apply B (finishing B
          { p.disk with transaction := some (tx.encode B) } tx s 5) (.writeScrub scrub),
        p.log ++ .writeTransaction tx :: (finishOps tx (s.file B) ++ [.writeScrub scrub]),
        life⟩)) ∨
    (∃ k life, k ≤ 5 ∧ exec (do
        steps (DiskOp.apply B) [.writeTransaction tx]
        let _ ← finish B mmb br store env tx (some s)
        perform (DiskOp.apply B) (.writeScrub scrub) : Publish Unit) p =
      (.error .crashed, ⟨finishing B
          { p.disk with transaction := some (tx.encode B) } tx s k,
        p.log ++ .writeTransaction tx :: (finishOps tx (s.file B)).take k, life⟩)) := by
  have hstep : Triple (· = p) (steps (DiskOp.apply B) [.writeTransaction tx] : Publish Unit)
      (fun _ q => ∃ life, q = ⟨{ p.disk with transaction := some (tx.encode B) },
        p.log ++ [.writeTransaction tx], life⟩)
      (fun e q => e = .crashed ∧ ∃ life, q =
        ⟨{ p.disk with transaction := some (tx.encode B) },
          p.log ++ [.writeTransaction tx], life⟩) := by
    refine Triple.steps ?_ ?_
    · rintro q life rfl
      exact ⟨life, rfl⟩
    · rintro q k life rfl hk hle
      obtain rfl : k = 1 := Nat.le_antisymm hle hk
      exact ⟨rfl, life, rfl⟩
  rcases hx : exec (steps (DiskOp.apply B) [.writeTransaction tx] : Publish Unit) p with
    ⟨e | u, q⟩
  · obtain ⟨rfl, life, rfl⟩ := hstep.of_error rfl hx
    exact .inr ⟨0, life, Nat.zero_le 5, exec_bind_of_error hx⟩
  · obtain ⟨life, rfl⟩ := hstep.of_ok rfl hx
    rw [exec_bind_of_ok hx]
    set q : Proc BranchFiles DiskOp := ⟨{ p.disk with transaction := some (tx.encode B) },
      p.log ++ [.writeTransaction tx], life⟩ with hq
    have hfq : Finishable B mmb br store q.disk tx s := hf
    rcases exec_finish_cases env hfq (.inr rfl) with
      ⟨life', hfin⟩ | ⟨k, life', -, hk, hfin⟩
    · refine .inl ⟨life', ?_⟩
      rw [exec_bind_of_ok hfin, exec_perform]
      simp only [hq, List.append_assoc, List.cons_append, List.nil_append]
    · refine .inr ⟨k, life', hk, ?_⟩
      rw [exec_bind_of_error hfin]
      simp only [hq, List.append_assoc, List.cons_append, List.nil_append]

/-- The chain that is placed is the one decided on. -/
theorem exec_placement_cases (env : Env) (compatible : Option AncestryDescriptor)
    (decision : ChainDecision) (p : Proc BranchFiles DiskOp) :
    (∃ e, exec (placement env compatible decision) p = (.error (.failed e), p)) ∨
    (∃ generation scrub, exec (placement env compatible decision) p =
      (.ok (decision.chain, generation, scrub), p)) := by
  cases decision with
  | sameGeneration chain scrub =>
    cases compatible with
    | none => exact .inl ⟨.panicked, rfl⟩
    | some descr => exact .inr ⟨descr.generation, scrub, rfl⟩
  | newGeneration chain scrub =>
    cases hfresh : env.freshGeneration with
    | none =>
      refine .inl ⟨.io, ?_⟩
      rw [placement, hfresh]
      rfl
    | some g =>
      refine .inr ⟨g, scrub, ?_⟩
      rw [placement, hfresh]
      rfl

/-- Every way an attempt to publish can end. -/
theorem exec_publishTarget_cases (env : Env) (condition : RefWriteCondition) (target : Hash)
    (hc : Consistent B mmb br store p.disk) (ht : p.disk.transaction = none) :
    ∃ r d' l life, exec (publishTarget B mmb br store env condition target) p =
        (r, ⟨d', p.log ++ l, life⟩) ∧
      Attempt B mmb br store p.disk condition target r d' l := by
  have hsame : ∀ {x : Except (Stop HistoryError) Unit × Proc BranchFiles DiskOp} {e},
      x = (.error (.failed e), p) → ∃ r d' l life, x = (r, ⟨d', p.log ++ l, life⟩) ∧
        Attempt B mmb br store p.disk condition target r d' l := by
    rintro x e rfl
    exact ⟨_, p.disk, [], p.life, by rw [List.append_nil],
      .refused p.disk.repositoryId fun _ => List.not_mem_nil⟩
  rw [publishTarget, exec_observe_bind]
  cases hcheck : p.disk.check br condition with
  | error e => exact hsame rfl
  | ok u =>
  simp only [Except.mapError]
  rw [exec_observe_bind]
  cases htip : p.disk.tip br with
  | error e => exact hsame rfl
  | ok previous =>
  simp only
  obtain ⟨r, l, hl, ⟨e, hid⟩ | ⟨id, hid, hread⟩⟩ := exec_repositoryId_cases B env p
  · rw [exec_bind_of_error hid]
    exact ⟨_, _, l, _, rfl, .refused r hl⟩
  rw [exec_bind_of_ok hid]
  set q : Proc BranchFiles DiskOp := ⟨{ p.disk with repositoryId := r }, p.log ++ l, p.life⟩
    with hq
  have hcq : Consistent B mmb br store q.disk := hc.setIdentity ht r
  have hrefused : ∀ {x : Except (Stop HistoryError) Unit × Proc BranchFiles DiskOp} {e},
      x = (.error (.failed e), q) → ∃ r d' l life, x = (r, ⟨d', p.log ++ l, life⟩) ∧
        Attempt B mmb br store p.disk condition target r d' l := by
    rintro x e rfl
    exact ⟨_, _, l, _, rfl, .refused r hl⟩
  rw [exec_observe_bind]
  cases hold : q.disk.readCurrentDescriptor with
  | error e => exact hrefused rfl
  | ok old =>
  simp only
  set compatible := old.filter fun descr =>
    descr.repository = id ∧ descr.fullRef = br.fullRef ∧ some descr.tip = previous with hcompat
  by_cases hnoop : compatible.any (·.tip = target) = true
  · -- The target is the tip of a compatible publication, hence the ref's value.
    rw [if_pos hnoop, exec_pure]
    refine ⟨_, _, l, _, rfl, .noop r hl hcheck ?_⟩
    cases hco : compatible with
    | none =>
      rw [hco] at hnoop
      cases hnoop
    | some descr =>
      rw [hco, Option.any_some, decide_eq_true_eq] at hnoop
      have hfilter := (Option.filter_eq_some_iff.1 (hcompat.symm.trans hco)).2
      rw [decide_eq_true_eq] at hfilter
      rw [htip, ← hfilter.2.2, hnoop]
  · rw [if_neg hnoop, exec_observe_bind]
    cases hdec : decideChain B store q.disk compatible target env.now with
    | error e => exact hrefused rfl
    | ok decision =>
    simp only
    rcases exec_placement_cases env compatible decision q
      with ⟨e, hpl⟩ | ⟨generation, scrub, hpl⟩
    · rw [exec_bind_of_error hpl]
      exact hrefused rfl
    rw [exec_bind_of_ok hpl, exec_observe_bind]
    simp only
    cases hbuild : AncestrySnapshot.build mmb id br.fullRef generation decision.chain with
    | error e => exact hrefused rfl
    | ok s =>
    simp only
    have hchain : firstParentChain B store target = .ok decision.chain := by
      refine (decideChain_eq_ok mmb br ?_ hdec).1
      intro descr hdescr
      have hold' := (Option.filter_eq_some_iff.1 (hcompat.symm.trans hdescr)).1
      rw [hold'] at hold
      exact hcq.holds_of_descriptor hold
    set tx : Transaction :=
      ⟨id, br.fullRef, previous, compatible.map (·.generation), target, generation⟩ with htx
    have hf : Finishable B mmb br store (intended B p.disk r tx) tx s := by
      refine ⟨rfl, hread, .inl htip, ?_⟩
      rw [rebuild, bind_eq_ok]
      exact ⟨decision.chain, hchain, hbuild⟩
    rcases exec_intent_cases env (p := q) { scrub with generation := generation } hf
      with ⟨life, hx⟩ | ⟨k, life, hk, hx⟩
    · rw [hx]
      refine ⟨_, _, _, life, ?_, .published r { scrub with generation := generation }
        hl hcheck htip rfl hf⟩
      rw [hq, List.append_assoc]
      rfl
    · rw [hx]
      refine ⟨_, _, _, life, ?_, .crashed r hl hcheck htip rfl hf hk⟩
      rw [hq, List.append_assoc]
      rfl

end Proofs

end Mkit
