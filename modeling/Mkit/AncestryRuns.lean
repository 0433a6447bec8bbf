import Mkit.AncestryPublish

/-!
# Runs of Publications

A branch under use: whole calls of `advance` and `recover`, each of which may end, fail or
die at any checkpoint, in any order, while objects are added to the store and the advisory
scrub file is lost or replaced. Two results: whatever is current holds the chain that a walk
over the objects gives, and a call is either carried through or leaves nothing behind.
-/

namespace Mkit

open Wire Durable

/-- The intents among a call's writes. -/
def intents (log : List DiskOp) : List Transaction :=
  log.filterMap fun op =>
    match op with
    | .writeTransaction tx => some tx
    | _ => none

/-- What happens to a branch. -/
inductive Event where
  /-- A call of `advance`: how it ended, and what it wrote. -/
  | advance (condition : RefWriteCondition) (target : Hash)
      (outcome : Except (Stop HistoryError) Unit) (log : List DiskOp)
  /-- A call of `recover`. -/
  | recover (outcome : Except (Stop HistoryError) Unit) (log : List DiskOp)
  /-- Objects are added to the store. -/
  | objects
  /-- The scrub file is lost or replaced. -/
  | scrub

/-- The store and the files of the branch. -/
structure World where
  store : ObjectStore
  files : BranchFiles

section Runs

variable (B : Blake3) (mmb : List Hash → Except HistoryError Hash) (br : Branch)

/-- One event. A call runs from the files the last one left, with any clock, any random ids
and any lifetime. -/
inductive Serves : World → Event → World → Prop
  | advance {w : World} (condition : RefWriteCondition) (target : Hash) (env : Env)
      (life : Option ℕ) {outcome : Except (Stop HistoryError) Unit}
      {q : Proc BranchFiles DiskOp}
      (h : exec (Mkit.advance B mmb br w.store env condition target) ⟨w.files, [], life⟩ =
        (outcome, q)) :
      Serves w (.advance condition target outcome q.log) ⟨w.store, q.disk⟩
  | recover {w : World} (env : Env) (life : Option ℕ)
      {outcome : Except (Stop HistoryError) Unit} {q : Proc BranchFiles DiskOp}
      (h : exec (Mkit.recover B mmb br w.store env) ⟨w.files, [], life⟩ = (outcome, q)) :
      Serves w (.recover outcome q.log) ⟨w.store, q.disk⟩
  | objects {w : World} {store : ObjectStore} (h : ObjectStore.Kept B w.store store) :
      Serves w .objects ⟨store, w.files⟩
  | scrub {w : World} (file : Option Bytes) :
      Serves w .scrub ⟨w.store, { w.files with scrub := file }⟩

/-- A branch without history: any ref, any identity, any scrub file. -/
structure BranchFiles.Fresh (d : BranchFiles) : Prop where
  transaction : d.transaction = none
  current : d.current = none
  generations : ∀ g, d.generations g = none

end Runs

section Calls

variable {B : Blake3} {mmb : List Hash → Except HistoryError Hash} {br : Branch}
  {store : ObjectStore} {env : Env} {d d' : BranchFiles} {tx : Transaction}
  {s : AncestrySnapshot} {condition : RefWriteCondition} {target : Hash}
  {r : Except (Stop HistoryError) Unit} {l : List DiskOp}

/-- What a call of `recover` does. -/
inductive Recovered (B : Blake3) (mmb : List Hash → Except HistoryError Hash) (br : Branch)
    (store : ObjectStore) (d : BranchFiles) :
    Except (Stop HistoryError) Unit → BranchFiles → List DiskOp → Prop
  /-- Nothing was pending. -/
  | idle (ht : d.transaction = none) : Recovered B mmb br store d (.ok ()) d []
  /-- It dies after `k` of the writes that finish the pending intent. -/
  | crashed {tx : Transaction} {s : AncestrySnapshot} {k : ℕ}
      (ht : d.transaction = some (tx.encode B)) (hf : Finishable B mmb br store d tx s) :
      Recovered B mmb br store d (.error .crashed) (finishing B d tx s k)
        ((finishOps tx (s.file B)).take k)
  /-- It finishes the pending intent. -/
  | finished {tx : Transaction} {s : AncestrySnapshot}
      (ht : d.transaction = some (tx.encode B)) (hf : Finishable B mmb br store d tx s) :
      Recovered B mmb br store d (.ok ()) (finishing B d tx s 5) (finishOps tx (s.file B))

/-- What a call of `advance` does: it settles what is pending, and then, unless it died or
was a repetition of the pending call, makes an attempt of its own. -/
inductive Advanced (B : Blake3) (mmb : List Hash → Except HistoryError Hash) (br : Branch)
    (store : ObjectStore) (d : BranchFiles) (condition : RefWriteCondition) (target : Hash) :
    Except (Stop HistoryError) Unit → BranchFiles → List DiskOp → Prop
  | direct {r : Except (Stop HistoryError) Unit} {d' : BranchFiles} {l : List DiskOp}
      (ht : d.transaction = none) (h : Attempt B mmb br store d condition target r d' l) :
      Advanced B mmb br store d condition target r d' l
  | interrupted {tx : Transaction} {s : AncestrySnapshot} {k : ℕ}
      (ht : d.transaction = some (tx.encode B)) (hf : Finishable B mmb br store d tx s) :
      Advanced B mmb br store d condition target (.error .crashed) (finishing B d tx s k)
        ((finishOps tx (s.file B)).take k)
  | retried {tx : Transaction} {s : AncestrySnapshot}
      (ht : d.transaction = some (tx.encode B)) (hf : Finishable B mmb br store d tx s)
      (htarget : tx.target = target) :
      Advanced B mmb br store d condition target (.ok ()) (finishing B d tx s 5)
        (finishOps tx (s.file B))
  | after {tx : Transaction} {s : AncestrySnapshot} {r : Except (Stop HistoryError) Unit}
      {d' : BranchFiles} {l : List DiskOp} (ht : d.transaction = some (tx.encode B))
      (hf : Finishable B mmb br store d tx s)
      (h : Attempt B mmb br store (finishing B d tx s 5) condition target r d' l) :
      Advanced B mmb br store d condition target r d' (finishOps tx (s.file B) ++ l)

/-- A consistent branch either has nothing pending or an intent it can finish. -/
theorem Consistent.pending_cases (h : Consistent B mmb br store d) : d.transaction = none ∨
      ∃ tx s, d.transaction = some (tx.encode B) ∧ Finishable B mmb br store d tx s := by
  cases ht : d.transaction with
  | none => exact .inl rfl
  | some b =>
    obtain ⟨tx, s, rfl, hf⟩ := h.transaction b ht
    exact .inr ⟨tx, s, rfl, hf⟩

theorem transaction_finishing_five (B : Blake3) (d : BranchFiles) (tx : Transaction)
    (s : AncestrySnapshot) : (finishing B d tx s 5).transaction = none :=
  (finishing_eq B d tx s 5).2.2.1

theorem tip_finishing_five (B : Blake3) (br : Branch) (d : BranchFiles) (tx : Transaction)
    (s : AncestrySnapshot) : (finishing B d tx s 5).tip br = .ok (some tx.target) :=
  BranchFiles.tip_of_ref (finishing_eq B d tx s 5).2.2.2.1

variable {p q : Proc BranchFiles DiskOp}

theorem exec_recover (hc : Consistent B mmb br store p.disk)
    (hp : p.log = []) (h : exec (Mkit.recover B mmb br store env) p = (r, q)) :
    Recovered B mmb br store p.disk r q.disk q.log := by
  rcases hc.pending_cases with ht | ⟨tx, s, ht, hf⟩
  · rw [Mkit.recover, exec_bind_of_ok (exec_readTransaction_none ht), exec_pure] at h
    cases h
    rw [hp]
    exact .idle ht
  · rw [Mkit.recover, exec_bind_of_ok (exec_readTransaction_some ht hf.fullRef)] at h
    simp only at h
    rcases exec_finish_cases env hf (.inl rfl) with ⟨life, hfin⟩ | ⟨k, life, -, -, hfin⟩
    · rw [exec_bind_of_ok hfin, exec_pure] at h
      cases h
      rw [hp]
      exact .finished ht hf
    · rw [exec_bind_of_error hfin] at h
      cases h
      rw [hp]
      exact .crashed ht hf

theorem exec_advance (hc : Consistent B mmb br store p.disk) (hp : p.log = [])
    (h : exec (Mkit.advance B mmb br store env condition target) p = (r, q)) :
    Advanced B mmb br store p.disk condition target r q.disk q.log := by
  rcases hc.pending_cases with ht | ⟨tx, s, ht, hf⟩
  · rw [Mkit.advance, exec_bind_of_ok (exec_readTransaction_none ht)] at h
    obtain ⟨r', d', l, life, hx, ha⟩ := exec_publishTarget_cases env condition target hc ht
    rw [hx] at h
    cases h
    rw [hp]
    exact .direct ht ha
  · rw [Mkit.advance, exec_bind_of_ok (exec_readTransaction_some ht hf.fullRef)] at h
    simp only at h
    rcases exec_finish_cases env hf (.inl rfl) with ⟨life, hfin⟩ | ⟨k, life, -, -, hfin⟩
    · rw [exec_bind_of_ok hfin] at h
      by_cases hretry : tx.isRetry condition target = true
      · rw [if_pos hretry, exec_pure] at h
        cases h
        rw [hp]
        simp only [Transaction.isRetry, Bool.and_eq_true, beq_iff_eq] at hretry
        exact .retried ht hf hretry.1.symm
      · rw [if_neg hretry] at h
        obtain ⟨r', d', l, life', hx, ha⟩ := exec_publishTarget_cases (p := ⟨finishing B p.disk tx s 5,
          p.log ++ finishOps tx (s.file B), life⟩) env condition target
          (hc.finishing ht hf 5) (transaction_finishing_five _ _ _ _)
        rw [hx] at h
        cases h
        simp only [hp, List.nil_append]
        exact .after ht hf ha
    · rw [exec_bind_of_error hfin] at h
      cases h
      rw [hp]
      exact .interrupted ht hf

/-! ### Consistency along runs -/

theorem BranchFiles.Fresh.consistent (h : d.Fresh) : Consistent B mmb br store d := by
  refine ⟨fun g file hg => ?_, fun b hb => ?_, fun b hb => ?_⟩
  · rw [h.generations g] at hg
    cases hg
  · rw [h.current] at hb
    cases hb
  · rw [h.transaction] at hb
    cases hb

theorem Consistent.setScrub (h : Consistent B mmb br store d) (file : Option Bytes) :
    Consistent B mmb br store { d with scrub := file } := by
  refine ⟨h.generations, h.current, fun b hb => ?_⟩
  obtain ⟨tx, s, hb, hf⟩ := h.transaction b hb
  exact ⟨tx, s, hb, hf.fullRef, hf.identity, hf.tip, hf.snapshot⟩

theorem Consistent.setIntent (h : Consistent B mmb br store d) {id : Option Bytes}
    (hf : Finishable B mmb br store (intended B d id tx) tx s) :
    Consistent B mmb br store (intended B d id tx) :=
  ⟨h.generations, h.current, fun _ hb => ⟨tx, s, (Option.some.inj hb).symm, hf⟩⟩

theorem Attempt.consistent (h : Attempt B mmb br store d condition target r d' l)
    (hc : Consistent B mmb br store d) (ht : d.transaction = none) :
    Consistent B mmb br store d' := by
  cases h with
  | refused id => exact hc.setIdentity ht id
  | noop id => exact hc.setIdentity ht id
  | crashed id hl hcheck htip htarget hf hk => exact (hc.setIntent hf).finishing rfl hf _
  | published id scrub hl hcheck htip htarget hf =>
    exact ((hc.setIntent hf).finishing rfl hf 5).setScrub _

theorem Recovered.consistent (h : Recovered B mmb br store d r d' l)
    (hc : Consistent B mmb br store d) : Consistent B mmb br store d' := by
  cases h with
  | idle => exact hc
  | crashed ht hf => exact hc.finishing ht hf _
  | finished ht hf => exact hc.finishing ht hf 5

theorem Advanced.consistent (h : Advanced B mmb br store d condition target r d' l)
    (hc : Consistent B mmb br store d) : Consistent B mmb br store d' := by
  cases h with
  | direct ht ha => exact ha.consistent hc ht
  | interrupted ht hf => exact hc.finishing ht hf _
  | retried ht hf => exact hc.finishing ht hf 5
  | after ht hf ha =>
    exact ha.consistent (hc.finishing ht hf 5) (transaction_finishing_five _ _ _ _)

variable {w w' : World}

/-- Every event keeps the files consistent. -/
theorem Serves.consistent {e : Event} (h : Serves B mmb br w e w')
    (hc : Consistent B mmb br w.store w.files) : Consistent B mmb br w'.store w'.files := by
  cases h with
  | advance condition target env life hx => exact (exec_advance hc rfl hx).consistent hc
  | recover env life hx => exact (exec_recover hc rfl hx).consistent hc
  | objects hk => exact hc.kept hk
  | scrub file => exact hc.setScrub file

theorem consistent_of_run {tr : List Event} (h₀ : w.files.Fresh)
    (hrun : Lts.Run (Serves B mmb br) w tr w') : Consistent B mmb br w'.store w'.files :=
  Lts.Run.invariant (I := fun _ w' => Consistent B mmb br w'.store w'.files) hrun
    h₀.consistent fun _ _ _ _ hc hs => hs.consistent hc

/-- The current snapshot of consistent files can be read, and holds the chain of its tip. -/
theorem Consistent.readCurrent_eq (h : Consistent B mmb br store d) (hsome : d.current.isSome) :
    ∃ s, d.readCurrent B mmb = .ok (some s) ∧
      firstParentChain B store s.descriptor.tip = .ok s.chain := by
  obtain ⟨b, hb⟩ := Option.isSome_iff_exists.1 hsome
  obtain ⟨g, rfl, -⟩ := h.current b hb
  obtain ⟨file, s, hfile, hs, hgen⟩ := h.holds_current hb
  refine ⟨s, ?_, firstParentChain_eq_ok.2 ⟨hs.chain, hs.wf.length⟩⟩
  have hbuild : AncestrySnapshot.build mmb s.descriptor.repository s.descriptor.fullRef
      s.descriptor.generation s.chain = .ok s :=
    AncestrySnapshot.build_eq_ok.2 ⟨_, _, hs.wf.tip, hs.wf.length, hs.wf.root, by
      rw [← hs.wf.leafCount]⟩
  have hdecode : AncestrySnapshot.decode B mmb file = .ok s := by
    simp only [AncestrySnapshot.decode, hs.file, hs.wf.decode_payload, Bind.bind, Except.bind,
      hbuild, ne_eq, not_true_eq_false, or_self, if_false, Pure.pure, Except.pure]
  have hbound : ¬ file.length > MAX_SNAPSHOT_BYTES := by
    rw [hs.file]
    exact not_lt.2 hs.wf.length_file_le
  simp only [BranchFiles.readCurrent, currentGeneration_eq hb, hfile, readBounded,
    if_neg hbound, hdecode, Bind.bind, Except.bind, hgen, ne_eq, not_true_eq_false, if_false,
    Pure.pure, Except.pure]

end Calls

/-- **Publication is a full walk.** Along every run of a branch, whenever a snapshot is
current it can be read and its chain is the one that walking first parents from its tip over
the objects gives, whichever way it was put together. -/
theorem current_chain_eq_walk (B : Blake3) (mmb : List Hash → Except HistoryError Hash)
    (br : Branch) (w₀ w : World) (tr : List Event) (h₀ : w₀.files.Fresh)
    (hrun : Lts.Run (Serves B mmb br) w₀ tr w) :
    (w.files.current.isSome → ∃ s, w.files.readCurrent B mmb = .ok (some s)) ∧
    ∀ s, w.files.readCurrent B mmb = .ok (some s) →
      firstParentChain B w.store s.descriptor.tip = .ok s.chain ∧
        s.chain.length ≤ MAX_ANCESTRY_LEAVES := by
  have hc := consistent_of_run h₀ hrun
  refine ⟨fun hsome => ?_, fun s hs => ?_⟩
  · obtain ⟨s, hs, -⟩ := hc.readCurrent_eq hsome
    exact ⟨s, hs⟩
  · have hsome : w.files.current.isSome := by
      cases hcur : w.files.current with
      | some b => rfl
      | none =>
        rw [BranchFiles.readCurrent, BranchFiles.currentGeneration, hcur] at hs
        cases hs
    obtain ⟨s', hs', hwalk⟩ := hc.readCurrent_eq hsome
    rw [hs'] at hs
    obtain rfl := Option.some.inj (Except.ok.inj hs)
    exact ⟨hwalk, (firstParentChain_eq_ok.1 hwalk).2⟩

/-! A commit and its child, for evaluated runs. -/

/-- A commit with these parents. -/
def sampleCommit (parents : List Hash) : Object :=
  .commit ⟨ZERO, parents, ⟨.opaqueBytes, [1]⟩, ByteArr.fill 32 0, [], 0, ZERO, ZERO,
    ByteArr.fill 64 0⟩

/-- The id and the bytes of an object. -/
def sampleFile (o : Object) : Hash × Bytes :=
  match serialize o with
  | .ok b => ((objectIdFromBytes toyBlake3 b).getD ZERO, b)
  | .error _ => (ZERO, [])

def sampleGenesis : Hash × Bytes := sampleFile (sampleCommit [])

def sampleChild : Hash × Bytes := sampleFile (sampleCommit [sampleGenesis.1])

def sampleStore : ObjectStore :=
  (AList.insert sampleGenesis.1 ⟨some sampleGenesis.2, none⟩ ∅).insert
    sampleChild.1 ⟨some sampleChild.2, none⟩

def sampleBranch : Branch := ⟨ascii ['m', 'a', 'i', 'n'], by decide, by decide⟩

def sampleFiles : BranchFiles := ⟨none, none, none, none, fun _ => none, none, none⟩

def sampleEnv : Env := ⟨1000, some (ByteArr.fill HASH_LEN 1), some (ByteArr.fill HASH_LEN 2)⟩

/-- A root for evaluated runs. -/
def toyMmb (chain : List Hash) : Except HistoryError Hash :=
  .ok (toyDigest (chain.flatMap ByteArr.bytes))

/-- A publication of the genesis that dies after moving the ref, its recovery, and a fast
forward to the child. -/
theorem current_chain_eq_walk_fast_forward :
    ∃ w tr s, Lts.Run (Serves toyBlake3 toyMmb sampleBranch) ⟨sampleStore, sampleFiles⟩ tr w ∧
      tr.length = 3 ∧ w.files.readCurrent toyBlake3 toyMmb = .ok (some s) ∧
      firstParentChain toyBlake3 w.store s.descriptor.tip = .ok s.chain := by
  have hrun : Lts.Run (Serves toyBlake3 toyMmb sampleBranch) ⟨sampleStore, sampleFiles⟩ _ _ :=
    (((Lts.Run.nil _).snoc (Serves.advance .missing sampleGenesis.1
      sampleEnv (some 2) Prod.mk.eta.symm)).snoc
      (Serves.recover sampleEnv none Prod.mk.eta.symm)).snoc
      (Serves.advance .any sampleChild.1 sampleEnv none Prod.mk.eta.symm)
  have h := current_chain_eq_walk _ _ _ _ _ _ ⟨rfl, rfl, fun _ => rfl⟩ hrun
  obtain ⟨s, hs⟩ := h.1 (by decide +kernel)
  exact ⟨_, _, s, hrun, rfl, hs, (h.2 s hs).1⟩

/-! ### What a run has decided -/

/-- The writes of an event. -/
def Event.log : Event → List DiskOp
  | advance _ _ _ log => log
  | recover _ log => log
  | objects => []
  | scrub => []

/-- The target an event commits the branch to: that of an accepted `advance`, or of one whose
intent became durable. -/
def Event.settles : Event → Option Hash
  | advance _ target (.ok _) _ => some target
  | advance _ target (.error _) log => if (intents log).isEmpty then none else some target
  | _ => none

/-- The target of the last durable intent or of a later accepted `advance`. -/
def lastTarget (tr : List Event) : Option Hash :=
  (tr.filterMap Event.settles).getLast?

/-- The targets of the intents that became durable, in order. -/
def intentTargets (tr : List Event) : List Hash :=
  tr.flatMap fun e => (intents e.log).map (·.target)

/-- Did the event end well? -/
def Event.succeeds : Event → Prop
  | advance _ _ outcome _ => outcome = .ok ()
  | recover outcome _ => outcome = .ok ()
  | _ => False

theorem intents_append (l l' : List DiskOp) : intents (l ++ l') = intents l ++ intents l' :=
  List.filterMap_append

theorem intents_eq_nil {l : List DiskOp} (h : ∀ tx, DiskOp.writeTransaction tx ∉ l) :
    intents l = [] := by
  rw [intents, List.filterMap_eq_nil_iff]
  intro op hop
  cases op with
  | writeTransaction tx => exact absurd hop (h tx)
  | _ => rfl

theorem writeTransaction_notMem_finishOps {tx tx' : Transaction} {file : Bytes} :
    DiskOp.writeTransaction tx' ∉ finishOps tx file := by
  simp [finishOps]

theorem intents_take_finishOps (tx : Transaction) (file : Bytes) (k : ℕ) :
    intents ((finishOps tx file).take k) = [] :=
  intents_eq_nil fun _ hmem => writeTransaction_notMem_finishOps (List.mem_of_mem_take hmem)

theorem intents_finishOps (tx : Transaction) (file : Bytes) : intents (finishOps tx file) = [] :=
  intents_eq_nil fun _ hmem => writeTransaction_notMem_finishOps hmem

theorem lastTarget_snoc (tr : List Event) (e : Event) :
    lastTarget (tr ++ [e]) = e.settles.or (lastTarget tr) := by
  rw [lastTarget, List.filterMap_append]
  cases he : e.settles with
  | none =>
    rw [List.filterMap_cons_none he, List.filterMap_nil, List.append_nil]
    rfl
  | some t =>
    rw [List.filterMap_cons_some he, List.filterMap_nil, List.getLast?_concat]
    rfl

theorem intentTargets_snoc (tr : List Event) (e : Event) :
    intentTargets (tr ++ [e]) = intentTargets tr ++ (intents e.log).map (·.target) := by
  rw [intentTargets, List.flatMap_append, List.flatMap_singleton]
  rfl

section Settled

variable {B : Blake3} {mmb : List Hash → Except HistoryError Hash} {br : Branch}
  {store : ObjectStore} {d d' : BranchFiles} {tx : Transaction} {s : AncestrySnapshot}
  {condition : RefWriteCondition} {target : Hash} {r : Except (Stop HistoryError) Unit}
  {l : List DiskOp} {tr : List Event}

/-- The writes of an attempt whose intent became durable. -/
theorem intents_attempt {rest : List DiskOp} (hl : ∀ tx, DiskOp.writeTransaction tx ∉ l)
    (hrest : intents rest = []) : intents (l ++ .writeTransaction tx :: rest) = [tx] := by
  rw [intents_append, intents_eq_nil hl]
  exact congrArg (List.cons tx) hrest

theorem intents_published {scrub : ScrubState} (file : Bytes) :
    intents (finishOps tx file ++ [.writeScrub scrub]) = [] := by
  rw [intents_append, intents_finishOps]
  rfl

/-- The intent in a branch's file is the one that was written. -/
theorem eq_of_transaction_eq {tx' : Transaction} (h : d.transaction = some (tx.encode B))
    (h' : d.transaction = some (tx'.encode B)) (hf : tx.fullRef = br.fullRef)
    (hf' : tx'.fullRef = br.fullRef) : tx = tx' := by
  have heq : tx.encode B = tx'.encode B := Option.some.inj (h.symm.trans h')
  have hread := Transaction.read_encode B br hf
  rw [heq, Transaction.read_encode B br hf'] at hread
  exact (Option.some.inj (Except.ok.inj hread)).symm

/-- With nothing pending the ref is where the run has committed it to; else the pending
intent leads there. -/
def Settled (B : Blake3) (br : Branch) (tr : List Event) (d : BranchFiles) : Prop :=
  (d.transaction = none ∧ ∀ t, lastTarget tr = some t → d.tip br = .ok (some t)) ∨
  ∃ tx : Transaction, d.transaction = some (tx.encode B) ∧ tx.fullRef = br.fullRef ∧
    lastTarget tr = some tx.target

/-- Writes on the way of finishing the pending intent commit to nothing new. -/
theorem Settled.finishing (h : Settled B br tr d) (ht : d.transaction = some (tx.encode B))
    (hf : tx.fullRef = br.fullRef) (k : ℕ) : Settled B br tr (finishing B d tx s k) := by
  obtain ⟨-, -, htx, href, -, -⟩ := finishing_eq B d tx s k
  rcases h with ⟨hnone, -⟩ | ⟨tx', htx', hf', hlast⟩
  · rw [hnone] at ht
    cases ht
  · obtain rfl := eq_of_transaction_eq ht htx' hf hf'
    by_cases hk : k < 5
    · rw [if_pos hk] at htx
      exact .inr ⟨tx, htx.trans ht, hf, hlast⟩
    · rw [if_neg hk] at htx
      rw [if_neg (by omega)] at href
      refine .inl ⟨htx, fun t hlast' => ?_⟩
      rw [BranchFiles.tip_of_ref href, Option.some.inj (hlast.symm.trans hlast')]

variable {e : Event}

/-- An event that commits to nothing and leaves intent and ref alone keeps `Settled`. -/
theorem Settled.of_eq (h : Settled B br tr d) (he : e.settles = none)
    (ht : d'.transaction = d.transaction) (hr : d'.ref = d.ref) : Settled B br (tr ++ [e]) d' := by
  rw [Settled, lastTarget_snoc, he, ht, BranchFiles.tip, hr]
  exact h

/-- An attempt commits to its target exactly when it is accepted or its intent is durable. -/
theorem Settled.attempt (h : Settled B br tr d) (ht : d.transaction = none)
    (ha : Attempt B mmb br store d condition target r d' l) {l₀ : List DiskOp}
    (hl₀ : intents l₀ = []) : Settled B br (tr ++ [.advance condition target r (l₀ ++ l)]) d' := by
  cases ha with
  | refused id hl =>
    refine h.of_eq ?_ rfl rfl
    rw [Event.settles, intents_append, hl₀, intents_eq_nil hl]
    rfl
  | noop id hl hcheck htip =>
    refine .inl ⟨ht, fun t hlast => ?_⟩
    rw [lastTarget_snoc] at hlast
    obtain rfl := Option.some.inj hlast
    exact htip
  | @crashed id l tx s k hl hcheck htip htarget hf hk =>
    have hlast : lastTarget (tr ++ [.advance condition target (.error .crashed)
        (l₀ ++ (l ++ .writeTransaction tx :: (finishOps tx (s.file B)).take k))]) =
        some tx.target := by
      rw [lastTarget_snoc, Event.settles, intents_append, hl₀,
        intents_attempt hl (intents_take_finishOps _ _ _), htarget]
      rfl
    have hset : Settled B br _ (intended B d id tx) := .inr ⟨tx, rfl, hf.fullRef, hlast⟩
    exact hset.finishing rfl hf.fullRef k
  | @published id l tx s scrub hl hcheck htip htarget hf =>
    refine .inl ⟨transaction_finishing_five B (intended B d id tx) tx s, fun t hlast => ?_⟩
    rw [lastTarget_snoc] at hlast
    obtain rfl := Option.some.inj hlast
    exact htarget ▸ tip_finishing_five B br (intended B d id tx) tx s

theorem Recovered.settled (hr : Recovered B mmb br store d r d' l)
    (h : Settled B br tr d) : Settled B br (tr ++ [.recover r l]) d' := by
  cases hr with
  | idle => exact h.of_eq rfl rfl rfl
  | crashed ht hf => exact (h.finishing ht hf.fullRef _).of_eq rfl rfl rfl
  | finished ht hf => exact (h.finishing ht hf.fullRef 5).of_eq rfl rfl rfl

theorem Advanced.settled (ha : Advanced B mmb br store d condition target r d' l)
    (h : Settled B br tr d) : Settled B br (tr ++ [.advance condition target r l]) d' := by
  cases ha with
  | direct ht ha => exact Settled.attempt h ht ha (show intents [] = [] from rfl)
  | @interrupted tx s k ht hf =>
    refine (h.finishing ht hf.fullRef k).of_eq ?_ rfl rfl
    rw [Event.settles, intents_take_finishOps]
    rfl
  | @retried tx s ht hf htarget =>
    refine .inl ⟨transaction_finishing_five B d tx s, fun t hlast => ?_⟩
    rw [lastTarget_snoc] at hlast
    obtain rfl := Option.some.inj hlast
    exact htarget ▸ tip_finishing_five B br d tx s
  | after ht hf ha =>
    exact (h.finishing ht hf.fullRef 5).attempt (transaction_finishing_five _ _ _ _) ha
      (intents_finishOps _ _)

variable {w w' : World}

/-- Every event keeps `Settled`. -/
theorem Serves.settled (hs : Serves B mmb br w e w')
    (hc : Consistent B mmb br w.store w.files) (h : Settled B br tr w.files) :
    Settled B br (tr ++ [e]) w'.files := by
  cases hs with
  | objects hk => exact h.of_eq rfl rfl rfl
  | scrub file => exact h.of_eq rfl rfl rfl
  | recover env life hx => exact (exec_recover hc rfl hx).settled h
  | advance condition target env life hx => exact (exec_advance hc rfl hx).settled h

/-- The ref is at one of these targets, and the pending intent leads to one of them. -/
structure Within (B : Blake3) (br : Branch) (ts : List Hash) (d : BranchFiles) : Prop where
  tip : ∃ t ∈ ts, d.tip br = .ok (some t)
  transaction : ∀ b, d.transaction = some b →
    ∃ tx : Transaction, b = tx.encode B ∧ tx.fullRef = br.fullRef ∧ tx.target ∈ ts

variable {ts ts' : List Hash}

theorem Within.of_eq (h : Within B br ts d) (hts : ts ⊆ ts')
    (ht : d'.transaction = d.transaction) (hr : d'.ref = d.ref) : Within B br ts' d' := by
  refine ⟨?_, fun b hb => ?_⟩
  · obtain ⟨t, hmem, htip⟩ := h.tip
    refine ⟨t, hts hmem, ?_⟩
    rw [BranchFiles.tip, hr]
    exact htip
  · obtain ⟨tx, hb, hf, hmem⟩ := h.transaction b (ht ▸ hb)
    exact ⟨tx, hb, hf, hts hmem⟩

theorem Within.finishing (h : Within B br ts d)
    (ht : d.transaction = some (tx.encode B)) (hf : tx.fullRef = br.fullRef) (k : ℕ) :
    Within B br ts (finishing B d tx s k) := by
  obtain ⟨-, -, htx, href, -, -⟩ := finishing_eq B d tx s k
  obtain ⟨tx', hb, hf', hmem⟩ := h.transaction _ ht
  obtain rfl := eq_of_transaction_eq ht (ht.trans (congrArg some hb)) hf hf'
  refine ⟨?_, fun b hb => ?_⟩
  · by_cases hk : k < 2
    · rw [if_pos hk] at href
      obtain ⟨t, hmem', htip⟩ := h.tip
      refine ⟨t, hmem', ?_⟩
      rw [BranchFiles.tip, href]
      exact htip
    · rw [if_neg hk] at href
      exact ⟨tx.target, hmem, BranchFiles.tip_of_ref href⟩
  · rw [htx] at hb
    by_cases hk : k < 5
    · rw [if_pos hk] at hb
      exact h.transaction b hb
    · rw [if_neg hk] at hb
      cases hb

theorem Within.attempt (h : Within B br ts d)
    (ha : Attempt B mmb br store d condition target r d' l) (hts : ts ⊆ ts')
    (hl : ∀ tx ∈ intents l, tx.target ∈ ts') : Within B br ts' d' := by
  have hset : ∀ {id : Option Bytes} {tx : Transaction}, tx.fullRef = br.fullRef →
      tx.target ∈ ts' → Within B br ts' (intended B d id tx) := by
    intro id tx hf hmem
    obtain ⟨t, hmem', htip⟩ := h.tip
    exact ⟨⟨t, hts hmem', htip⟩, fun b hb => ⟨tx, (Option.some.inj hb).symm, hf, hmem⟩⟩
  cases ha with
  | refused id => exact h.of_eq hts rfl rfl
  | noop id => exact h.of_eq hts rfl rfl
  | @crashed id l tx s k hl' hcheck htip htarget hf hk =>
    have hmem : tx ∈ intents (l ++ .writeTransaction tx :: (finishOps tx (s.file B)).take k) := by
      rw [intents_attempt hl' (intents_take_finishOps _ _ _)]
      exact List.mem_singleton.2 rfl
    exact (hset hf.fullRef (hl tx hmem)).finishing rfl hf.fullRef k
  | @published id l tx s scrub hl' hcheck htip htarget hf =>
    have hmem : tx ∈ intents (l ++ .writeTransaction tx ::
        (finishOps tx (s.file B) ++ [.writeScrub scrub])) := by
      rw [intents_attempt hl' (intents_published _)]
      exact List.mem_singleton.2 rfl
    have hin : Within B br ts' (intended B d id tx) := hset hf.fullRef (hl tx hmem)
    have hfin : Within B br ts' (Mkit.finishing B (intended B d id tx) tx s 5) :=
      hin.finishing rfl hf.fullRef 5
    exact hfin.of_eq (List.Subset.refl _) rfl rfl

theorem Recovered.within (hr : Recovered B mmb br store d r d' l)
    (h : Within B br ts d) : Within B br ts d' := by
  cases hr with
  | idle => exact h
  | crashed ht hf => exact h.finishing ht hf.fullRef _
  | finished ht hf => exact h.finishing ht hf.fullRef 5

theorem Advanced.within
    (ha : Advanced B mmb br store d condition target r d' l) (h : Within B br ts d)
    (hts : ts ⊆ ts') (hl : ∀ tx ∈ intents l, tx.target ∈ ts') : Within B br ts' d' := by
  cases ha with
  | direct ht ha => exact h.attempt ha hts hl
  | interrupted ht hf => exact (h.finishing ht hf.fullRef _).of_eq hts rfl rfl
  | retried ht hf => exact (h.finishing ht hf.fullRef 5).of_eq hts rfl rfl
  | after ht hf ha =>
    refine (h.finishing ht hf.fullRef 5).attempt ha hts ?_
    intro tx htx
    refine hl tx ?_
    rw [intents_append]
    exact List.mem_append_right _ htx

/-- Only a durable intent takes the ref anywhere new. -/
theorem Serves.within (hs : Serves B mmb br w e w') (hc : Consistent B mmb br w.store w.files)
    (h : Within B br ts w.files) : Within B br (ts ++ (intents e.log).map (·.target)) w'.files := by
  have hsub : ts ⊆ ts ++ (intents e.log).map (·.target) := List.subset_append_left _ _
  have hmem : ∀ tx ∈ intents e.log, tx.target ∈ ts ++ (intents e.log).map (·.target) :=
    fun tx htx => List.mem_append_right _ (List.mem_map_of_mem htx)
  cases hs with
  | objects hk => exact h.of_eq hsub rfl rfl
  | scrub file => exact h.of_eq hsub rfl rfl
  | recover env life hx => exact ((exec_recover hc rfl hx).within h).of_eq hsub rfl rfl
  | advance condition target env life hx => exact (exec_advance hc rfl hx).within h hsub hmem

/-! ### Refused and repeated calls -/

/-- A call whose condition does not hold after the pending intent is finished does no more
than finish it. -/
theorem exec_advance_of_check_error {env : Env} {p q : Proc BranchFiles DiskOp} {e : RefError}
    (hrec : exec (Mkit.recover B mmb br store env) p = (.ok (), q))
    (hcheck : q.disk.check br condition = .error e) :
    (exec (Mkit.advance B mmb br store env condition target) p).2 = q := by
  have hpub : exec (publishTarget B mmb br store env condition target) q =
      (.error (.failed (.ref e)), q) := by
    rw [publishTarget, exec_observe_bind, hcheck]
    rfl
  rw [Mkit.recover, exec_bind] at hrec
  rw [Mkit.advance, exec_bind]
  rcases hread : exec (readTransaction B) p with ⟨e' | tx?, p'⟩
  · rw [hread] at hrec
    cases hrec
  · rw [hread] at hrec
    cases tx? with
    | none =>
      cases hrec
      exact congrArg Prod.snd hpub
    | some tx =>
      simp only [exec_bind] at hrec ⊢
      rcases hfin : exec (finish B mmb br store env tx none) p' with ⟨e' | s, p''⟩
      · rw [hfin] at hrec
        cases hrec
      · rw [hfin] at hrec
        cases hrec
        simp only
        by_cases hretry : tx.isRetry condition target = true
        · rw [if_pos hretry, exec_pure]
        · rw [if_neg hretry]
          exact congrArg Prod.snd hpub

/-- A call that was let through by its condition recognises its own intent. -/
theorem isRetry_of_check (hcheck : d.check br condition = .ok ())
    (htip : d.tip br = .ok tx.previous) (htarget : tx.target = target) :
    tx.isRetry condition target = true := by
  cases condition with
  | any =>
    rw [Transaction.isRetry, htarget, beq_self_eq_true]
    rfl
  | missing =>
    rw [Transaction.isRetry, htarget, beq_self_eq_true, Bool.true_and]
    cases href : d.ref with
    | none =>
      rw [BranchFiles.tip, href] at htip
      rw [← Except.ok.inj htip]
      rfl
    | some b =>
      rw [BranchFiles.check, href] at hcheck
      cases hcheck
  | matching expected =>
    rw [Transaction.isRetry, htarget, beq_self_eq_true, Bool.true_and]
    rw [BranchFiles.check, htip] at hcheck
    by_cases heq : tx.previous = some expected
    · rw [heq]
      exact beq_self_eq_true _
    · simp [heq, Functor.map, Except.map, Bind.bind, Except.bind] at hcheck

/-- A call that died with its intent pending is carried through by its repetition, without
another intent. -/
theorem exec_advance_retry (env : Env) {k : ℕ} (hk : k < 5)
    (ht : d.transaction = some (tx.encode B)) (hf : Finishable B mmb br store d tx s)
    (hretry : tx.isRetry condition target = true) :
    exec (Mkit.advance B mmb br store env condition target)
        ⟨finishing B d tx s k, [], none⟩ =
      (.ok (), ⟨finishing B (finishing B d tx s k) tx s 5, finishOps tx (s.file B), none⟩) := by
  have htx : (finishing B d tx s k).transaction = some (tx.encode B) := by
    rw [(finishing_eq B d tx s k).2.2.1, if_pos hk, ht]
  have hread : exec (readTransaction B)
      (⟨finishing B d tx s k, [], none⟩ : Proc BranchFiles DiskOp) = (.ok (some tx), _) :=
    exec_readTransaction_some htx hf.fullRef
  have hfin := exec_finish_of_none env (p := ⟨finishing B d tx s k, [], none⟩)
    (hf.finishing k) (.inl rfl) rfl
  rw [Mkit.advance, exec_bind_of_ok hread]
  simp only
  rw [exec_bind_of_ok hfin, if_pos hretry, exec_pure]
  rfl

/-- Once a publication is complete, a call for the same target writes nothing: it is judged
by its condition alone. -/
theorem exec_advance_published (env : Env) (life : Option ℕ)
    (hf : Finishable B mmb br store d tx s) (htarget : tx.target = target) :
    exec (Mkit.advance B mmb br store env condition target) ⟨finishing B d tx s 5, [], life⟩ =
      ((((finishing B d tx s 5).check br condition).mapError fun e => .failed (.ref e)),
        ⟨finishing B d tx s 5, [], life⟩) := by
  set p : Proc BranchFiles DiskOp := ⟨finishing B d tx s 5, [], life⟩ with hp
  obtain ⟨-, -, htx, -, hgens, hcur⟩ := finishing_eq B d tx s 5
  obtain ⟨hholds, hrepo, hgen, htip⟩ := hf.holds
  have hread : exec (readTransaction B) p = (.ok none, p) := exec_readTransaction_none htx
  have hdescr : p.disk.readCurrentDescriptor = .ok (some s.descriptor) := by
    refine readCurrentDescriptor_eq hcur ?_ hholds hgen
    rw [hgens]
    exact Function.update_self _ _ _
  have hid : p.disk.readRepositoryId = .ok (some tx.repository) := (hf.finishing 5).identity
  have htipd : p.disk.tip br = .ok (some target) := htarget ▸ tip_finishing_five B br d tx s
  rw [Mkit.advance, exec_bind_of_ok hread]
  simp only
  rw [publishTarget, exec_observe_bind]
  cases hcheck : p.disk.check br condition with
  | error e => rfl
  | ok u =>
    simp only [Except.mapError]
    rw [exec_observe_bind, htipd]
    simp only
    rw [exec_bind_of_ok (exec_repositoryId hid), exec_observe_bind, hdescr]
    simp only
    have hnoop : ((some s.descriptor).filter fun descr =>
        descr.repository = tx.repository ∧ descr.fullRef = br.fullRef ∧
          some descr.tip = some target).any (·.tip = target) = true := by
      simp [Option.filter_some, hrepo, hholds.wf.fullRef, htip, htarget]
    rw [if_pos hnoop, exec_pure]

/-- A call that ends well leaves nothing pending. -/
theorem Advanced.transaction_of_ok
    (h : Advanced B mmb br store d condition target (.ok ()) d' l) : d'.transaction = none := by
  have hattempt : ∀ {d d' l}, d.transaction = none →
      Attempt B mmb br store d condition target (.ok ()) d' l → d'.transaction = none := by
    intro d d' l ht ha
    cases ha with
    | noop id => exact ht
    | @published id l tx s scrub hl hcheck htip htarget hf =>
      exact transaction_finishing_five B (intended B d id tx) tx s
  cases h with
  | direct ht ha => exact hattempt ht ha
  | retried ht hf => exact transaction_finishing_five _ _ _ _
  | after ht hf ha => exact hattempt (transaction_finishing_five _ _ _ _) ha

theorem Recovered.transaction_of_ok (h : Recovered B mmb br store d (.ok ()) d' l) :
    d'.transaction = none := by
  cases h with
  | idle ht => exact ht
  | finished ht hf => exact transaction_finishing_five _ _ _ _

theorem Serves.transaction_of_succeeds
    (hs : Serves B mmb br w e w') (hc : Consistent B mmb br w.store w.files)
    (he : e.succeeds) : w'.files.transaction = none := by
  cases hs with
  | objects => exact he.elim
  | scrub => exact he.elim
  | recover env life hx =>
    rw [Event.succeeds] at he
    subst he
    exact (exec_recover hc rfl hx).transaction_of_ok
  | advance condition target env life hx =>
    rw [Event.succeeds] at he
    subst he
    exact (exec_advance hc rfl hx).transaction_of_ok

/-- Along a run the files are consistent and settled. -/
theorem settled_of_run (h₀ : w.files.Fresh) (hrun : Lts.Run (Serves B mmb br) w tr w') :
    Consistent B mmb br w'.store w'.files ∧ Settled B br tr w'.files := by
  refine Lts.Run.invariant (I := fun tr w' => Consistent B mmb br w'.store w'.files ∧
    Settled B br tr w'.files) hrun ⟨h₀.consistent, .inl ⟨h₀.transaction, ?_⟩⟩ ?_
  · intro t ht
    cases ht
  · rintro tr w e w' ⟨hc, hset⟩ hs
    exact ⟨hs.consistent hc, hs.settled hc hset⟩

/-- After an accepted call the ref is where it put it, or where a later intent leads. -/
theorem within_of_accepted {tr₁ tr₂ : List Event} {log : List DiskOp} (h₀ : w.files.Fresh)
    (hrun : Lts.Run (Serves B mmb br) w
      (tr₁ ++ .advance condition target (.ok ()) log :: tr₂) w') :
    Within B br (target :: intentTargets tr₂) w'.files := by
  rw [List.append_cons] at hrun
  obtain ⟨w₁, hrun₁, hrun₂⟩ := hrun.split
  obtain ⟨hc₁, hset⟩ := settled_of_run h₀ hrun₁
  obtain ⟨w₂, hrun₀, hs⟩ := hrun₁.snoc_inv
  have hnone := hs.transaction_of_succeeds (settled_of_run h₀ hrun₀).1 rfl
  have hstart : Within B br (target :: intentTargets []) w₁.files := by
    rcases hset with ⟨-, htip⟩ | ⟨tx, htx, -⟩
    · refine ⟨⟨target, List.mem_cons_self, htip target ?_⟩, fun b hb => ?_⟩
      · rw [lastTarget_snoc]
        rfl
      · rw [hnone] at hb
        cases hb
    · rw [hnone] at htx
      cases htx
  have hinv : Consistent B mmb br w'.store w'.files ∧
      Within B br (target :: intentTargets tr₂) w'.files := by
    refine Lts.Run.invariant (I := fun tr w' => Consistent B mmb br w'.store w'.files ∧
      Within B br (target :: intentTargets tr) w'.files) hrun₂ ⟨hc₁, hstart⟩ ?_
    rintro tr w e w' ⟨hc, hw⟩ hs
    refine ⟨hs.consistent hc, ?_⟩
    rw [intentTargets_snoc, ← List.cons_append]
    exact hs.within hc hw
  exact hinv.2

/-- A call that died with its intent durable was making an attempt of its own. -/
theorem Advanced.crashed_cases
    (h : Advanced B mmb br store d condition target (.error .crashed) d' l) (hl : intents l ≠ []) :
    ∃ d₀ tx s k, k ≤ 5 ∧ d' = finishing B d₀ tx s k ∧
      d₀.transaction = some (tx.encode B) ∧ Finishable B mmb br store d₀ tx s ∧
      tx.target = target ∧ tx.isRetry condition target = true := by
  have hattempt : ∀ {d d' l}, Attempt B mmb br store d condition target (.error .crashed) d' l →
      ∃ d₀ tx s k, k ≤ 5 ∧ d' = finishing B d₀ tx s k ∧
        d₀.transaction = some (tx.encode B) ∧ Finishable B mmb br store d₀ tx s ∧
        tx.target = target ∧ tx.isRetry condition target = true := by
    intro d d' l ha
    cases ha with
    | crashed id hl hcheck htip htarget hf hk =>
      exact ⟨_, _, _, _, hk, rfl, rfl, hf, htarget, isRetry_of_check hcheck htip htarget⟩
  cases h with
  | direct ht ha => exact hattempt ha
  | interrupted ht hf => exact absurd (intents_take_finishOps _ _ _) hl
  | after ht hf ha => exact hattempt ha

end Settled

/-- **Publication is crash-atomic.** Along every run of a branch: after a call that ends well
nothing is pending and the ref is at the target of the last durable intent or of a later
accepted call; an accepted call is never undone, the ref moves on from it only by a later
durable intent; a call whose condition does not hold once the pending intent is finished
changes nothing further; and a call that died with its own intent durable, when repeated, is
carried through without another intent while the intent is still there. If it died after its
intent was removed, the publication is complete, and the repetition writes nothing and is
judged by its condition against the ref it finds. -/
theorem publication_crash_atomic (B : Blake3) (mmb : List Hash → Except HistoryError Hash)
    (br : Branch) (w₀ w : World) (tr : List Event) (h₀ : w₀.files.Fresh)
    (hrun : Lts.Run (Serves B mmb br) w₀ tr w) :
    (∀ tr' e, tr = tr' ++ [e] → e.succeeds → w.files.transaction = none ∧
      ∀ t, lastTarget tr = some t → w.files.tip br = .ok (some t)) ∧
    (∀ tr₁ tr₂ condition target log,
      tr = tr₁ ++ .advance condition target (.ok ()) log :: tr₂ →
      ∃ t ∈ target :: intentTargets tr₂, w.files.tip br = .ok (some t)) ∧
    (∀ env life condition target q e,
      exec (recover B mmb br w.store env) ⟨w.files, [], life⟩ = (.ok (), q) →
      q.disk.check br condition = .error e →
      (exec (advance B mmb br w.store env condition target) ⟨w.files, [], life⟩).2 = q) ∧
    (∀ env life condition target q,
      exec (advance B mmb br w.store env condition target) ⟨w.files, [], life⟩ =
        (.error .crashed, q) →
      intents q.log ≠ [] → ∀ store' env', ObjectStore.Kept B w.store store' →
      (q.disk.transaction.isSome → ∃ q',
        exec (advance B mmb br store' env' condition target) ⟨q.disk, [], none⟩ = (.ok (), q') ∧
        intents q'.log = [] ∧ q'.disk.transaction = none ∧
        q'.disk.tip br = .ok (some target)) ∧
      (q.disk.transaction = none → ∀ life',
        exec (advance B mmb br store' env' condition target) ⟨q.disk, [], life'⟩ =
          ((q.disk.check br condition).mapError (fun e => .failed (.ref e)),
            ⟨q.disk, [], life'⟩))) := by
  obtain ⟨hc, hset⟩ := settled_of_run h₀ hrun
  refine ⟨?_, ?_, ?_, ?_⟩
  · rintro tr' e rfl he
    obtain ⟨w', hrun', hs⟩ := hrun.snoc_inv
    have hnone := hs.transaction_of_succeeds (settled_of_run h₀ hrun').1 he
    refine ⟨hnone, ?_⟩
    rcases hset with ⟨-, htip⟩ | ⟨tx, htx, -⟩
    · exact htip
    · rw [hnone] at htx
      cases htx
  · rintro tr₁ tr₂ condition target log rfl
    exact (within_of_accepted h₀ hrun).tip
  · intro env life condition target q e hrec hcheck
    exact exec_advance_of_check_error hrec hcheck
  · intro env life condition target q hx hlog store' env' hk
    obtain ⟨d₀, tx, s, k, hk5, hd, htx, hf, htarget, hretry⟩ :=
      (exec_advance hc rfl hx).crashed_cases hlog
    rw [hd]
    constructor
    · intro hsome
      have hk' : k < 5 := by
        by_contra hge
        rw [(finishing_eq B d₀ tx s k).2.2.1, if_neg hge] at hsome
        cases hsome
      refine ⟨_, exec_advance_retry env' hk' htx (hf.kept hk) hretry, intents_finishOps _ _,
        transaction_finishing_five _ _ _ _, ?_⟩
      exact htarget ▸ tip_finishing_five _ _ _ _ _
    · intro hnone life'
      have hk' : k = 5 := by
        by_contra hne
        rw [(finishing_eq B d₀ tx s k).2.2.1, if_pos (by omega), htx] at hnone
        cases hnone
      subst hk'
      exact exec_advance_published env' life' (hf.kept hk) htarget

/-- A publication that dies after moving the ref, and its recovery. -/
theorem publication_crash_atomic_recovered :
    ∃ w tr, Lts.Run (Serves toyBlake3 toyMmb sampleBranch) ⟨sampleStore, sampleFiles⟩ tr w ∧
      tr.length = 2 ∧ w.files.transaction = none ∧
      w.files.tip sampleBranch = .ok (some sampleGenesis.1) := by
  have hrun : Lts.Run (Serves toyBlake3 toyMmb sampleBranch) ⟨sampleStore, sampleFiles⟩ _ _ :=
    ((Lts.Run.nil _).snoc (Serves.advance .missing sampleGenesis.1
      sampleEnv (some 2) Prod.mk.eta.symm)).snoc
      (Serves.recover sampleEnv none Prod.mk.eta.symm)
  have h := publication_crash_atomic _ _ _ _ _ _ ⟨rfl, rfl, fun _ => rfl⟩ hrun
  obtain ⟨hnone, htip⟩ := h.1 _ _ rfl (by rw [Event.succeeds]; decide +kernel)
  exact ⟨_, _, hrun, rfl, hnone, htip _ (by decide +kernel)⟩

/-- A call that creates the branch and dies at its last checkpoint has published; repeated, it
meets the ref it made and is refused. -/
theorem repeated_call_conflicts :
    ∃ q, exec (advance toyBlake3 toyMmb sampleBranch sampleStore sampleEnv .missing
        sampleGenesis.1) ⟨sampleFiles, [], some 5⟩ = (.error .crashed, q) ∧
      (exec (advance toyBlake3 toyMmb sampleBranch sampleStore sampleEnv .missing
        sampleGenesis.1) ⟨q.disk, [], none⟩).1 =
        .error (.failed (.ref (.conflict sampleBranch.name))) := by
  generalize hx : exec (advance toyBlake3 toyMmb sampleBranch sampleStore sampleEnv .missing
    sampleGenesis.1) ⟨sampleFiles, [], some 5⟩ = x
  have hcrash : x.1 = .error .crashed := by
    rw [← hx]
    decide +kernel
  refine ⟨x.2, by rw [← hcrash], ?_⟩
  rw [← hx]
  decide +kernel

end Mkit
