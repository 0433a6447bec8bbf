import Mkit.Bisect
import Mkit.Lib.BinarySearch
import Mkit.MergeBase
import Mkit.PushPacks

/-!
# Splitting a Push

A push that needs more packs than one advance may carry is split along the first parents of its
tip (`push/split.rs`): `planPushSteps` chooses the commits that the remote head is advanced
through. `walkChain` collects the first parents down to what the remote holds, `cumulativeWeights`
sizes what each adds, and `cut` ends one step: at least where the weight says that a step must fit,
and further if a real plan does.

The caller can cancel at many places. Each of them has a name of its own here, a `Checkpoint`, and
a control says at which of them the caller cancels.
-/

namespace Mkit.PushSplit

open BinarySearch Gathering Pack Transfer

/-! ### Controls -/

/-- Where the caller is asked whether to go on. -/
inductive Checkpoint where
  /-- Before a commit of the chain is read, after so many. -/
  | walk (commits : ℕ)
  /-- Before a commit of the chain is weighed, after so many. -/
  | weigh (commits : ℕ)
  /-- Before a step between two positions is planned, to see how far it can go. -/
  | search (start stop : ℕ)
  /-- Before a step that is forced is planned. -/
  | verify (start stop : ℕ)
  /-- Before one of the packs of a forced step is sealed. -/
  | seal (start stop packs : ℕ)
deriving DecidableEq

/-- The grants of a caller, for the first advance of a push and all later ones. -/
structure StepAuthority where
  authorize : String → RefWriteCondition → Bool → Except String Unit

/-- The knobs and hooks of one push. -/
structure PushControl where
  cancelled : Checkpoint → Bool
  authority : Option StepAuthority
  max_steps : ℕ
  max_chain : ℕ
  /-- Commits whose parents are not part of this repository. -/
  shallow : Finset Hash

/-- The first-parent commits between the remote's history and the tip. -/
structure Chain where
  /-- Oldest first; the last is the tip. -/
  commits : List Hash
  /-- What the remote holds of the history below them. -/
  seed : Finset Hash

/-- The commit at a position; positions count from one. -/
def Chain.commit (chain : Chain) (position : ℕ) : Hash :=
  chain.commits.getD (position - 1) ZERO

def tooLargeToSplit : PushError :=
  .pushSplitLimit ("the history is too large to split (" ++ toString MAX_REACHABLE ++
    " objects or more); no advance of this branch was published")

def chainTooLong (max_chain : ℕ) : PushError :=
  .pushSplitLimit ("the first-parent history between the remote and the local tip is longer than " ++
    toString max_chain ++ " commits, too long to split; no advance of this branch was published")

def tooManySteps (max_steps : ℕ) : PushError :=
  .pushSplitLimit ("this push would need more than " ++ toString max_steps ++
    " advances; no advance of this branch was published. " ++
    "Ask the operator to raise max_pack_bytes, or push an ancestor commit first")

section Model

variable (B : Blake3) (Z : Zstd) (fanout : ℕ) (store : ObjectStore) (ctl : PushControl)

/-- Go on, unless the caller cancels here. -/
def checkpoint (c : Checkpoint) : Except PushError Unit :=
  if ctl.cancelled c then .error (.sync .interrupted) else .ok ()

/-! ### The chain -/

def firstParent : Object → Option Hash
  | .commit c => c.parents.head?
  | .remix r => r.parents.head?
  | _ => none

/-- The closure of `root`, or nothing when the store lacks part of it. One too large to enumerate
is refused. -/
def heldClosure (root : Option Hash) : Except PushError (Finset Hash) :=
  match root.filter (store.contains ·) with
  | none => .ok ∅
  | some root =>
    match reachableClosureChecked B store [root] with
    | .ok (set, false) => .ok set
    | .ok (_, true) => .error tooLargeToSplit
    | .error (.objectNotFound _) => .ok ∅
    | .error e => .error (.sync (.store e))

/-- The loop of `walkChain`, with `room` commits left under the bound: the commits above, oldest
first, and the held commit it ended at. -/
def walkFrom (held : Finset Hash) : ℕ → Hash → List Hash →
    Except PushError (List Hash × Option Hash)
  | room, cursor, commits =>
    if cursor ∈ held then .ok (commits, some cursor)
    else
      match room with
      | 0 => .error (chainTooLong ctl.max_chain)
      | room + 1 => do
        checkpoint ctl (.walk commits.length)
        if cursor ∈ ctl.shallow then pure (cursor :: commits, none)
        else do
          let obj ← ofStore (store.readObject B cursor)
          match firstParent obj with
          | some parent => walkFrom held room parent (cursor :: commits)
          | none => pure (cursor :: commits, none)

/-- Walk the first parents of `tip` down to the first commit the remote holds. -/
def walkChain (tip : Hash) (remote_tip : Option Hash) : Except PushError Chain := do
  let held ← heldClosure B store remote_tip
  let (commits, base) ← walkFrom B store ctl held ctl.max_chain tip []
  let seed ← if base.isSome ∧ base = remote_tip then pure held else heldClosure B store base
  pure ⟨commits, seed⟩

/-! ### Weights -/

/-- What an object leads to. The parents of a shallow commit are not in this repository. -/
def splitSuccessors (hash : Hash) : Except StoreError (List Hash) :=
  successors B (if hash ∈ ctl.shallow then .snapshot else .history) store hash

/-- Visit what is new from a stack of objects, and add up its size in frames. `room` more objects
may be seen. -/
def sweep : ℕ → List Hash → Finset Hash → ℕ → Except PushError (Finset Hash × ℕ)
  | room, stack, seen, total =>
    match stack.dropWhile (· ∈ seen) with
    | [] => .ok (seen, total)
    | hash :: rest =>
      match room with
      | 0 => .error tooLargeToSplit
      | room + 1 => do
        let len ← ofStore (store.objectLen hash)
        let next ← ofStore (splitSuccessors B store ctl hash)
        sweep room (next.reverse ++ rest) (insert hash seen)
          (saturatingAdd (saturatingAdd total len) ENTRY_FRAME_LEN)

/-- The loop of `cumulativeWeights` over the commits from the `j`-th on. -/
def cumulativeFrom : List Hash → ℕ → Finset Hash → ℕ → Except PushError (List ℕ)
  | [], _, _, _ => .ok []
  | commit :: commits, j, seen, total => do
    checkpoint ctl (.weigh j)
    let (seen, total) ← sweep B store ctl (MAX_REACHABLE - seen.card) [commit] seen total
    let rest ← cumulativeFrom commits (j + 1) seen total
    pure (total :: rest)

/-- What the first `j` commits of the chain add to the seed, for every `j`. -/
def cumulativeWeights (chain : Chain) : Except PushError (List ℕ) := do
  let weights ← cumulativeFrom B store ctl chain.commits 0 chain.seed 0
  pure (0 :: weights)

/-! ### Cuts -/

/-- What cutting a chain needs to know. -/
structure Cutter where
  chain : Chain
  weights : List ℕ
  remote_tip : Option Hash
  limits : UploadLimits
  cap : ℕ
  budget : ℕ
  /-- The position the first advance must reach. -/
  must_reach : ℕ

/-- What the remote head is when a step begins. -/
def Cutter.base (c : Cutter) (start : ℕ) : Option Hash :=
  if start = 0 then c.remote_tip else some (c.chain.commit start)

/-- The plan for a step and the packs it is estimated to need. -/
def probe (c : Cutter) (start stop : ℕ) : Except PushError (PackPlan × ℕ) := do
  let plan ← ofStore (planPackWith B store (c.chain.commit stop) (c.base start))
  let sizes ← estimatePackSizes c.cap c.limits.max_pack_bytes store plan
  pure (plan, sizes.length)

/-- The last position whose weight above `start` is within `limit`, and at least the next one. -/
def Cutter.furthest (c : Cutter) (start limit : ℕ) : ℕ :=
  let bound := saturatingAdd (c.weights.getD start 0) limit
  let count := (c.weights.takeWhile (· ≤ bound)).length
  min (max (count - 1) (start + 1)) (c.weights.length - 1)

/-- The weight that needs no more packs than the budget, however it is packed. -/
def Cutter.floorWeight (c : Cutter) : ℕ :=
  saturatingMul (packWeightCap c.cap c.limits.max_pack_bytes) (c.budget / 2)

/-- Where a step of that weight ends. -/
def Cutter.natural (c : Cutter) (start : ℕ) : ℕ :=
  c.furthest start c.floorWeight

/-- The first position a step may end at. The first advance must already contain the remote head,
or the branch would leave commits that the remote holds. -/
def Cutter.floor (c : Cutter) (start : ℕ) : ℕ :=
  if start = 0 then max (c.natural start) c.must_reach else c.natural start

/-- The last position a step may end at. -/
def Cutter.ceiling (c : Cutter) (start : ℕ) : ℕ :=
  max (c.furthest start (saturatingMul (packWeightCap c.cap c.limits.max_pack_bytes) c.budget))
    (c.floor start)

/-- Is a step heavier than what surely fits? -/
def Cutter.Heavy (c : Cutter) (start stop : ℕ) : Prop :=
  c.floorWeight < c.weights.getD stop 0 - c.weights.getD start 0

instance (c : Cutter) (start stop : ℕ) : Decidable (c.Heavy start stop) :=
  inferInstanceAs (Decidable (_ < _))

/-- The hash of an object in a message. -/
def hexText (h : Hash) : String :=
  String.ofList ((toHex h).map fun b => Char.ofNat b.toNat)

/-- How a commit that cannot be split is named. -/
def describe (commit : Hash) : String :=
  match store.readObject B commit with
  | .ok (.commit c) =>
    match c.parents with
    | _ :: second :: _ =>
      "merge commit " ++ hexText commit ++ " (second parent " ++ hexText second ++ ")"
    | _ => "commit " ++ hexText commit
  | _ => "commit " ++ hexText commit

/-- Name the commit in a refusal. -/
def nameCommit (commit : String) (holds_remote_head : Bool) : PushError → PushError
  | .pushTooLarge packs limit _ _ => .pushTooLarge packs limit (some commit) holds_remote_head
  | other => other

/-- A step that cannot be split further must fit into the budget once it is compressed. -/
def verifyForced (c : Cutter) (start stop : ℕ) (holds_remote_head : Bool) :
    Except PushError Unit := do
  checkpoint ctl (.verify start stop)
  let (plan, packs) ← probe B store c start stop
  if packs ≤ c.budget then pure ()
  else do
    let _ ← (buildAndUploadPacks B Z fanout store c.cap c.limits .count
      (fun n => ctl.cancelled (.seal start stop n)) plan).mapError
        (nameCommit (describe B store (c.chain.commit stop)) holds_remote_head)
    pure ()

/-- Does the step to this position fit, by its plan? -/
def fitsAt (c : Cutter) (start stop : ℕ) : Except PushError Bool := do
  checkpoint ctl (.search start stop)
  let (_, packs) ← probe B store c start stop
  pure (packs ≤ c.budget)

/-- The position after `start` where the next step ends. -/
def cut (c : Cutter) (start : ℕ) : Except PushError ℕ := do
  let floor := c.floor start
  let ceiling := c.ceiling start
  let fits ← searchUp (fitsAt B store ctl c start) (ceiling - floor) floor ceiling
  if fits = floor ∧ c.Heavy start fits then
    verifyForced B Z fanout store ctl c start fits (start = 0 ∧ c.natural start < floor)
  pure fits

/-! ### Steps -/

/-- Whether `ancestor` is reached from `descendant`. -/
def descends (ancestor descendant : Hash) : Except PushError Bool :=
  ofStore ((isAncestor (store.readObject B) (walkFuel B store) ancestor descendant).getD
    (.ok false))

/-- The fewest commits of the chain after which the branch descends from the remote head, or 0
when the tip does not. -/
def positionsToReach (chain : Chain) (remote_tip : Option Hash) : Except PushError ℕ :=
  match remote_tip.filter (store.contains ·) with
  | none => .ok 0
  | some remote => do
    let high := chain.commits.length
    if ← descends B store remote (chain.commit high) then
      searchDown (fun mid => descends B store remote (chain.commit mid)) (high - 1) 1 high
    else pure 0

/-- The loop of `planPushSteps`, with `room` steps left under the bound. -/
def stepsFrom (c : Cutter) : ℕ → ℕ → Except PushError (List Hash)
  | room, start =>
    if start < c.chain.commits.length then
      match room with
      | 0 => .error (tooManySteps ctl.max_steps)
      | room + 1 => do
        let next ← cut B Z fanout store ctl c start
        let rest ← stepsFrom c room next
        pure (c.chain.commit next :: rest)
    else .ok []

/-- The commits to advance the remote head through, oldest first, ending at `tip`. -/
def planPushSteps (tip : Hash) (remote_tip : Option Hash) (limits : UploadLimits)
    (pack_payload_cap : ℕ) (condition : RefWriteCondition) (branch : String) :
    Except PushError (List Hash) := do
  let cap ← effectivePayloadCap pack_payload_cap limits.max_pack_bytes
  let chain ← walkChain B store ctl tip remote_tip
  if chain.commits.isEmpty then pure [tip]
  else do
    match ctl.authority with
    | some authority =>
      (authority.authorize branch condition (1 < chain.commits.length)).mapError
        .pushNotAuthorized
    | none => pure ()
    let weights ← cumulativeWeights B store ctl chain
    let must_reach ← positionsToReach B store chain remote_tip
    stepsFrom B Z fanout store ctl
      { chain := chain, weights := weights, remote_tip := remote_tip, limits := limits, cap := cap
        budget := dataPackBudget limits, must_reach := must_reach } ctl.max_steps 0

end Model

end Mkit.PushSplit
