import Mkit.Server.OutboxItems

/-!
# Stored-Bytes Accounting

The counter of a repository's pack bytes lives at the repository's coordinator, beside one marker
for each counted pack. A batch that consumes packs at the coordinator counts them itself; any
other batch relays the markers, and the delivery at the coordinator counts them. Every change of
a counter queues an outcome with the absolute value and its version.
-/

namespace Mkit.Server

/-- The corruption message of a repository whose counter row is missing. -/
def COUNTER_MISSING : String := "repository counter missing"

/-- A pack and its size in bytes. -/
abbrev CountedPack := Hash × UInt64

/-- A repository name as a string. -/
def RepoName.asStr (repo : RepoName) : Str :=
  ⟨repo.name, Partition.RepoName.isUtf8 repo⟩

/-- A repository's wire identity: the namespace, a slash and the name, or the bare name in the
deployment-default namespace. -/
def identity (ns : NamespaceKey) (repo : RepoName) : Str :=
  if ns = NamespaceKey.deploymentDefault then repo.asStr
  else (ns.key.append ⟨ascii ['/'], by decide⟩).append repo.asStr

/-- The outcome id of one counter change; unique per repository and version. -/
def outcomeId (B : Blake3) (identity : Str) (version : UInt64) : Bytes :=
  ascii ['r', 's', ':'] ++ (toHex (B.hash identity.bytes)).take 32 ++ ascii [':'] ++
    Text.decimal version.toNat

/-- The counter a registration creates. -/
def initialCounter : Value :=
  encodeRepoStorage ⟨0, 0⟩

/-- Counter and marker rows an inline count of packs reads. -/
def readKeys (repo : RepoName) (packs : List CountedPack) : List Key :=
  keys.repoStorage repo :: packs.map fun p => keys.repoStoragePack repo p.1

def markerValue (bytes : UInt64) : Value :=
  encodeU64 bytes

/-- The caller's outbox, guards and writes. -/
structure Draft where
  outbox : OutboxBuilder
  plan : Plan

/-! ### Counting -/

/-- The guards and writes so far, the bytes to add and the packs they are of. -/
structure Count where
  plan : Plan
  added : UInt64
  fresh : List Hash

/-- Count one pack, unless its marker was observed or the batch names it before. -/
def countPack (repo : RepoName) (putMarkers : Bool) (c : Count) (p : CountedPack × Bool) :
    Except StoreError Count :=
  if p.2 || c.fresh.contains p.1.1 then .ok c
  else
    let marker := keys.repoStoragePack repo p.1.1
    let plan :=
      -- The counter guard below already serializes every counting batch of this partition, so a
      -- marker that is put needs no guard of its own.
      if putMarkers then
        { c.plan with writes := c.plan.writes ++ [.put marker (markerValue p.1.2)] }
      else { c.plan with pre := c.plan.pre ++ [.absent marker] }
    match Words.checkedAdd c.added p.1.2 with
    | none => .error (.corrupt "repository counter overflow")
    | some added => .ok ⟨plan, added, c.fresh ++ [p.1.1]⟩

section Planning

variable (S : Serde) (B : Blake3)

/-- Add the packs whose markers are absent to the counter. Each pack carries whether its marker
was observed. `putMarkers` is false when the batch already writes the markers. -/
def apply (ns : NamespaceKey) (repo : RepoName) (counter : Option Value)
    (packs : List (CountedPack × Bool)) (putMarkers : Bool) (nowMs : UInt64) (d : Draft) :
    Except StoreError Draft := do
  let raw ← match counter with
    | some raw => pure raw
    | none => throw (.corrupt COUNTER_MISSING)
  let state ← decodeRepoStorage raw
  let c ← packs.foldlM (countPack repo putMarkers) ⟨d.plan, 0, []⟩
  if c.fresh.isEmpty then pure d
  else
    match Words.checkedAdd state.storedBytes c.added with
    | none => throw (.corrupt "repository counter overflow")
    | some storedBytes =>
      match Words.checkedAdd state.version 1 with
      | none => throw (.corrupt "repository counter version overflow")
      | some version =>
        let k := keys.repoStorage repo
        let plan : Plan :=
          ⟨c.plan.pre ++ [.equals k raw],
            c.plan.writes ++ [.put k (encodeRepoStorage ⟨storedBytes, version⟩)]⟩
        let repository := identity ns repo
        let terminal ← Terminal.new S (.repoStorageChanged repository nowMs storedBytes version)
        pure ⟨d.outbox.storageChanged S (outcomeId B repository version) terminal, plan⟩

/-! ### Counting relayed markers -/

/-- The repositories of the relayed markers. -/
def RepoName.rank (repo : RepoName) : Bytes := repo.name

theorem RepoName.rank_injective : Function.Injective RepoName.rank := fun _ _ h => RepoName.ext h

instance : LinearOrder RepoName :=
  LinearOrder.lift' RepoName.rank RepoName.rank_injective

/-- Add the marker put, if it is one. -/
def relayedPut (out : SortedMap RepoName (List CountedPack)) (p : Key × Value) :
    Except StoreError (SortedMap RepoName (List CountedPack)) :=
  match keys.parseRepoStoragePack p.1 with
  | none => .ok out
  | some (repo, pack) => do
    let bytes ← decodeU64 p.2
    pure (out.insert repo ((out.get repo).getD [] ++ [(pack, bytes)]))

/-- Marker puts of every repository the rows relay, in row order. -/
def relayed (rows : List (UInt64 × RelayV1)) :
    Except StoreError (SortedMap RepoName (List CountedPack)) :=
  (rows.flatMap fun r => r.2.puts).foldlM relayedPut .empty

/-- The rows a coordinator's relay delivery observes to count the rows' markers. -/
def relayReadKeys (target : Partition) (rows : List (UInt64 × RelayV1)) :
    Except StoreError (List Key) :=
  match target with
  | .coordinator _ => do
    let relayed ← relayed rows
    if relayed.entries.isEmpty then pure []
    else pure ([keys.outboxSequence, keys.outcomeBacklog] ++
      relayed.entries.flatMap fun p => readKeys p.1 p.2)
  | _ => .ok []

/-- What was observed of a key. -/
def observation (observed : List (Key × Option Value)) (k : Key) :
    Except StoreError (Option Value) :=
  match observed.find? fun p => p.1 == k with
  | some p => .ok p.2
  | none => .error (.corrupt "missing storage observation")

/-- Count the relayed markers of one repository. -/
def extendRepo (ns : NamespaceKey) (observed : List (Key × Option Value)) (nowMs : UInt64)
    (d : Draft) (p : RepoName × List CountedPack) : Except StoreError Draft := do
  let packs ← p.2.mapM fun pack => do
    let marker ← observation observed (keys.repoStoragePack p.1 pack.1)
    pure (pack, marker.isSome)
  let counter ← observation observed (keys.repoStorage p.1)
  apply S B ns p.1 counter packs false nowMs d

/-- Count the markers the rows relay to a coordinator, in the delivery batch. A repository without
a counter is a corrupt store: the rows stay queued until the counter exists. -/
def relayExtend (target : Partition) (rows : List (UInt64 × RelayV1))
    (observed : List (Key × Option Value)) (plan : Plan) : Except StoreError Plan :=
  match target with
  | .coordinator ns => do
    let relayed ← relayed rows
    if relayed.entries.isEmpty then pure plan
    else do
      let os ← observation observed keys.outboxSequence
      let oc ← observation observed keys.outcomeBacklog
      let outbox ← OutboxBuilder.new S os oc
      -- Stamped like the sibling outcomes of the source batch: its plan time.
      let nowMs := (rows.map fun r => r.2.atMs).foldl max 0
      let d ← relayed.entries.foldlM (extendRepo S B ns observed nowMs) ⟨outbox, plan⟩
      match Effect.exec (d.outbox.tryFinish S) d.plan with
      | (.ok (), plan') => pure plan'
      | (.error e, _) => throw e
  | _ => .ok plan

end Planning

end Mkit.Server
