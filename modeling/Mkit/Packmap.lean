import Mkit.Lib.Run
import Mkit.MerkleBuild
import Mkit.Refs

/-!
# The Packmap of a Branch

The packs of a branch are listed in a chain of nodes, each stored under the hash of its bytes; a
metadata ref holds the key of the last one (`packmap.rs`). A push stores a node that points at the
one it read from the ref, and moves the ref only from there.

The main result is `resolvePackChain_of_run`: whatever the pushes interleave, the ref leads to the
packs of every advance since the last reset, in the order in which they were committed.
-/

namespace Mkit.Packmap

open Wire

/-! ### Nodes -/

/-- `MKPL`. -/
def PACKLIST_MAGIC : Bytes := ascii ['M', 'K', 'P', 'L']

def PACKLIST_VERSION : UInt8 := 1

def PACKLIST_MAX_ENTRIES : ℕ := 1000000

def PACKLIST_HEADER_LEN : ℕ := 5

structure PackListNode where
  prev : Option Hash
  /-- In the order in which they are applied. -/
  packs : List Hash
deriving DecidableEq

inductive PackListError where
  | tooShort
  | invalidMagic
  | unsupportedVersion (v : UInt8)
  | tooManyEntries (count : ℕ)
  | malformed
deriving DecidableEq

section Codec

variable (C : LengthCodec)

def writePrev : Option Hash → Bytes
  | none => [0]
  | some h => 1 :: h.bytes

/-- A node on the wire, behind the header: an optional hash and a vector of hashes. -/
def packlistBody (prev : Option Hash) (packs : List Hash) : Bytes :=
  writePrev prev ++ (C.write packs.length ++ packs.flatMap ByteArr.bytes)

def encodePacklist (prev : Option Hash) (packs : List Hash) : Except PackListError Bytes :=
  if 2 ^ 32 ≤ packs.length then .error (.tooManyEntries (2 ^ 32 - 1))
  else if PACKLIST_MAX_ENTRIES < packs.length then .error (.tooManyEntries packs.length)
  else .ok (PACKLIST_MAGIC ++ PACKLIST_VERSION :: packlistBody C prev packs)

def readPrev : Parser PackListError (Option Hash)
  | 0 :: rest => .ok (none, rest)
  | 1 :: rest => do
    let (h, rest) ← ByteArr.read .malformed HASH_LEN rest
    .ok (some h, rest)
  | _ => .error .malformed

def readPacklist : Parser PackListError PackListNode := do
  let prev ← readPrev
  let count ← (fun bytes => (C.read bytes).mapError fun _ => .malformed : Parser PackListError ℕ)
  if PACKLIST_MAX_ENTRIES < count then throw .malformed
  let packs ← Wire.repeatWith (fun _ => ByteArr.read .malformed HASH_LEN) count []
  return ⟨prev, packs⟩

def decodePacklist (bytes : Bytes) : Except PackListError PackListNode :=
  if bytes.length < PACKLIST_HEADER_LEN then .error .tooShort
  else if bytes.take 4 ≠ PACKLIST_MAGIC then .error .invalidMagic
  else if bytes.getD 4 0 ≠ PACKLIST_VERSION then .error (.unsupportedVersion (bytes.getD 4 0))
  else do
    let (node, rest) ← (readPacklist C).run (bytes.drop PACKLIST_HEADER_LEN)
    if rest.isEmpty then .ok node else .error .malformed

variable {C}

/-- A node that was written is read back. -/
theorem decode_of_encode {prev : Option Hash} {packs : List Hash} {bytes : Bytes}
    (h : encodePacklist C prev packs = .ok bytes) : decodePacklist C bytes = .ok ⟨prev, packs⟩ := by
  rw [encodePacklist] at h
  split_ifs at h with hlong hmany
  obtain rfl := Except.ok.inj h
  have hprev : readPrev (packlistBody C prev packs) =
      .ok (prev, leb128 packs.length ++ packs.flatMap ByteArr.bytes) := by
    rw [packlistBody, C.write_eq _ (Nat.lt_of_not_le hlong)]
    cases prev with
    | none => rfl
    | some p =>
      have hread := (ByteArr.parses_read PackListError.malformed HASH_LEN _ p
        (leb128 packs.length ++ packs.flatMap ByteArr.bytes)).2 ⟨_, rfl, rfl⟩
      change (ByteArr.read PackListError.malformed HASH_LEN (p.bytes ++ _) >>= _) = _
      rw [hread]
      rfl
  have hpacks : Wire.repeatWith
      (fun _ : List Hash => ByteArr.read PackListError.malformed HASH_LEN) packs.length []
      (packs.flatMap ByteArr.bytes) = .ok (packs, []) := by
    have hparses := @Parses.repeatWith PackListError Hash _ (fun _ _ => True) _
      (fun _ : List Hash => (ByteArr.parses_read PackListError.malformed HASH_LEN).congr
        fun a bs => (iff_of_eq (true_and _)).symm) packs.length []
    exact (hparses _ _ _).2 ⟨_, ⟨packs, rfl, rfl, admits_true _ _, encodes_flatMap.2 rfl⟩,
      (List.append_nil _).symm⟩
  have hbody : readPacklist C (packlistBody C prev packs) = .ok (⟨prev, packs⟩, []) := by
    rw [readPacklist, parser_bind_eq_ok]
    refine ⟨_, _, hprev, parser_bind_eq_ok.2 ⟨packs.length, packs.flatMap ByteArr.bytes, ?_, ?_⟩⟩
    · rw [C.read_write _ (Nat.lt_of_not_le hlong)]
      rfl
    · rw [if_neg hmany]
      exact parser_bind_eq_ok.2 ⟨_, _, hpacks, rfl⟩
  have hlen : ¬ (PACKLIST_MAGIC ++ PACKLIST_VERSION :: packlistBody C prev packs).length <
      PACKLIST_HEADER_LEN := by
    rw [List.length_append, List.length_cons]
    exact Nat.not_lt.2 (Nat.add_le_add_left (Nat.succ_le_succ (Nat.zero_le _)) 4)
  have hmagic : (PACKLIST_MAGIC ++ PACKLIST_VERSION :: packlistBody C prev packs).take 4 =
      PACKLIST_MAGIC := rfl
  have hversion : (PACKLIST_MAGIC ++ PACKLIST_VERSION :: packlistBody C prev packs).getD 4 0 =
      PACKLIST_VERSION := rfl
  rw [decodePacklist, if_neg hlen, if_neg (not_not.2 hmagic), if_neg (not_not.2 hversion)]
  change (readPacklist C (packlistBody C prev packs) >>= _) = _
  rw [hbody]
  rfl

end Codec

/-! ### Planning an advance -/

/-- What one attempt found of the branch. -/
inductive ChainState where
  | missing
  /-- A chain that was walked, with all its packs. -/
  | append (head : Hash) (packs : Finset Hash)
  /-- The chain is left behind for packs that need nothing of it. -/
  | reset (prior : Option Hash)

/-- A node to store, and what the ref must hold when it is moved there. -/
structure Node where
  bytes : Bytes
  key : Hash
  condition : RefWriteCondition
deriving DecidableEq

inductive PlanError where
  | packlist (e : PackListError)
  | nodeTooLarge
deriving DecidableEq

section Plan

variable (B : Blake3) (C : LengthCodec)

/-- The node that links to `prev`, for a ref that holds `prior`. -/
def planNode (prior prev : Option Hash) (packs : List Hash) (max_node_bytes : Option ℕ) :
    Except PlanError (Option Node) := do
  let bytes ← (encodePacklist C prev packs).mapError .packlist
  if max_node_bytes.any (· < bytes.length) then throw .nodeTooLarge
  pure (some ⟨bytes, B.hash bytes, prior.elim .missing .matching⟩)

/-- Plan one attempt; there is no node if the chain has all the packs. -/
def planAdvance (state : ChainState) (packs : List Hash) (max_node_bytes : Option ℕ) :
    Except PlanError (Option Node) :=
  match state with
  | .missing => planNode B C none none packs max_node_bytes
  | .append head held =>
    if packs.all (· ∈ held) then .ok none
    else planNode B C (some head) (some head) packs max_node_bytes
  | .reset prior => planNode B C prior none packs max_node_bytes

/-! ### Walking a chain -/

def MAX_PACK_CHAIN_DEPTH : ℕ := 100000

def MAX_FETCH_PACKS : ℕ := 1000000

/-- The ways a download fails: the chain is broken, or something else was wrong. -/
inductive FetchError where
  | notFound
  | invalidResponse
  | transport
deriving DecidableEq

inductive WalkError where
  | interrupted
  | packChainInvalid (source : Option FetchError)
  | source (e : FetchError)
deriving DecidableEq

/-- Download a node, check its key and decode it. -/
def downloadPacklistNode (download : Hash → Except FetchError Bytes) (key : Hash) :
    Except WalkError PackListNode :=
  match download key with
  | .error .transport => .error (.source .transport)
  | .error e => .error (.packChainInvalid (some e))
  | .ok bytes =>
    if B.hash bytes ≠ key then .error (.packChainInvalid (some .invalidResponse))
    else (decodePacklist C bytes).mapError fun _ => .packChainInvalid none

/-- Follow the links, with room for so many nodes beside those seen. -/
def walkFrom (cancelled : ℕ → Bool) (download : Hash → Except FetchError Bytes) :
    ℕ → Finset Hash → ℕ → Option Hash → Except WalkError (List PackListNode)
  | _, _, _, none => .ok []
  | room, seen, count, some key =>
    if cancelled seen.card then .error .interrupted
    else
      match room with
      | 0 => .error (.packChainInvalid none)
      | room + 1 =>
        if key ∈ seen then .error (.packChainInvalid none)
        else do
          let node ← downloadPacklistNode B C download key
          if MAX_FETCH_PACKS < count + node.packs.length then throw (.packChainInvalid none)
          let rest ← walkFrom cancelled download room (insert key seen)
            (count + node.packs.length) node.prev
          pure (node :: rest)

def walkPackChain (cancelled : ℕ → Bool) (download : Hash → Except FetchError Bytes)
    (head : Hash) : Except WalkError (List PackListNode) :=
  walkFrom B C cancelled download MAX_PACK_CHAIN_DEPTH ∅ 0 (some head)

end Plan

/-- The packs in the order in which they are applied. -/
def flattenOldestFirst (nodes : List PackListNode) : List Hash :=
  nodes.reverse.flatMap PackListNode.packs

def resolvePackChain (B : Blake3) (C : LengthCodec) (cancelled : ℕ → Bool)
    (download : Hash → Except FetchError Bytes) (head : Hash) : Except WalkError (List Hash) :=
  (walkPackChain B C cancelled download head).map flattenOldestFirst

/-! ### Chains -/

section Chains

variable {B : Blake3} {C : LengthCodec} {blobs blobs' : Hash → Option Bytes} {o : Option Hash}
  {nodes nodes' : List PackListNode}

variable (B C blobs) in
/-- The nodes that a key leads to. -/
inductive Chain : Option Hash → List PackListNode → Prop
  | nil : Chain none []
  | cons {key : Hash} {bytes : Bytes} {node : PackListNode} {nodes : List PackListNode}
      (hblob : blobs key = some bytes) (hkey : B.hash bytes = key)
      (hnode : decodePacklist C bytes = .ok node) (hrest : Chain node.prev nodes) :
      Chain (some key) (node :: nodes)

theorem Chain.unique (h : Chain B C blobs o nodes) (h' : Chain B C blobs o nodes') :
    nodes = nodes' := by
  induction h generalizing nodes' with
  | nil =>
    cases h'
    rfl
  | cons hblob _ hnode _ ih =>
    cases h' with
    | cons hblob' _ hnode' hrest' =>
      obtain rfl := Option.some.inj (hblob.symm.trans hblob')
      obtain rfl := Except.ok.inj (hnode.symm.trans hnode')
      rw [ih hrest']

theorem Chain.mono (h : Chain B C blobs o nodes)
    (hgrow : ∀ k v, blobs k = some v → blobs' k = some v) : Chain B C blobs' o nodes := by
  induction h with
  | nil => exact .nil
  | cons hblob hkey hnode _ ih => exact .cons (hgrow _ _ hblob) hkey hnode ih

variable (blobs) in
/-- Downloads from what is stored. -/
def fetch (key : Hash) : Except FetchError Bytes :=
  match blobs key with
  | some bytes => .ok bytes
  | none => .error .notFound

def packCount (nodes : List PackListNode) : ℕ :=
  (nodes.map fun n => n.packs.length).sum

/-- **A chain is walked to its end**, or refused as too long. No key comes twice: what a key seen
before leads to is longer than what is left. -/
theorem Chain.walkFrom (h : Chain B C blobs o nodes) {room count : ℕ} {seen : Finset Hash}
    (hcount : count ≤ MAX_FETCH_PACKS)
    (hseen : ∀ key ∈ seen, ∀ ns, Chain B C blobs (some key) ns → nodes.length < ns.length) :
    walkFrom B C (fun _ => false) (fetch blobs) room seen count o =
      if nodes.length ≤ room ∧ count + packCount nodes ≤ MAX_FETCH_PACKS then
        .ok nodes
      else .error (.packChainInvalid none) := by
  induction h generalizing room seen count with
  | nil => rw [Packmap.walkFrom, if_pos ⟨Nat.zero_le _, hcount⟩]
  | @cons key bytes node nodes hblob hkey hnode hrest ih =>
    have hchain := Chain.cons hblob hkey hnode hrest
    have hdownload : downloadPacklistNode B C (fetch blobs) key = .ok node := by
      rw [downloadPacklistNode, fetch, hblob]
      dsimp only
      rw [if_neg (not_not.2 hkey), hnode]
      rfl
    have hsum : packCount (node :: nodes) = node.packs.length + packCount nodes := by
      rw [packCount, List.map_cons, List.sum_cons, packCount]
    cases room with
    | zero => exact (if_neg fun hroom => nomatch hroom.1).symm
    | succ room =>
      have hnew : key ∉ seen := fun hmem => lt_irrefl _ (hseen key hmem _ hchain)
      have hseen' : ∀ k ∈ insert key seen, ∀ ns, Chain B C blobs (some k) ns →
          nodes.length < ns.length := by
        intro k hk ns hns
        rcases Finset.mem_insert.1 hk with rfl | hk
        · rw [← hchain.unique hns]
          exact Nat.lt_succ_self _
        · exact (Nat.lt_succ_self _).trans (hseen k hk ns hns)
      rw [Packmap.walkFrom, if_neg Bool.false_ne_true]
      dsimp only
      rw [if_neg hnew, hdownload, hsum, ← Nat.add_assoc]
      change (if MAX_FETCH_PACKS < count + node.packs.length then _ else _) = _
      by_cases hmany : MAX_FETCH_PACKS < count + node.packs.length
      · rw [if_pos hmany, if_neg fun hle => absurd hle.2 (by omega)]
        rfl
      · rw [if_neg hmany]
        rw [ih (Nat.le_of_not_lt hmany) hseen']
        by_cases hfits : nodes.length ≤ room ∧
            count + node.packs.length + packCount nodes ≤ MAX_FETCH_PACKS
        · rw [if_pos hfits, if_pos ⟨Nat.succ_le_succ hfits.1, hfits.2⟩]
          rfl
        · rw [if_neg hfits, if_neg fun hle => hfits ⟨Nat.le_of_succ_le_succ hle.1, hle.2⟩]
          rfl

end Chains

/-! ### Pushes that interleave -/

/-- What a remote keeps of a branch: blobs by key, and the ref. -/
structure Remote where
  blobs : Hash → Option Bytes
  packmap : Option Hash

/-- What happens: somebody stores a blob, or commits an advance that was planned on some state. -/
inductive Event where
  | upload (bytes : Bytes)
  | advance (state : ChainState) (packs : List Hash)

/-- The condition of a write holds of a ref. -/
def Holds (current : Option Hash) : RefWriteCondition → Prop
  | .any => True
  | .missing => current = none
  | .matching h => current = some h

section Runs

variable (B : Blake3) (C : LengthCodec)

/-- A blob that is there is kept; an advance has its node stored and finds the ref as it was planned
for, however long ago that was. -/
inductive Step : Remote → Event → Remote → Prop
  | upload {r : Remote} (bytes : Bytes) :
      Step r (.upload bytes)
        { r with blobs := fun k => (r.blobs k).or (if B.hash bytes = k then some bytes else none) }
  | advance {r : Remote} {state : ChainState} {packs : List Hash} {node : Node}
      (hplan : planAdvance B C state packs none = .ok (some node))
      (hblob : r.blobs node.key = some node.bytes) (hcas : Holds r.packmap node.condition) :
      Step r (.advance state packs) { r with packmap := some node.key }

/-- The packs of each advance since the last reset, the oldest first. -/
def advertise (listed : List (List Hash)) : Event → List (List Hash)
  | .upload _ => listed
  | .advance (.reset _) packs => [packs]
  | .advance _ packs => listed ++ [packs]

variable {B C}

theorem planNode_eq_ok {prior prev : Option Hash} {packs : List Hash} {node : Node}
    (h : planNode B C prior prev packs none = .ok (some node)) :
    B.hash node.bytes = node.key ∧ decodePacklist C node.bytes = .ok ⟨prev, packs⟩ ∧
      node.condition = prior.elim .missing .matching := by
  rw [planNode, Wire.bind_eq_ok] at h
  obtain ⟨bytes, hbytes, h⟩ := h
  obtain rfl := Option.some.inj (Except.ok.inj h)
  refine ⟨rfl, ?_, rfl⟩
  cases hencode : encodePacklist C prev packs with
  | error e =>
    rw [hencode] at hbytes
    exact nomatch hbytes
  | ok bytes' =>
    rw [hencode] at hbytes
    obtain rfl := Except.ok.inj hbytes
    exact decode_of_encode hencode

def packLists (nodes : List PackListNode) : List (List Hash) :=
  nodes.reverse.map PackListNode.packs

theorem packLists_cons (node : PackListNode) (nodes : List PackListNode) :
    packLists (node :: nodes) = packLists nodes ++ [node.packs] := by
  rw [packLists, List.reverse_cons, List.map_append]
  rfl

/-- One event keeps the chain, or extends it, or starts it again. -/
theorem Step.chain {r r' : Remote} {event : Event} (h : Step B C r event r')
    {nodes : List PackListNode} (hchain : Chain B C r.blobs r.packmap nodes) :
    ∃ nodes', Chain B C r'.blobs r'.packmap nodes' ∧
      packLists nodes' = advertise (packLists nodes) event := by
  cases h with
  | upload bytes =>
    exact ⟨nodes, hchain.mono fun k v hv => Option.or_eq_some_iff.2 (.inl hv), rfl⟩
  | @advance state packs node hplan hblob hcas =>
    cases state with
    | missing =>
      obtain ⟨hkey, hnode, hcond⟩ := planNode_eq_ok hplan
      rw [hcond] at hcas
      rw [show r.packmap = none from hcas] at hchain
      cases hchain
      exact ⟨_, .cons hblob hkey hnode .nil, rfl⟩
    | append head held =>
      rw [planAdvance] at hplan
      split at hplan
      · exact nomatch hplan
      · obtain ⟨hkey, hnode, hcond⟩ := planNode_eq_ok hplan
        rw [hcond] at hcas
        -- However old the plan is, the chain it saw is the chain that is there.
        rw [show r.packmap = some head from hcas] at hchain
        exact ⟨_, .cons hblob hkey hnode hchain, packLists_cons _ _⟩
    | reset prior =>
      obtain ⟨hkey, hnode, -⟩ := planNode_eq_ok hplan
      exact ⟨_, .cons hblob hkey hnode .nil, rfl⟩

/-- **No pack is lost.** Whatever advances are planned, when, and in which order they and the
uploads are committed: what the ref leads to are the packs of every advance since the last reset,
in order, unless these are too many for a chain. -/
theorem resolvePackChain_of_run {r r' : Remote} {tr : List Event} {nodes : List PackListNode}
    (hrun : Lts.Run (Step B C) r tr r') (hchain : Chain B C r.blobs r.packmap nodes) :
    ∃ listed, listed = tr.foldl advertise (packLists nodes) ∧
      (r'.packmap = none → listed = []) ∧
      ∀ head ∈ r'.packmap, resolvePackChain B C (fun _ => false) (fetch r'.blobs) head =
        if listed.length ≤ MAX_PACK_CHAIN_DEPTH ∧ listed.flatten.length ≤ MAX_FETCH_PACKS then
          .ok listed.flatten
        else .error (.packChainInvalid none) := by
  obtain ⟨nodes', hchain', hlisted⟩ := hrun.invariant
    (I := fun tr s => ∃ ns, Chain B C s.blobs s.packmap ns ∧
      packLists ns = tr.foldl advertise (packLists nodes))
    ⟨nodes, hchain, rfl⟩ fun tr s event s' ⟨ns, hns, hlisted⟩ hstep => by
      obtain ⟨ns', hns', hlisted'⟩ := hstep.chain hns
      exact ⟨ns', hns', by rw [hlisted', hlisted, List.foldl_append]; rfl⟩
  refine ⟨packLists nodes', hlisted, fun hnone => ?_, fun head hhead => ?_⟩
  · rw [hnone] at hchain'
    cases hchain'
    rfl
  · have hcount : (packLists nodes').flatten.length = packCount nodes' := by
      rw [List.length_flatten, packLists, List.map_map, packCount, List.map_reverse,
        List.sum_reverse]
      rfl
    have hlength : (packLists nodes').length = nodes'.length := by
      rw [packLists, List.length_map, List.length_reverse]
    rw [hhead] at hchain'
    rw [resolvePackChain, walkPackChain, hchain'.walkFrom (Nat.zero_le _) fun k hk =>
      absurd hk (Finset.notMem_empty k), Nat.zero_add, hcount, hlength]
    split
    · exact congrArg Except.ok List.flatMap_def
    · rfl

end Runs

/-! A branch of two packs. -/

def firstNode : Node :=
  let bytes := (encodePacklist leb128Codec none [ZERO]).toOption.getD []
  ⟨bytes, toyBlake3.hash bytes, .missing⟩

def secondNode : Node :=
  let bytes :=
    (encodePacklist leb128Codec (some firstNode.key) [ByteArr.fill 32 1]).toOption.getD []
  ⟨bytes, toyBlake3.hash bytes, .matching firstNode.key⟩

def sampleBlobs (k : Hash) : Option Bytes :=
  ((none : Option Bytes).or (if firstNode.key = k then some firstNode.bytes else none)).or
    (if secondNode.key = k then some secondNode.bytes else none)

theorem resolvePackChain_of_run_sample :
    resolvePackChain toyBlake3 leb128Codec (fun _ => false) (fetch sampleBlobs) secondNode.key =
      .ok [ZERO, ByteArr.fill 32 1] := by
  have hfirst : Step toyBlake3 leb128Codec ⟨sampleBlobs, none⟩ (.advance .missing [ZERO])
      ⟨sampleBlobs, some firstNode.key⟩ :=
    .advance (by decide +kernel) (by decide +kernel) rfl
  have hsecond : Step toyBlake3 leb128Codec ⟨sampleBlobs, some firstNode.key⟩
      (.advance (.append firstNode.key {ZERO}) [ByteArr.fill 32 1])
      ⟨sampleBlobs, some secondNode.key⟩ :=
    .advance (by decide +kernel) (by decide +kernel) rfl
  have hrun : Lts.Run (Step toyBlake3 leb128Codec) ⟨fun _ => none, none⟩
      [.upload firstNode.bytes, .upload secondNode.bytes, _, _] ⟨sampleBlobs, _⟩ :=
    ((((Lts.Run.nil _).snoc (.upload _)).snoc (.upload _)).snoc hfirst).snoc hsecond
  obtain ⟨_, rfl, -, hresolve⟩ := resolvePackChain_of_run hrun .nil
  exact (hresolve _ rfl).trans (if_pos (by decide))

end Mkit.Packmap
