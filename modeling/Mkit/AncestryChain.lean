import Mkit.Ancestry

/-!
# Choosing the Chain to Publish

Two walks over the object store — the whole chain of first parents, and the part of it above
a known commit — and the choice between them at each publication. The walk over the whole
chain reads every commit; the splice reads only the new ones and takes the rest from the last
snapshot, re-reading a rotating window of it on a schedule that lives in an advisory file.

`FirstParents` says what a chain of first parents is, and `decideChain_eq_ok` that every
choice yields the one the whole walk yields.
-/

namespace Mkit

open Wire

def ancestryCycleOrLimit : HistoryError :=
  .corrupted "ancestry cycle or traversal limit"

def ancestryNotCommitOrRemix : HistoryError :=
  .corrupted "ancestry node is not a commit/remix"

section Walks

variable (B : Blake3) (store : ObjectStore)

/-- The first parent of a commit or remix. -/
def firstParent (h : Hash) : Except HistoryError (Option Hash) :=
  match store.readObject B h with
  | .error e => .error (.store e)
  | .ok (.commit c) => .ok c.parents.head?
  | .ok (.remix r) => .ok r.parents.head?
  | .ok _ => .error ancestryNotCommitOrRemix

/-- The loop of `firstParentChain`, with `room` leaves left under the bound. The chain is
collected tip first and reversed in the end; here it grows at the front. -/
def chainLoop : ℕ → Finset Hash → List Hash → Option Hash → Except HistoryError (List Hash)
  | _, _, chain, none => .ok chain
  | 0, _, _, some _ => .error ancestryCycleOrLimit
  | room + 1, seen, chain, some h =>
    if h ∈ seen then .error ancestryCycleOrLimit
    else do
      let next ← firstParent B store h
      chainLoop room (insert h seen) (h :: chain) next

/-- The chain of first parents of a commit, oldest first. -/
def firstParentChain (tip : Hash) : Except HistoryError (List Hash) :=
  chainLoop B store MAX_ANCESTRY_LEAVES ∅ [] (some tip)

/-- The end of a walk toward a known commit. -/
inductive SuffixWalk where
  /-- It was reached: the commits above it, oldest first. -/
  | reached (suffix : List Hash)
  /-- The walk ended at a genesis without meeting it. -/
  | notFound

/-- The loop of `firstParentSuffixTo`. -/
def suffixLoop (stopAt : Hash) :
    ℕ → Finset Hash → List Hash → Option Hash → Except HistoryError SuffixWalk
  | _, _, _, none => .ok .notFound
  | 0, _, suffix, some h =>
    if h = stopAt then .ok (.reached suffix) else .error ancestryCycleOrLimit
  | room + 1, seen, suffix, some h =>
    if h = stopAt then .ok (.reached suffix)
    else if h ∈ seen then .error ancestryCycleOrLimit
    else do
      let next ← firstParent B store h
      suffixLoop stopAt room (insert h seen) (h :: suffix) next

/-- The first parents of `target` above `stopAt`. The bound counts the `prefixLen` leaves
below as well. -/
def firstParentSuffixTo (target stopAt : Hash) (prefixLen : ℕ) :
    Except HistoryError SuffixWalk :=
  suffixLoop B store stopAt (MAX_ANCESTRY_LEAVES - prefixLen) ∅ [] (some target)

/-- Re-read the leaves `start..stop` of a chain. -/
def verifyScrubWindow (chain : List Hash) (start stop : ℕ) : Except HistoryError Unit :=
  if start ≤ stop ∧ stop ≤ chain.length then
    ((chain.take stop).drop start).forM fun h =>
      match store.readObject B h with
      | .error e => .error (.store e)
      | .ok (.commit _) => .ok ()
      | .ok (.remix _) => .ok ()
      | .ok _ => .error ancestryNotCommitOrRemix
  else .error (.corrupted "scrub window bounds exceed the on-disk ancestry prefix")

end Walks

/-! ### Scrubbing -/

/-- Smallest scrub window. -/
def SCRUB_MIN_WINDOW : ℕ := 512

/-- Windows in a lap over a long chain. -/
def SCRUB_LAP_FRACTION : ℕ := 64

/-- Longest time between two whole walks, in seconds. -/
def SCRUB_MAX_AGE_SECS : ℕ := 7 * 24 * 60 * 60

/-- The size of the next scrub window. -/
def scrubWindow (verifiedThrough : ℕ) : ℕ :=
  max (verifiedThrough / SCRUB_LAP_FRACTION) SCRUB_MIN_WINDOW

/-- Progress of the rolling re-verification. -/
structure ScrubState where
  generation : Hash
  cursor : UInt64
  verifiedThrough : UInt64
  lastFullVerifyUnix : UInt64
deriving DecidableEq

/-- The magic of a scrub file, `MKSC\x02`. -/
def SCRUB_MAGIC : Bytes := ascii ['M', 'K', 'S', 'C'] ++ [0x02]

/-- The state after a whole walk. Its generation is filled in when it is written. -/
def ScrubState.fresh (chainLen : ℕ) (now : UInt64) : ScrubState :=
  ⟨ZERO, 0, UInt64.ofNat chainLen, now⟩

/-- The scrub file. -/
def ScrubState.encode (B : Blake3) (s : ScrubState) : Bytes :=
  let payload := SCRUB_MAGIC ++ (s.generation.bytes ++ (leBytes 8 s.cursor.toNat ++
    (leBytes 8 s.verifiedThrough.toNat ++ leBytes 8 s.lastFullVerifyUnix.toNat)))
  payload ++ (B.hash payload).bytes

/-- Decode a scrub file; anything unexpected is no state at all. -/
def ScrubState.decode (B : Blake3) (bytes : Bytes) : Option ScrubState :=
  let field (pos : ℕ) : UInt64 := UInt64.ofNat (ofLeBytes ((bytes.drop pos).take 8))
  if bytes.length ≠ 93 ∨ bytes.take 5 ≠ SCRUB_MAGIC then none
  else if (B.hash (bytes.take 61)).bytes ≠ bytes.drop 61 then none
  else some ⟨ByteArr.pad HASH_LEN (bytes.drop 5), field 37, field 45, field 53⟩

/-- The scrub state on disk; a file that cannot be used counts as missing. -/
def readScrubState (B : Blake3) (d : BranchFiles) : Option ScrubState :=
  d.scrub.bind (ScrubState.decode B)

/-! ### The choice -/

/-- The chain to publish, and whether it goes to the generation it extends. -/
inductive ChainDecision where
  | sameGeneration (chain : List Hash) (scrub : ScrubState)
  | newGeneration (chain : List Hash) (scrub : ScrubState)

/-- The chain of a decision. -/
def ChainDecision.chain : ChainDecision → List Hash
  | sameGeneration chain _ => chain
  | newGeneration chain _ => chain

section Decide

variable (B : Blake3) (store : ObjectStore) (d : BranchFiles)

/-- Walk the whole chain for a new generation. -/
def newGeneration (target : Hash) (now : UInt64) : Except HistoryError ChainDecision := do
  let chain ← firstParentChain B store target
  pure (.newGeneration chain (.fresh chain.length now))

/-- Walk the whole prefix and put the suffix on it. -/
def fullPrefix (tip : Hash) (suffix : List Hash) (now : UInt64) :
    Except HistoryError ChainDecision := do
  let chain ← firstParentChain B store tip
  pure (.sameGeneration (chain ++ suffix) (.fresh (chain ++ suffix).length now))

/-- Decide the chain to publish for `target`, given the descriptor of the publication it may
extend. -/
def decideChain (compatible : Option AncestryDescriptor) (target : Hash) (now : UInt64) :
    Except HistoryError ChainDecision :=
  match compatible with
  | none => newGeneration B store target now
  | some descr => do
    match ← firstParentSuffixTo B store target descr.tip descr.leafCount.toNat with
    | .notFound => newGeneration B store target now
    | .reached suffix =>
      match (readScrubState B d).filter (·.generation = descr.generation) with
      | none => fullPrefix B store descr.tip suffix now
      | some scrub =>
        let stop := min (min (scrub.cursor.toNat + scrubWindow scrub.verifiedThrough.toNat)
          (2 ^ 64 - 1)) scrub.verifiedThrough.toNat
        if now.toNat - scrub.lastFullVerifyUnix.toNat ≥ SCRUB_MAX_AGE_SECS ∨
            ¬ stop < scrub.verifiedThrough.toNat then
          -- Stale, or the lap is complete.
          fullPrefix B store descr.tip suffix now
        else do
          let chain ← d.readSnapshotChain B descr.generation
          if stop ≤ chain.length then do
            verifyScrubWindow B store chain scrub.cursor.toNat stop
            pure (.sameGeneration (chain ++ suffix)
              { scrub with cursor := UInt64.ofNat stop })
          else
            -- The scrub file is ahead of the snapshot it belongs to.
            fullPrefix B store descr.tip suffix now

end Decide

/-! ### What the walks compute -/

section Specs

variable {B : Blake3} {store : ObjectStore}

/-- `FirstParents B store next chain`: following first parents from `next` down to a genesis
gives `chain`, oldest first. -/
inductive FirstParents (B : Blake3) (store : ObjectStore) : Option Hash → List Hash → Prop
  | genesis : FirstParents B store none []
  | above {h : Hash} {next : Option Hash} {chain : List Hash}
      (hp : firstParent B store h = .ok next) (hc : FirstParents B store next chain) :
      FirstParents B store (some h) (chain ++ [h])

variable {c : List Hash}

/-- Chains of first parents are unique. -/
theorem FirstParents.unique {next : Option Hash} {c' : List Hash}
    (h : FirstParents B store next c) (h' : FirstParents B store next c') : c = c' := by
  induction h generalizing c' with
  | genesis =>
    cases h'
    rfl
  | above hp hc ih =>
    cases h' with
    | above hp' hc' =>
      rw [hp] at hp'
      obtain rfl := Except.ok.inj hp'
      rw [ih hc']

/-- A chain ends with the commit it starts from. -/
theorem FirstParents.getLast? {h : Hash}
    (hc : FirstParents B store (some h) c) : c.getLast? = some h := by
  cases hc with
  | above => exact List.getLast?_concat

/-- Every commit of a chain ends a chain of its own, the part up to it. -/
theorem FirstParents.of_mem {next : Option Hash}
    (h : FirstParents B store next c) {x : Hash} (hx : x ∈ c) :
    ∃ l l', c = l ++ [x] ++ l' ∧ FirstParents B store (some x) (l ++ [x]) := by
  induction h with
  | genesis => cases hx
  | @above h next chain hp hc ih =>
    rcases List.mem_append.1 hx with hx | hx
    · obtain ⟨l, l', rfl, hl⟩ := ih hx
      exact ⟨l, l' ++ [h], by rw [List.append_assoc _ l' [h]], hl⟩
    · obtain rfl := List.mem_singleton.1 hx
      exact ⟨chain, [], (List.append_nil _).symm, FirstParents.above hp hc⟩

/-- A chain that ends does not repeat a commit: a repeated one would end two chains. -/
theorem FirstParents.nodup {next : Option Hash} (h : FirstParents B store next c) : c.Nodup := by
  induction h with
  | genesis => exact List.nodup_nil
  | @above h next chain hp hc ih =>
    have hnot : h ∉ chain := by
      intro hmem
      obtain ⟨l, l', heq, hl⟩ := hc.of_mem hmem
      have hlen := congrArg List.length (hl.unique (FirstParents.above hp hc))
      rw [heq] at hlen
      simp only [List.length_append, List.length_cons, List.length_nil] at hlen
      omega
    rw [List.nodup_append]
    refine ⟨ih, List.nodup_singleton h, fun a ha b hb => ?_⟩
    rw [List.mem_singleton.1 hb]
    exact fun heq => hnot (heq ▸ ha)

variable {store' : ObjectStore}

theorem firstParent_eq_of_kept (hk : ObjectStore.Kept B store store')
    {h : Hash} {next : Option Hash} (hp : firstParent B store h = .ok next) :
    firstParent B store' h = .ok next := by
  rw [firstParent] at hp ⊢
  cases hr : store.readObject B h with
  | error e =>
    rw [hr] at hp
    cases hp
  | ok o =>
    rw [hk h o hr]
    rwa [hr] at hp

/-- A chain stays a chain when objects are added. -/
theorem FirstParents.kept (hk : ObjectStore.Kept B store store')
    {next : Option Hash} (h : FirstParents B store next c) : FirstParents B store' next c := by
  induction h with
  | genesis => exact .genesis
  | above hp _ ih => exact .above (firstParent_eq_of_kept hk hp) ih

/-- The loop collects the chain of first parents in front of what it has, if the chain fits
in the room and avoids what was seen. -/
theorem chainLoop_eq_ok {room : ℕ} {seen : Finset Hash} {acc out : List Hash} {next : Option Hash} :
    chainLoop B store room seen acc next = .ok out ↔
      ∃ c, FirstParents B store next c ∧ out = c ++ acc ∧ c.length ≤ room ∧
        ∀ h ∈ c, h ∉ seen := by
  induction room generalizing seen acc next with
  | zero =>
    cases next with
    | none =>
      rw [chainLoop, Except.ok.injEq]
      constructor
      · rintro rfl
        exact ⟨[], .genesis, rfl, Nat.le_refl 0, fun h hh => by cases hh⟩
      · rintro ⟨c, hc, rfl, -, -⟩
        cases hc
        rfl
    | some h =>
      constructor
      · rintro ⟨⟩
      · rintro ⟨c, hc, -, hlen, -⟩
        cases hc
        simp at hlen
  | succ room ih =>
    cases next with
    | none =>
      rw [chainLoop, Except.ok.injEq]
      constructor
      · rintro rfl
        exact ⟨[], .genesis, rfl, Nat.zero_le _, fun h hh => by cases hh⟩
      · rintro ⟨c, hc, rfl, -, -⟩
        cases hc
        rfl
    | some h =>
      rw [chainLoop]
      by_cases hs : h ∈ seen
      · rw [if_pos hs]
        constructor
        · rintro ⟨⟩
        · rintro ⟨c, hc, -, -, hseen⟩
          cases hc with
          | above hp hc =>
            exact absurd hs (hseen h (List.mem_append_right _ List.mem_cons_self))
      · rw [if_neg hs, bind_eq_ok]
        constructor
        · rintro ⟨next, hp, hloop⟩
          obtain ⟨c, hc, rfl, hlen, hseen⟩ := ih.1 hloop
          refine ⟨c ++ [h], .above hp hc, (List.append_cons _ _ _), ?_, fun x hx => ?_⟩
          · simpa using hlen
          · rcases List.mem_append.1 hx with hx | hx
            · exact fun hmem => hseen x hx (Finset.mem_insert_of_mem hmem)
            · rwa [List.mem_singleton.1 hx]
        · rintro ⟨c, hc, rfl, hlen, hseen⟩
          have hnodup := hc.nodup
          cases hc with
          | @above _ next chain hp hc =>
            refine ⟨next, hp, ih.2 ⟨chain, hc, (List.append_cons _ _ _).symm, ?_,
              fun x hx hmem => ?_⟩⟩
            · simpa using hlen
            · rcases Finset.mem_insert.1 hmem with rfl | hmem
              · exact (List.nodup_append.1 hnodup).2.2 x hx x List.mem_cons_self rfl
              · exact hseen x (List.mem_append_left _ hx) hmem

/-- The whole walk gives the chain of first parents, within the bound. -/
theorem firstParentChain_eq_ok {tip : Hash} : firstParentChain B store tip = .ok c ↔
      FirstParents B store (some tip) c ∧ c.length ≤ MAX_ANCESTRY_LEAVES := by
  rw [firstParentChain, chainLoop_eq_ok]
  constructor
  · rintro ⟨c', hc, rfl, hlen, -⟩
    rw [List.append_nil]
    exact ⟨hc, hlen⟩
  · rintro ⟨hc, hlen⟩
    exact ⟨c, hc, (List.append_nil c).symm, hlen, fun h _ => Finset.notMem_empty h⟩

/-- A suffix that was reached extends every chain that ends at `stopAt`. -/
theorem suffixLoop_eq_reached {stopAt : Hash} {room : ℕ} {seen : Finset Hash}
    {acc out : List Hash} {next : Option Hash}
    (h : suffixLoop B store stopAt room seen acc next = .ok (.reached out)) :
    ∃ s, out = s ++ acc ∧ s.length ≤ room ∧
      ∀ c, FirstParents B store (some stopAt) c → FirstParents B store next (c ++ s) := by
  have hstop : ∀ {h : Hash}, h = stopAt → ∀ c, FirstParents B store (some stopAt) c →
      FirstParents B store (some h) (c ++ []) := by
    rintro _ rfl c hc
    rwa [List.append_nil]
  induction room generalizing seen acc next with
  | zero =>
    cases next with
    | none => cases h
    | some x =>
      rw [suffixLoop] at h
      by_cases hx : x = stopAt
      · rw [if_pos hx] at h
        cases h
        exact ⟨[], rfl, Nat.le_refl 0, hstop hx⟩
      · rw [if_neg hx] at h
        cases h
  | succ room ih =>
    cases next with
    | none => cases h
    | some x =>
      rw [suffixLoop] at h
      by_cases hx : x = stopAt
      · rw [if_pos hx] at h
        cases h
        exact ⟨[], rfl, Nat.zero_le _, hstop hx⟩
      · rw [if_neg hx] at h
        by_cases hs : x ∈ seen
        · rw [if_pos hs] at h
          cases h
        · rw [if_neg hs, bind_eq_ok] at h
          obtain ⟨next, hp, hloop⟩ := h
          obtain ⟨s, rfl, hlen, hext⟩ := ih hloop
          refine ⟨s ++ [x], List.append_cons _ _ _, by simpa using hlen, fun c hc => ?_⟩
          rw [← List.append_assoc]
          exact .above hp (hext c hc)

/-- The file of a generation holds this snapshot of the branch, and its chain is the chain of
first parents of its tip. -/
structure Holds (B : Blake3) (mmb : List Hash → Except HistoryError Hash) (br : Branch)
    (store : ObjectStore) (file : Bytes) (s : AncestrySnapshot) : Prop where
  wf : s.Wf mmb br
  file : file = s.payload ++ (B.hash s.payload).bytes
  chain : FirstParents B store (some s.descriptor.tip) s.chain

variable {mmb : List Hash → Except HistoryError Hash} {br : Branch} {d : BranchFiles}

variable {s : AncestrySnapshot}

/-- The splice is the whole chain. -/
theorem splice_eq_firstParentChain {target : Hash} {suffix : List Hash}
    (hwf : s.Wf mmb br) (hc : FirstParents B store (some s.descriptor.tip) s.chain)
    (h : firstParentSuffixTo B store target s.descriptor.tip s.descriptor.leafCount.toNat =
      .ok (.reached suffix)) : firstParentChain B store target = .ok (s.chain ++ suffix) := by
  obtain ⟨l, hl, hlen, hext⟩ := suffixLoop_eq_reached h
  rw [List.append_nil] at hl
  subst hl
  refine firstParentChain_eq_ok.2 ⟨hext _ hc, ?_⟩
  have hmax := hwf.length
  rw [hwf.toNat_leafCount] at hlen
  rw [List.length_append]
  omega

theorem newGeneration_eq_ok {target : Hash} {now : UInt64} {decision : ChainDecision}
    (h : newGeneration B store target now = .ok decision) :
    firstParentChain B store target = .ok decision.chain ∧
      decision = .newGeneration decision.chain (.fresh decision.chain.length now) := by
  rw [newGeneration, bind_eq_ok] at h
  obtain ⟨chain, hchain, h⟩ := h
  cases h
  exact ⟨hchain, rfl⟩

theorem fullPrefix_eq_ok {target : Hash} {suffix : List Hash}
    {now : UInt64} {decision : ChainDecision} (hwf : s.Wf mmb br)
    (hc : FirstParents B store (some s.descriptor.tip) s.chain)
    (hs : firstParentSuffixTo B store target s.descriptor.tip s.descriptor.leafCount.toNat =
      .ok (.reached suffix)) (h : fullPrefix B store s.descriptor.tip suffix now = .ok decision) :
    firstParentChain B store target = .ok decision.chain := by
  rw [fullPrefix, bind_eq_ok] at h
  obtain ⟨chain, hchain, h⟩ := h
  obtain rfl := (firstParentChain_eq_ok.1 hchain).1.unique hc
  cases h
  exact splice_eq_firstParentChain hwf hc hs

/-- The chain of a generation's file. -/
theorem readSnapshotChain_eq_ok {g : Hash} {file : Bytes}
    {chain : List Hash} (hg : d.generations g = some file) (hf : Holds B mmb br store file s)
    (h : d.readSnapshotChain B g = .ok chain) : chain = s.chain := by
  rw [BranchFiles.readSnapshotChain, bind_eq_ok] at h
  obtain ⟨raw, hraw, h⟩ := h
  rw [hg, readBounded] at hraw
  split at hraw
  · cases hraw
  · cases hraw
    rw [hf.file, bind_eq_ok] at h
    obtain ⟨⟨descriptor, chain'⟩, hdec, h⟩ := h
    rw [hf.wf.decode_payload] at hdec
    cases hdec
    simp only at h
    split at h
    · cases h
    · cases h
      rfl

/-- A generation's file can be read back. -/
theorem Holds.readSnapshotChain {g : Hash} {file : Bytes}
    (hf : Holds B mmb br store file s) (hg : d.generations g = some file)
    (hgen : s.descriptor.generation = g) : d.readSnapshotChain B g = .ok s.chain := by
  have hlen : ¬ file.length > MAX_SNAPSHOT_BYTES := by
    rw [hf.file]
    exact not_lt.2 hf.wf.length_file_le
  rw [BranchFiles.readSnapshotChain, hg, readBounded, if_neg hlen, hf.file]
  simp only [Bind.bind, Except.bind, hf.wf.decode_payload, hgen, ne_eq, not_true_eq_false,
    if_false]
  rfl

/-- An integer field behind `pos` bytes. -/
theorem ofNat_field (front rest : Bytes) (v : UInt64) {pos : ℕ} (hfront : front.length = pos) :
    UInt64.ofNat (ofLeBytes (((front ++ (leBytes 8 v.toNat ++ rest)).drop pos).take 8)) = v := by
  have hlt : v.toNat < 256 ^ 8 := v.toNat_lt
  rw [List.drop_left' hfront, List.take_left' (length_leBytes 8 _), ofLeBytes_leBytes,
    Nat.mod_eq_of_lt hlt, UInt64.ofNat_toNat]

/-- A scrub file decodes to the state it was written for. -/
theorem ScrubState.decode_encode (s : ScrubState) : ScrubState.decode B (s.encode B) = some s := by
  obtain ⟨g, cursor, range, last⟩ := s
  have hg : g.bytes.length = 32 := g.length_bytes
  have hmagic : SCRUB_MAGIC.length = 5 := rfl
  generalize hpay : SCRUB_MAGIC ++ (g.bytes ++ (leBytes 8 cursor.toNat ++
    (leBytes 8 range.toNat ++ leBytes 8 last.toNat))) = payload
  generalize hsum : (B.hash payload).bytes = sum
  have hlen : payload.length = 61 := by
    simp only [← hpay, List.length_append, hmagic, hg, length_leBytes]
  have hsumlen : sum.length = 32 := by rw [← hsum, ByteArr.length_bytes]; rfl
  have henc : ScrubState.encode B ⟨g, cursor, range, last⟩ = payload ++ sum := by
    simp only [ScrubState.encode, hpay, hsum]
  have hmagic' : (payload ++ sum).take 5 = SCRUB_MAGIC := by
    rw [← hpay, List.append_assoc]
    exact List.take_left' hmagic
  have hpad : ByteArr.pad HASH_LEN ((payload ++ sum).drop 5) = g := by
    rw [← hpay, List.append_assoc, List.drop_left' hmagic, List.append_assoc, pad_append]
  have hcursor : UInt64.ofNat (ofLeBytes (((payload ++ sum).drop 37).take 8)) = cursor := by
    have h := ofNat_field (SCRUB_MAGIC ++ g.bytes) (leBytes 8 range.toNat ++
      (leBytes 8 last.toNat ++ sum)) cursor (by rw [List.length_append, hmagic, hg] : _ = 37)
    simpa only [← hpay, List.append_assoc] using h
  have hrange : UInt64.ofNat (ofLeBytes (((payload ++ sum).drop 45).take 8)) = range := by
    have h := ofNat_field (SCRUB_MAGIC ++ (g.bytes ++ leBytes 8 cursor.toNat))
      (leBytes 8 last.toNat ++ sum) range
      (by simp only [List.length_append, hmagic, hg, length_leBytes] : _ = 45)
    simpa only [← hpay, List.append_assoc] using h
  have hlast : UInt64.ofNat (ofLeBytes (((payload ++ sum).drop 53).take 8)) = last := by
    have h := ofNat_field (SCRUB_MAGIC ++ (g.bytes ++ (leBytes 8 cursor.toNat ++
      leBytes 8 range.toNat))) sum last
      (by simp only [List.length_append, hmagic, hg, length_leBytes] : _ = 53)
    simpa only [← hpay, List.append_assoc] using h
  have htotal : (payload ++ sum).length = 93 := by rw [List.length_append, hlen, hsumlen]
  rw [henc, ScrubState.decode, if_neg (by simp [htotal, hmagic']), List.take_left' hlen,
    List.drop_left' hlen, hsum, if_neg (not_not.2 rfl)]
  simp only [hpad, hcursor, hrange, hlast]

/-- **Every choice publishes the whole chain.** Whatever the scrub file says, the chain that
is decided on is the one the whole walk from the target gives. -/
theorem decideChain_eq_ok (mmb : List Hash → Except HistoryError Hash) (br : Branch)
    {compatible : Option AncestryDescriptor} {target : Hash}
    {now : UInt64} {decision : ChainDecision}
    (hcompat : ∀ descr ∈ compatible, ∃ file s, d.generations descr.generation = some file ∧
      Holds B mmb br store file s ∧ s.descriptor = descr)
    (h : decideChain B store d compatible target now = .ok decision) :
    firstParentChain B store target = .ok decision.chain ∧
      (compatible = none → ∃ scrub, decision = .newGeneration decision.chain scrub) := by
  cases compatible with
  | none =>
    rw [decideChain] at h
    obtain ⟨hchain, hdec⟩ := newGeneration_eq_ok h
    exact ⟨hchain, fun _ => ⟨_, hdec⟩⟩
  | some descr =>
    refine ⟨?_, fun hnone => by cases hnone⟩
    obtain ⟨file, s, hg, hf, rfl⟩ := hcompat descr rfl
    rw [decideChain, bind_eq_ok] at h
    obtain ⟨walk, hwalk, h⟩ := h
    cases walk with
    | notFound => exact (newGeneration_eq_ok h).1
    | reached suffix =>
      have hfull : ∀ {decision}, fullPrefix B store s.descriptor.tip suffix now =
          .ok decision → firstParentChain B store target = .ok decision.chain :=
        fun h => fullPrefix_eq_ok hf.wf hf.chain hwalk h
      simp only at h
      split at h
      · exact hfull h
      · split at h
        · exact hfull h
        · simp only [bind_eq_ok] at h
          obtain ⟨chain, hchain, h⟩ := h
          split at h
          · simp only [bind_eq_ok] at h
            obtain ⟨-, -, h⟩ := h
            cases h
            rw [readSnapshotChain_eq_ok hg hf hchain]
            exact splice_eq_firstParentChain hf.wf hf.chain hwalk
          · exact hfull h

end Specs

end Mkit
