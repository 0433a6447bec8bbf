import Mkit.AncestryRuns
import Mkit.Lib.Effect

/-!
# The Scrub Schedule

A fast forward re-reads only a window of the chain it extends; the window moves on with every
publication, and when it would reach the end of the range that was last verified the whole
chain is walked instead. How long a leaf can go without being read is a matter of several
publications: a lap over `V` leaves with windows of `w` takes `⌈V / w⌉` of them, and the last
leaf is read by the last one only.

`Traced` is `decideChain` with a record of the ids it reads from the store. The window is
`V / 64`, rounded down, once that exceeds 512; so a lap takes 64 publications when 64 divides
`V` and 65 otherwise.

## Main results

* `logs_decideChain` — the record changes nothing else;
* `scrub_lap_iff` — when every leaf is read within the promised number of publications.
-/

namespace Mkit

open Wire Effect

/-! ### Reads on record -/

namespace Traced

section Walks

variable (B : Blake3) (store : ObjectStore)

/-- Read an object, noting its id. -/
def readObject (h : Hash) : ExceptT HistoryError (StateM (List Hash)) Object := do
  let log ← get
  set (log ++ [h])
  match store.readObject B h with
  | .error e => throw (.store e)
  | .ok o => return o

/-- The first parent of a commit or remix. -/
def firstParent (h : Hash) : ExceptT HistoryError (StateM (List Hash)) (Option Hash) := do
  match ← readObject B store h with
  | .commit c => return c.parents.head?
  | .remix r => return r.parents.head?
  | _ => throw ancestryNotCommitOrRemix

/-- The loop of `firstParentChain`. -/
def chainLoop : ℕ → Finset Hash → List Hash → Option Hash →
    ExceptT HistoryError (StateM (List Hash)) (List Hash)
  | _, _, chain, none => return chain
  | 0, _, _, some _ => throw ancestryCycleOrLimit
  | room + 1, seen, chain, some h =>
    if h ∈ seen then throw ancestryCycleOrLimit
    else do
      let next ← firstParent B store h
      chainLoop room (insert h seen) (h :: chain) next

/-- The chain of first parents of a commit, oldest first. -/
def firstParentChain (tip : Hash) : ExceptT HistoryError (StateM (List Hash)) (List Hash) :=
  chainLoop B store MAX_ANCESTRY_LEAVES ∅ [] (some tip)

/-- The loop of `firstParentSuffixTo`. -/
def suffixLoop (stopAt : Hash) : ℕ → Finset Hash → List Hash → Option Hash →
    ExceptT HistoryError (StateM (List Hash)) SuffixWalk
  | _, _, _, none => return .notFound
  | 0, _, suffix, some h =>
    if h = stopAt then return .reached suffix else throw ancestryCycleOrLimit
  | room + 1, seen, suffix, some h =>
    if h = stopAt then return .reached suffix
    else if h ∈ seen then throw ancestryCycleOrLimit
    else do
      let next ← firstParent B store h
      suffixLoop stopAt room (insert h seen) (h :: suffix) next

/-- The first parents of `target` above `stopAt`. -/
def firstParentSuffixTo (target stopAt : Hash) (prefixLen : ℕ) :
    ExceptT HistoryError (StateM (List Hash)) SuffixWalk :=
  suffixLoop B store stopAt (MAX_ANCESTRY_LEAVES - prefixLen) ∅ [] (some target)

/-- Read the leaves of a window one by one. -/
def rereadAll : List Hash → ExceptT HistoryError (StateM (List Hash)) PUnit
  | [] => return ⟨⟩
  | h :: hs => do
    match ← readObject B store h with
    | .commit _ => rereadAll hs
    | .remix _ => rereadAll hs
    | _ => throw ancestryNotCommitOrRemix

/-- Re-read the leaves `start..stop` of a chain. -/
def verifyScrubWindow (chain : List Hash) (start stop : ℕ) :
    ExceptT HistoryError (StateM (List Hash)) PUnit :=
  if start ≤ stop ∧ stop ≤ chain.length then
    rereadAll B store ((chain.take stop).drop start)
  else throw (.corrupted "scrub window bounds exceed the on-disk ancestry prefix")

end Walks

section Decide

variable (B : Blake3) (store : ObjectStore) (d : BranchFiles)

/-- Walk the whole chain for a new generation. -/
def newGeneration (target : Hash) (now : UInt64) :
    ExceptT HistoryError (StateM (List Hash)) ChainDecision := do
  let chain ← firstParentChain B store target
  return .newGeneration chain (.fresh chain.length now)

/-- Walk the whole prefix and put the suffix on it. -/
def fullPrefix (tip : Hash) (suffix : List Hash) (now : UInt64) :
    ExceptT HistoryError (StateM (List Hash)) ChainDecision := do
  let chain ← firstParentChain B store tip
  return .sameGeneration (chain ++ suffix) (.fresh (chain ++ suffix).length now)

/-- Read the window a scrub state calls for. -/
def readWindow (descr : AncestryDescriptor) (suffix : List Hash) (now : UInt64)
    (scrub : ScrubState) (stop : ℕ) : ExceptT HistoryError (StateM (List Hash)) ChainDecision :=
  match d.readSnapshotChain B descr.generation with
  | .error e => throw e
  | .ok chain =>
    if stop ≤ chain.length then do
      verifyScrubWindow B store chain scrub.cursor.toNat stop
      return .sameGeneration (chain ++ suffix) { scrub with cursor := UInt64.ofNat stop }
    else fullPrefix B store descr.tip suffix now

/-- Extend the chain of a descriptor. -/
def extendPrefix (descr : AncestryDescriptor) (suffix : List Hash) (now : UInt64) :
    ExceptT HistoryError (StateM (List Hash)) ChainDecision :=
  match (readScrubState B d).filter (·.generation = descr.generation) with
  | none => fullPrefix B store descr.tip suffix now
  | some scrub =>
    let stop := min (min (scrub.cursor.toNat + scrubWindow scrub.verifiedThrough.toNat)
      (2 ^ 64 - 1)) scrub.verifiedThrough.toNat
    if now.toNat - scrub.lastFullVerifyUnix.toNat ≥ SCRUB_MAX_AGE_SECS ∨
        ¬ stop < scrub.verifiedThrough.toNat then
      fullPrefix B store descr.tip suffix now
    else readWindow B store d descr suffix now scrub stop

/-- Decide the chain to publish for `target`. -/
def decideChain (compatible : Option AncestryDescriptor) (target : Hash) (now : UInt64) :
    ExceptT HistoryError (StateM (List Hash)) ChainDecision :=
  match compatible with
  | none => newGeneration B store target now
  | some descr => do
    match ← firstParentSuffixTo B store target descr.tip descr.leafCount.toNat with
    | .notFound => newGeneration B store target now
    | .reached suffix => extendPrefix B store d descr suffix now

end Decide

end Traced

/-! ### `decideChain` in parts -/

section Parts

variable (B : Blake3) (store : ObjectStore) (d : BranchFiles)

/-- The part of `decideChain` that reads a window. -/
def readWindow (descr : AncestryDescriptor) (suffix : List Hash) (now : UInt64)
    (scrub : ScrubState) (stop : ℕ) : Except HistoryError ChainDecision :=
  match d.readSnapshotChain B descr.generation with
  | .error e => .error e
  | .ok chain =>
    if stop ≤ chain.length then do
      verifyScrubWindow B store chain scrub.cursor.toNat stop
      pure (.sameGeneration (chain ++ suffix) { scrub with cursor := UInt64.ofNat stop })
    else fullPrefix B store descr.tip suffix now

/-- The part of `decideChain` behind the walk to the known tip. -/
def extendPrefix (descr : AncestryDescriptor) (suffix : List Hash) (now : UInt64) :
    Except HistoryError ChainDecision :=
  match (readScrubState B d).filter (·.generation = descr.generation) with
  | none => fullPrefix B store descr.tip suffix now
  | some scrub =>
    let stop := min (min (scrub.cursor.toNat + scrubWindow scrub.verifiedThrough.toNat)
      (2 ^ 64 - 1)) scrub.verifiedThrough.toNat
    if now.toNat - scrub.lastFullVerifyUnix.toNat ≥ SCRUB_MAX_AGE_SECS ∨
        ¬ stop < scrub.verifiedThrough.toNat then
      fullPrefix B store descr.tip suffix now
    else readWindow B store d descr suffix now scrub stop

theorem decideChain_some (descr : AncestryDescriptor) (target : Hash) (now : UInt64) :
    decideChain B store d (some descr) target now = (do
      match ← firstParentSuffixTo B store target descr.tip descr.leafCount.toNat with
      | .notFound => newGeneration B store target now
      | .reached suffix => extendPrefix B store d descr suffix now) := by
  rw [decideChain]
  refine congrArg _ (funext fun walk => ?_)
  cases walk with
  | notFound => rfl
  | reached suffix =>
    simp only [extendPrefix, readWindow]
    cases (readScrubState B d).filter (·.generation = descr.generation) with
    | none => rfl
    | some scrub => cases d.readSnapshotChain B descr.generation <;> rfl

end Parts

section Refinement

variable (B : Blake3) (store : ObjectStore)

theorem logs_readObject (h : Hash) :
    Logs (Traced.readObject B store h) ((store.readObject B h).mapError .store) [h] := by
  intro log
  rw [Traced.readObject, exec_get_bind, exec_set_bind]
  cases store.readObject B h with
  | error e => rfl
  | ok o => rfl

theorem logs_firstParent (h : Hash) :
    Logs (Traced.firstParent B store h) (firstParent B store h) [h] := by
  have hread := logs_readObject B store h
  rw [Traced.firstParent, firstParent]
  cases hr : store.readObject B h with
  | error e =>
    rw [hr] at hread
    exact hread.bind_error
  | ok o =>
    rw [hr] at hread
    cases o with
    | commit c => exact hread.bind (logs_pure _)
    | remix r => exact hread.bind (logs_pure _)
    | _ => exact hread.bind (logs_throw _)

/-- The walk reads the chain it collects, tip first. -/
theorem logs_chainLoop (room : ℕ) (seen : Finset Hash) (acc : List Hash) (next : Option Hash) :
    ∃ l, Logs (Traced.chainLoop B store room seen acc next)
        (chainLoop B store room seen acc next) l ∧
      ∀ out, chainLoop B store room seen acc next = .ok out → out = l.reverse ++ acc := by
  induction room generalizing seen acc next with
  | zero =>
    cases next with
    | none =>
      refine ⟨[], logs_pure _, fun out hout => ?_⟩
      exact (Except.ok.inj hout).symm
    | some h => exact ⟨[], logs_throw _, fun out hout => by cases hout⟩
  | succ room ih =>
    cases next with
    | none =>
      refine ⟨[], logs_pure _, fun out hout => ?_⟩
      exact (Except.ok.inj hout).symm
    | some h =>
      rw [Traced.chainLoop, chainLoop]
      by_cases hs : h ∈ seen
      · rw [if_pos hs, if_pos hs]
        exact ⟨[], logs_throw _, fun out hout => by cases hout⟩
      · rw [if_neg hs, if_neg hs]
        have hp := logs_firstParent B store h
        cases hr : firstParent B store h with
        | error e =>
          rw [hr] at hp
          exact ⟨[h], hp.bind_error, fun out hout => by cases hout⟩
        | ok next =>
          rw [hr] at hp
          obtain ⟨l, hl, hout⟩ := ih (insert h seen) (h :: acc) next
          refine ⟨[h] ++ l, hp.bind hl, fun out ho => ?_⟩
          rw [hout out ho, List.reverse_append, List.append_assoc]
          rfl

/-- The walk toward a known commit reads the suffix it collects. -/
theorem logs_suffixLoop (stopAt : Hash) (room : ℕ) (seen : Finset Hash) (acc : List Hash)
    (next : Option Hash) : ∃ l, Logs (Traced.suffixLoop B store stopAt room seen acc next)
        (suffixLoop B store stopAt room seen acc next) l ∧
      ∀ out, suffixLoop B store stopAt room seen acc next = .ok (.reached out) →
        out = l.reverse ++ acc := by
  induction room generalizing seen acc next with
  | zero =>
    cases next with
    | none => exact ⟨[], logs_pure _, fun out hout => by cases hout⟩
    | some h =>
      rw [Traced.suffixLoop, suffixLoop]
      by_cases hh : h = stopAt
      · rw [if_pos hh, if_pos hh]
        exact ⟨[], logs_pure _, fun out hout => by cases hout; rfl⟩
      · rw [if_neg hh, if_neg hh]
        exact ⟨[], logs_throw _, fun out hout => by cases hout⟩
  | succ room ih =>
    cases next with
    | none => exact ⟨[], logs_pure _, fun out hout => by cases hout⟩
    | some h =>
      rw [Traced.suffixLoop, suffixLoop]
      by_cases hh : h = stopAt
      · rw [if_pos hh, if_pos hh]
        exact ⟨[], logs_pure _, fun out hout => by cases hout; rfl⟩
      · rw [if_neg hh, if_neg hh]
        by_cases hs : h ∈ seen
        · rw [if_pos hs, if_pos hs]
          exact ⟨[], logs_throw _, fun out hout => by cases hout⟩
        · rw [if_neg hs, if_neg hs]
          have hp := logs_firstParent B store h
          cases hr : firstParent B store h with
          | error e =>
            rw [hr] at hp
            exact ⟨[h], hp.bind_error, fun out hout => by cases hout⟩
          | ok next =>
            rw [hr] at hp
            obtain ⟨l, hl, hout⟩ := ih (insert h seen) (h :: acc) next
            refine ⟨[h] ++ l, hp.bind hl, fun out ho => ?_⟩
            rw [hout out ho, List.reverse_append, List.append_assoc]
            rfl

theorem logs_firstParentChain (tip : Hash) :
    ∃ l, Logs (Traced.firstParentChain B store tip) (firstParentChain B store tip) l ∧
      ∀ chain, firstParentChain B store tip = .ok chain → l = chain.reverse := by
  obtain ⟨l, hl, hout⟩ := logs_chainLoop B store MAX_ANCESTRY_LEAVES ∅ []
    (some tip)
  refine ⟨l, hl, fun chain hchain => ?_⟩
  rw [hout chain hchain, List.append_nil, List.reverse_reverse]

theorem logs_firstParentSuffixTo (target stopAt : Hash) (prefixLen : ℕ) :
    ∃ l, Logs (Traced.firstParentSuffixTo B store target stopAt prefixLen)
        (firstParentSuffixTo B store target stopAt prefixLen) l ∧
      ∀ suffix, firstParentSuffixTo B store target stopAt prefixLen = .ok (.reached suffix) →
        l = suffix.reverse := by
  obtain ⟨l, hl, hout⟩ := logs_suffixLoop B store stopAt
    (MAX_ANCESTRY_LEAVES - prefixLen) ∅ [] (some target)
  refine ⟨l, hl, fun suffix hsuffix => ?_⟩
  rw [hout suffix hsuffix, List.append_nil, List.reverse_reverse]

/-- A window that passes has been read leaf by leaf. -/
theorem logs_verifyScrubWindow (chain : List Hash) (start stop : ℕ) :
    ∃ l, Logs (Traced.verifyScrubWindow B store chain start stop)
        (verifyScrubWindow B store chain start stop) l ∧
      (verifyScrubWindow B store chain start stop = .ok () →
        l = (chain.take stop).drop start) := by
  rw [Traced.verifyScrubWindow, verifyScrubWindow]
  by_cases hc : start ≤ stop ∧ stop ≤ chain.length
  · rw [if_pos hc, if_pos hc]
    generalize (chain.take stop).drop start = window
    induction window with
    | nil => exact ⟨[], logs_pure _, fun _ => rfl⟩
    | cons h window ih =>
      obtain ⟨l, hl, hout⟩ := ih
      have hread := logs_readObject B store h
      rw [Traced.rereadAll, List.forM]
      cases hr : store.readObject B h with
      | error e =>
        rw [hr] at hread
        exact ⟨[h], hread.bind_error, fun hok => by cases hok⟩
      | ok o =>
        rw [hr] at hread
        cases o with
        | commit c =>
          refine ⟨[h] ++ l, hread.bind hl, fun hok => ?_⟩
          rw [hout hok]
          rfl
        | remix r =>
          refine ⟨[h] ++ l, hread.bind hl, fun hok => ?_⟩
          rw [hout hok]
          rfl
        | _ => exact ⟨[h] ++ [], hread.bind (logs_throw _), fun hok => by cases hok⟩
  · rw [if_neg hc, if_neg hc]
    exact ⟨[], logs_throw _, fun hok => by cases hok⟩

/-- A walk over the whole prefix has read it. -/
theorem logs_fullPrefix (tip : Hash) (suffix : List Hash) (now : UInt64) :
    ∃ l, Logs (Traced.fullPrefix B store tip suffix now) (fullPrefix B store tip suffix now) l ∧
      ∀ decision, fullPrefix B store tip suffix now = .ok decision →
        ∃ chain, firstParentChain B store tip = .ok chain ∧ l = chain.reverse ∧
          decision = .sameGeneration (chain ++ suffix) (.fresh (chain ++ suffix).length now) := by
  obtain ⟨l, hl, hout⟩ := logs_firstParentChain B store tip
  rw [Traced.fullPrefix, fullPrefix]
  cases hr : firstParentChain B store tip with
  | error e =>
    rw [hr] at hl
    exact ⟨l, hl.bind_error, fun decision hd => by cases hd⟩
  | ok chain =>
    rw [hr] at hl
    refine ⟨l ++ [], hl.bind (logs_pure _), fun decision hd => ⟨chain, rfl, ?_, ?_⟩⟩
    · rw [List.append_nil, hout chain hr]
    · exact (Except.ok.inj hd).symm

theorem logs_newGeneration (target : Hash) (now : UInt64) :
    ∃ l, Logs (Traced.newGeneration B store target now) (newGeneration B store target now) l := by
  obtain ⟨l, hl, -⟩ := logs_firstParentChain B store target
  rw [Traced.newGeneration, newGeneration]
  cases hr : firstParentChain B store target with
  | error e =>
    rw [hr] at hl
    exact ⟨l, hl.bind_error⟩
  | ok chain =>
    rw [hr] at hl
    exact ⟨l ++ [], hl.bind (logs_pure _)⟩

/-- The end of a window, short of the range it rotates through. -/
theorem stop_lt_iff (a : ℕ) (v : UInt64) :
    (min (min a (2 ^ 64 - 1)) v.toNat < v.toNat ↔ a < v.toNat) ∧
      (a < v.toNat → min (min a (2 ^ 64 - 1)) v.toNat = a) := by
  have hv := v.toNat_lt
  omega

/-- **What a decision has read.** A new generation aside, the suffix, and either the whole
prefix — unless an intact scrub state calls for less — or the window the scrub state calls
for. -/
inductive Decides (B : Blake3) (store : ObjectStore) (d : BranchFiles)
    (descr : AncestryDescriptor) (target : Hash) (now : UInt64) :
    ChainDecision → List Hash → Prop
  | newGeneration {chain : List Hash} {scrub : ScrubState} {l : List Hash} :
      Decides B store d descr target now (.newGeneration chain scrub) l
  | whole {suffix chain : List Hash}
      (hsuffix : firstParentSuffixTo B store target descr.tip descr.leafCount.toNat =
        .ok (.reached suffix))
      (hchain : firstParentChain B store descr.tip = .ok chain)
      (hscrub : ∀ scrub ∈ (readScrubState B d).filter (·.generation = descr.generation),
        now.toNat - scrub.lastFullVerifyUnix.toNat < SCRUB_MAX_AGE_SECS →
        scrub.cursor.toNat + scrubWindow scrub.verifiedThrough.toNat <
          scrub.verifiedThrough.toNat →
        ∃ known, d.readSnapshotChain B descr.generation = .ok known ∧
          known.length < scrub.cursor.toNat + scrubWindow scrub.verifiedThrough.toNat) :
      Decides B store d descr target now
        (.sameGeneration (chain ++ suffix) (.fresh (chain ++ suffix).length now))
        (suffix.reverse ++ chain.reverse)
  | window {suffix chain : List Hash} {scrub : ScrubState} {stop : ℕ}
      (hsuffix : firstParentSuffixTo B store target descr.tip descr.leafCount.toNat =
        .ok (.reached suffix))
      (hscrub : (readScrubState B d).filter (·.generation = descr.generation) = some scrub)
      (hstop : stop = scrub.cursor.toNat + scrubWindow scrub.verifiedThrough.toNat)
      (hlt : stop < scrub.verifiedThrough.toNat)
      (hchain : d.readSnapshotChain B descr.generation = .ok chain) :
      Decides B store d descr target now
        (.sameGeneration (chain ++ suffix) { scrub with cursor := UInt64.ofNat stop })
        (suffix.reverse ++ (chain.take stop).drop scrub.cursor.toNat)

section Decides

variable {B store} {d : BranchFiles} {descr : AncestryDescriptor} {target : Hash}
  {suffix : List Hash}

/-- Every way to the whole prefix comes with the reason why no window was read. -/
theorem logs_whole (now : UInt64)
    (hsuffix : firstParentSuffixTo B store target descr.tip descr.leafCount.toNat =
      .ok (.reached suffix))
    (hscrub : ∀ scrub ∈ (readScrubState B d).filter (·.generation = descr.generation),
      now.toNat - scrub.lastFullVerifyUnix.toNat < SCRUB_MAX_AGE_SECS →
      scrub.cursor.toNat + scrubWindow scrub.verifiedThrough.toNat <
        scrub.verifiedThrough.toNat →
      ∃ known, d.readSnapshotChain B descr.generation = .ok known ∧
        known.length < scrub.cursor.toNat + scrubWindow scrub.verifiedThrough.toNat) :
    ∃ l, Logs (Traced.fullPrefix B store descr.tip suffix now)
        (fullPrefix B store descr.tip suffix now) l ∧
      ∀ decision, fullPrefix B store descr.tip suffix now = .ok decision →
        Decides B store d descr target now decision (suffix.reverse ++ l) := by
  obtain ⟨l, hl, hdec⟩ := logs_fullPrefix B store descr.tip suffix now
  refine ⟨l, hl, fun decision hd => ?_⟩
  obtain ⟨chain, hchain, rfl, rfl⟩ := hdec decision hd
  exact .whole hsuffix hchain hscrub

theorem logs_readWindow (now : UInt64) {scrub : ScrubState} {stop : ℕ}
    (hsuffix : firstParentSuffixTo B store target descr.tip descr.leafCount.toNat =
      .ok (.reached suffix))
    (hscrub : (readScrubState B d).filter (·.generation = descr.generation) = some scrub)
    (hstop : stop = scrub.cursor.toNat + scrubWindow scrub.verifiedThrough.toNat)
    (hlt : stop < scrub.verifiedThrough.toNat) :
    ∃ l, Logs (Traced.readWindow B store d descr suffix now scrub stop)
        (readWindow B store d descr suffix now scrub stop) l ∧
      ∀ decision, readWindow B store d descr suffix now scrub stop = .ok decision →
        Decides B store d descr target now decision (suffix.reverse ++ l) := by
  rw [Traced.readWindow, readWindow]
  cases hchain : d.readSnapshotChain B descr.generation with
  | error e => exact ⟨[], logs_throw e, fun decision hd => by cases hd⟩
  | ok chain =>
    simp only
    by_cases hle : stop ≤ chain.length
    · rw [if_pos hle, if_pos hle]
      obtain ⟨l, hl, hwindow⟩ := logs_verifyScrubWindow B store chain scrub.cursor.toNat stop
      cases hr : verifyScrubWindow B store chain scrub.cursor.toNat stop with
      | error e =>
        rw [hr] at hl
        exact ⟨l, hl.bind_error, fun decision hd => by cases hd⟩
      | ok u =>
        rw [hr] at hl
        refine ⟨l ++ [], hl.bind (logs_pure _), fun decision hd => ?_⟩
        obtain rfl := Except.ok.inj hd
        rw [List.append_nil, hwindow hr]
        exact .window hsuffix hscrub hstop hlt hchain
    · rw [if_neg hle, if_neg hle]
      refine logs_whole now hsuffix fun scrub' hs' _ _ => ?_
      obtain rfl := Option.some.inj (hscrub.symm.trans hs')
      exact ⟨chain, hchain, hstop ▸ not_le.1 hle⟩

theorem logs_extendPrefix (now : UInt64)
    (hsuffix : firstParentSuffixTo B store target descr.tip descr.leafCount.toNat =
      .ok (.reached suffix)) : ∃ l, Logs (Traced.extendPrefix B store d descr suffix now)
        (extendPrefix B store d descr suffix now) l ∧
      ∀ decision, extendPrefix B store d descr suffix now = .ok decision →
        Decides B store d descr target now decision (suffix.reverse ++ l) := by
  rw [Traced.extendPrefix, extendPrefix]
  cases hs : (readScrubState B d).filter (·.generation = descr.generation) with
  | none => exact logs_whole now hsuffix (by rw [hs]; exact fun _ h => by cases h)
  | some scrub =>
    obtain ⟨hlt, hstop⟩ := stop_lt_iff
      (scrub.cursor.toNat + scrubWindow scrub.verifiedThrough.toNat) scrub.verifiedThrough
    simp only
    split
    · rename_i hdue
      refine logs_whole now hsuffix ?_
      rw [hs]
      rintro _ ⟨⟩ hnow hshort
      rcases hdue with hdue | hdue
      · exact absurd hnow (not_lt.2 hdue)
      · exact absurd (hlt.2 hshort) hdue
    · rename_i hdue
      have hshort := hlt.1 (not_not.1 (not_or.1 hdue).2)
      exact logs_readWindow now hsuffix hs (hstop hshort) (hlt.2 hshort)

end Decides

/-- **The record changes nothing else.** With its reads on record the decision is the same
one, and it has read what `Decides` says. -/
theorem logs_decideChain (d : BranchFiles) (descr : AncestryDescriptor) (target : Hash)
    (now : UInt64) : ∃ l, Logs (Traced.decideChain B store d (some descr) target now)
        (decideChain B store d (some descr) target now) l ∧
      ∀ decision, decideChain B store d (some descr) target now = .ok decision →
        Decides B store d descr target now decision l := by
  obtain ⟨l, hl, hread⟩ := logs_firstParentSuffixTo B store target descr.tip descr.leafCount.toNat
  rw [Traced.decideChain, decideChain_some]
  cases hsuffix : firstParentSuffixTo B store target descr.tip descr.leafCount.toNat with
  | error e =>
    rw [hsuffix] at hl
    exact ⟨l, hl.bind_error, fun decision hd => by cases hd⟩
  | ok walk =>
    rw [hsuffix] at hl
    cases walk with
    | notFound =>
      obtain ⟨l', hl'⟩ := logs_newGeneration B store target now
      refine ⟨l ++ l', hl.bind hl', fun decision hd => ?_⟩
      rw [(newGeneration_eq_ok hd).2]
      exact .newGeneration
    | reached suffix =>
      rw [hread suffix hsuffix] at hl
      obtain ⟨l', hl', hdec⟩ := logs_extendPrefix (d := d) now hsuffix
      exact ⟨_, hl.bind hl', hdec⟩

end Refinement

/-! ### Runs of fast forwards -/

/-- What is published for a branch: the snapshot, and the scrub state beside it. -/
structure Published where
  snapshot : AncestrySnapshot
  scrub : ScrubState

section Runs

variable (B : Blake3) (mmb : List Hash → Except HistoryError Hash) (br : Branch)
  (all : ObjectStore)

/-- A fast forward with an intact scrub state that is not stale, labelled by the ids it reads
from the store. The store may differ from publication to publication, losing and regaining
objects; `all` holds every object it ever has. -/
inductive FastForward : Published → List Hash → Published → Prop
  | publish {st : Published} {store : ObjectStore} {d : BranchFiles} {target : Hash}
      {now : UInt64} {chain : List Hash} {scrub : ScrubState} {snapshot : AncestrySnapshot}
      {reads : List Hash} (hstore : ObjectStore.Kept B store all)
      (hfile : d.generations st.snapshot.descriptor.generation = some (st.snapshot.file B))
      (hscrub : readScrubState B d = some st.scrub)
      (hnow : now.toNat - st.scrub.lastFullVerifyUnix.toNat < SCRUB_MAX_AGE_SECS)
      (hdecide : exec (Traced.decideChain B store d (some st.snapshot.descriptor) target now)
        [] = (.ok (.sameGeneration chain scrub), reads))
      (hbuild : AncestrySnapshot.build mmb st.snapshot.descriptor.repository br.fullRef
        st.snapshot.descriptor.generation chain = .ok snapshot) :
      FastForward st reads
        ⟨snapshot, { scrub with generation := st.snapshot.descriptor.generation }⟩

/-- What a publication that walked the whole chain leaves: the chain of first parents, and a
fresh scrub state. -/
structure WholeWalk (st : Published) : Prop where
  wf : st.snapshot.Wf mmb br
  chain : FirstParents B all (some st.snapshot.descriptor.tip) st.snapshot.chain
  scrub : ∃ now, st.scrub = { ScrubState.fresh st.snapshot.chain.length now with
    generation := st.snapshot.descriptor.generation }

/-- What every publication leaves: the scrub state belongs to the snapshot, its range does
not exceed the chain, and its cursor is in the range, a whole number of windows in. -/
structure OnLap (st : Published) : Prop where
  wf : st.snapshot.Wf mmb br
  chain : FirstParents B all (some st.snapshot.descriptor.tip) st.snapshot.chain
  generation : st.scrub.generation = st.snapshot.descriptor.generation
  cursor_lt : st.scrub.cursor.toNat < st.scrub.verifiedThrough.toNat
  range_le : st.scrub.verifiedThrough.toNat ≤ st.snapshot.chain.length
  window_dvd : scrubWindow st.scrub.verifiedThrough.toNat ∣ st.scrub.cursor.toNat

end Runs

section Laps

variable {B : Blake3} {mmb : List Hash → Except HistoryError Hash} {br : Branch}
  {all : ObjectStore} {st st' : Published} {reads : List Hash}

theorem WholeWalk.onLap (h : WholeWalk B mmb br all st) : OnLap B mmb br all st := by
  obtain ⟨now, hscrub⟩ := h.scrub
  have hlen := h.wf.length
  have hpos : 0 < st.snapshot.chain.length := by
    rw [List.length_pos_iff]
    intro hnil
    have htip := h.wf.tip
    rw [hnil] at htip
    cases htip
  have hrange : st.scrub.verifiedThrough.toNat = st.snapshot.chain.length := by
    rw [hscrub]
    refine (UInt64.toNat_ofNat').trans (Nat.mod_eq_of_lt ?_)
    rw [MAX_ANCESTRY_LEAVES] at hlen
    omega
  have hcursor : st.scrub.cursor.toNat = 0 := by rw [hscrub]; rfl
  refine ⟨h.wf, h.chain, by rw [hscrub], ?_, hrange.le, ?_⟩
  · rw [hcursor, hrange]
    exact hpos
  · rw [hcursor]
    exact dvd_zero _

theorem suffixLoop_kept {store : ObjectStore} (hstore : ObjectStore.Kept B store all)
    {stopAt : Hash} {room : ℕ} {seen : Finset Hash} {acc : List Hash} {next : Option Hash}
    {walk : SuffixWalk} (h : suffixLoop B store stopAt room seen acc next = .ok walk) :
    suffixLoop B all stopAt room seen acc next = .ok walk := by
  induction room generalizing seen acc next with
  | zero =>
    cases next with
    | none => exact h
    | some x => exact h
  | succ room ih =>
    cases next with
    | none => exact h
    | some x =>
      rw [suffixLoop] at h ⊢
      split
      · rwa [if_pos ‹_›] at h
      · rw [if_neg ‹_›] at h
        split
        · rwa [if_pos ‹_›] at h
        · rw [if_neg ‹_›, bind_eq_ok] at h
          obtain ⟨next, hp, hloop⟩ := h
          rw [firstParent_eq_of_kept hstore hp]
          exact ih hloop

/-- What an intact scrub state, not yet stale, makes of a decision. -/
theorem OnLap.decides (hs : OnLap B mmb br all st) {store : ObjectStore} {d : BranchFiles}
    {target : Hash} {now : UInt64} {chain : List Hash} {scrub : ScrubState}
    (hstore : ObjectStore.Kept B store all)
    (hfile : d.generations st.snapshot.descriptor.generation = some (st.snapshot.file B))
    (hscrub : readScrubState B d = some st.scrub)
    (hnow : now.toNat - st.scrub.lastFullVerifyUnix.toNat < SCRUB_MAX_AGE_SECS)
    (h : Decides B store d st.snapshot.descriptor target now (.sameGeneration chain scrub)
      reads) :
    ∃ suffix, chain = st.snapshot.chain ++ suffix ∧ FirstParents B all (some target) chain ∧
      (st.scrub.cursor.toNat + scrubWindow st.scrub.verifiedThrough.toNat <
          st.scrub.verifiedThrough.toNat ∧
        scrub = { st.scrub with cursor := UInt64.ofNat (st.scrub.cursor.toNat +
          scrubWindow st.scrub.verifiedThrough.toNat) } ∧
        reads = suffix.reverse ++ (st.snapshot.chain.take (st.scrub.cursor.toNat +
          scrubWindow st.scrub.verifiedThrough.toNat)).drop st.scrub.cursor.toNat ∨
      st.scrub.verifiedThrough.toNat ≤
          st.scrub.cursor.toNat + scrubWindow st.scrub.verifiedThrough.toNat ∧
        scrub = .fresh chain.length now ∧
        reads = suffix.reverse ++ st.snapshot.chain.reverse) := by
  have hfilter : (readScrubState B d).filter
      (·.generation = st.snapshot.descriptor.generation) = some st.scrub := by
    rw [hscrub, Option.filter_some, if_pos (decide_eq_true hs.generation)]
  have hholds : Holds B mmb br all (st.snapshot.file B) st.snapshot := ⟨hs.wf, rfl, hs.chain⟩
  -- The suffix extends the chain of the known tip.
  have hext : ∀ {suffix : List Hash}, firstParentSuffixTo B store target
      st.snapshot.descriptor.tip st.snapshot.descriptor.leafCount.toNat =
        .ok (.reached suffix) →
      FirstParents B all (some target) (st.snapshot.chain ++ suffix) := by
    intro suffix hsuffix
    obtain ⟨l, hl, -, hstep⟩ := suffixLoop_eq_reached (suffixLoop_kept hstore hsuffix)
    rw [List.append_nil] at hl
    rw [hl]
    exact hstep _ hs.chain
  cases h with
  | @whole suffix chain hsuffix hchain hreason =>
    obtain rfl : chain = st.snapshot.chain :=
      ((firstParentChain_eq_ok.1 hchain).1.kept hstore).unique hs.chain
    refine ⟨suffix, rfl, hext hsuffix, .inr ⟨?_, rfl, rfl⟩⟩
    by_contra hlt
    obtain ⟨known, hknown, hshort⟩ := hreason st.scrub hfilter hnow (not_le.1 hlt)
    rw [readSnapshotChain_eq_ok hfile hholds hknown] at hshort
    have hle := hs.range_le
    omega
  | @window suffix chain scrub' stop hsuffix hscrub' hstop hlt hchain =>
    obtain rfl := Option.some.inj (hfilter.symm.trans hscrub')
    obtain rfl := readSnapshotChain_eq_ok hfile hholds hchain
    subst hstop
    exact ⟨suffix, rfl, hext hsuffix, .inl ⟨hlt, rfl, rfl⟩⟩

/-- **What a fast forward does.** It puts a suffix on the chain; short of the end of its range
the scrub state moves on by a window, which is read, and else the whole chain is. -/
theorem FastForward.cases (h : FastForward B mmb br all st reads st') (hs : OnLap B mmb br all st) :
    ∃ suffix, st'.snapshot.chain = st.snapshot.chain ++ suffix ∧ OnLap B mmb br all st' ∧
      (st.scrub.cursor.toNat + scrubWindow st.scrub.verifiedThrough.toNat <
          st.scrub.verifiedThrough.toNat ∧
        st'.scrub.cursor.toNat =
          st.scrub.cursor.toNat + scrubWindow st.scrub.verifiedThrough.toNat ∧
        st'.scrub.verifiedThrough = st.scrub.verifiedThrough ∧
        reads = suffix.reverse ++ (st.snapshot.chain.take (st.scrub.cursor.toNat +
          scrubWindow st.scrub.verifiedThrough.toNat)).drop st.scrub.cursor.toNat ∨
      st.scrub.verifiedThrough.toNat ≤
          st.scrub.cursor.toNat + scrubWindow st.scrub.verifiedThrough.toNat ∧
        reads = suffix.reverse ++ st.snapshot.chain.reverse) := by
  cases h with
  | publish hstore hfile hscrub hnow hdecide hbuild =>
    rename_i store d target now chain scrub snapshot
    obtain ⟨l, hl, hdec⟩ := logs_decideChain B store d st.snapshot.descriptor target now
    obtain ⟨hok, rfl⟩ := Prod.mk.inj ((hl.exec_eq).symm.trans hdecide)
    obtain ⟨hwf, -, hgen, hchain, htip⟩ := AncestrySnapshot.wf_of_build hbuild
    obtain ⟨suffix, rfl, hfirst, hcase⟩ :=
      hs.decides hstore hfile hscrub hnow (hdec _ hok)
    have htarget : target = snapshot.descriptor.tip :=
      Option.some.inj (hfirst.getLast?.symm.trans htip)
    rw [htarget, ← hchain] at hfirst
    rcases hcase with ⟨hlt, rfl, hreads⟩ | ⟨hge, rfl, hreads⟩
    · have hcursor : (UInt64.ofNat (st.scrub.cursor.toNat +
          scrubWindow st.scrub.verifiedThrough.toNat)).toNat =
          st.scrub.cursor.toNat + scrubWindow st.scrub.verifiedThrough.toNat := by
        have hlt' := st.scrub.verifiedThrough.toNat_lt
        rw [UInt64.toNat_ofNat']
        exact Nat.mod_eq_of_lt (by omega)
      refine ⟨suffix, hchain, ⟨hwf, hfirst, hgen.symm, ?_, ?_, ?_⟩,
        .inl ⟨hlt, hcursor, rfl, hreads⟩⟩
      · exact hcursor.trans_lt hlt
      · rw [hchain, List.length_append]
        exact hs.range_le.trans (Nat.le_add_right _ _)
      · rw [hcursor]
        exact Nat.dvd_add hs.window_dvd dvd_rfl
    · exact ⟨suffix, hchain, WholeWalk.onLap ⟨hwf, hfirst, now, by rw [hchain, hgen]⟩,
        .inr ⟨hge, hreads⟩⟩

variable {tr : List (List Hash)}

theorem OnLap.run (hs : OnLap B mmb br all st)
    (h : Lts.Run (FastForward B mmb br all) st tr st') : OnLap B mmb br all st' := by
  induction h with
  | nil => exact hs
  | snoc _ ha ih =>
    obtain ⟨-, -, hs', -⟩ := ha.cases ih
    exact hs'

/-- **A lap ends with a whole walk.** Publications enough to take the cursor through its range
include one that reads everything published before them. -/
theorem exists_whole_of_run (hs : OnLap B mmb br all st)
    (h : Lts.Run (FastForward B mmb br all) st tr st') (hlen : st.scrub.verifiedThrough.toNat ≤
      st.scrub.cursor.toNat + tr.length * scrubWindow st.scrub.verifiedThrough.toNat) :
    ∃ reads ∈ tr, ∀ x ∈ st.snapshot.chain, x ∈ reads := by
  induction tr generalizing st with
  | nil =>
    have hlt := hs.cursor_lt
    rw [List.length_nil, Nat.zero_mul] at hlen
    omega
  | cons reads tr ih =>
    obtain ⟨t, hstep, hrest⟩ := h.cons_inv
    obtain ⟨suffix, hchain, ht, hcase⟩ := hstep.cases hs
    rcases hcase with ⟨-, hcursor, hrange, -⟩ | ⟨-, rfl⟩
    · have hlen' : t.scrub.verifiedThrough.toNat ≤ t.scrub.cursor.toNat +
          tr.length * scrubWindow t.scrub.verifiedThrough.toNat := by
        rw [hcursor, hrange]
        rw [List.length_cons, Nat.succ_mul] at hlen
        omega
      obtain ⟨reads', hmem, hall⟩ := ih ht hrest hlen'
      refine ⟨reads', List.mem_cons_of_mem _ hmem, fun x hx => hall x ?_⟩
      rw [hchain]
      exact List.mem_append_left _ hx
    · exact ⟨_, List.mem_cons_self, fun x hx =>
        List.mem_append_right _ (List.mem_reverse.2 hx)⟩

/-- A leaf of the range that the windows have not come to is not read. -/
theorem notMem_reads_of_run (hs : OnLap B mmb br all st)
    (h : Lts.Run (FastForward B mmb br all) st tr st') {i : ℕ} {x : Hash}
    (hx : st.snapshot.chain[i]? = some x)
    (hi : st.scrub.cursor.toNat + tr.length * scrubWindow st.scrub.verifiedThrough.toNat ≤ i)
    (hlt : i < st.scrub.verifiedThrough.toNat) : ∀ reads ∈ tr, x ∉ reads := by
  induction tr generalizing st with
  | nil => simp
  | cons reads tr ih =>
    obtain ⟨t, hstep, hrest⟩ := h.cons_inv
    obtain ⟨suffix, hchain, ht, hcase⟩ := hstep.cases hs
    rw [List.length_cons, Nat.succ_mul] at hi
    have hnodup := ht.chain.nodup
    rw [hchain] at hnodup
    rcases hcase with ⟨-, hcursor, hrange, rfl⟩ | ⟨hge, -⟩
    · rw [List.forall_mem_cons]
      constructor
      · rw [List.mem_append, List.mem_reverse, not_or]
        constructor
        · exact fun hmem => (List.nodup_append.1 hnodup).2.2 x (List.mem_of_getElem? hx) x
            hmem rfl
        · intro hmem
          have hdrop : x ∈ st.snapshot.chain.drop (st.scrub.cursor.toNat +
              scrubWindow st.scrub.verifiedThrough.toNat) := by
            refine List.mem_iff_getElem?.2 ⟨i - (st.scrub.cursor.toNat +
              scrubWindow st.scrub.verifiedThrough.toNat), ?_⟩
            rw [List.getElem?_drop, Nat.add_sub_cancel' (by omega), hx]
          exact List.disjoint_take_drop hs.chain.nodup le_rfl (List.mem_of_mem_drop hmem)
            hdrop
      · refine ih ht hrest ?_ ?_ ?_
        · rw [hchain, List.getElem?_append_left (List.getElem?_eq_some_iff.1 hx).1, hx]
        · rw [hcursor, hrange]
          omega
        · rwa [hrange]
    · omega

end Laps

/-! ### Availability -/

section Availability

variable {B : Blake3} {mmb : List Hash → Except HistoryError Hash} {br : Branch}
  {all : ObjectStore} {st : Published}

theorem FirstParents.readable {next : Option Hash} {chain : List Hash}
    (h : FirstParents B all next chain) {x : Hash} (hx : x ∈ chain) :
    ∃ parent, firstParent B all x = .ok parent := by
  obtain ⟨l, -, -, hl⟩ := h.of_mem hx
  generalize l ++ [x] = c at hl
  cases hl with
  | above hp => exact ⟨_, hp⟩

/-- A window of readable leaves passes. -/
theorem verifyScrubWindow_ok {chain : List Hash} {start stop : ℕ} (hle : start ≤ stop)
    (hstop : stop ≤ chain.length)
    (hread : ∀ x ∈ chain, ∃ parent, firstParent B all x = .ok parent) :
    verifyScrubWindow B all chain start stop = .ok () := by
  rw [verifyScrubWindow, if_pos ⟨hle, hstop⟩]
  have hwindow : ∀ x ∈ (chain.take stop).drop start, ∃ parent, firstParent B all x = .ok parent :=
    fun x hx => hread x (List.mem_of_mem_take (List.mem_of_mem_drop hx))
  generalize (chain.take stop).drop start = window at hwindow
  induction window with
  | nil => rfl
  | cons x window ih =>
    rw [List.forall_mem_cons] at hwindow
    obtain ⟨⟨parent, hp⟩, hrest⟩ := hwindow
    rw [firstParent] at hp
    rw [List.forM]
    cases hr : all.readObject B x with
    | error e =>
      rw [hr] at hp
      cases hp
    | ok o =>
      rw [hr] at hp
      cases o with
      | commit c => exact ih hrest
      | remix r => exact ih hrest
      | _ => cases hp

/-- The walk from a child of the known tip stops at once. -/
theorem firstParentSuffixTo_child {target tip : Hash} {prefixLen : ℕ}
    (hp : firstParent B all target = .ok (some tip)) (hne : target ≠ tip)
    (hroom : prefixLen < MAX_ANCESTRY_LEAVES) :
    firstParentSuffixTo B all target tip prefixLen = .ok (.reached [target]) := by
  have hstop : ∀ room, suffixLoop B all tip room (insert target ∅) [target] (some tip) =
      .ok (.reached [target]) := by
    intro room
    cases room with
    | zero => rw [suffixLoop, if_pos rfl]
    | succ room => rw [suffixLoop, if_pos rfl]
  obtain ⟨room, hr⟩ : ∃ room, MAX_ANCESTRY_LEAVES - prefixLen = room + 1 :=
    ⟨MAX_ANCESTRY_LEAVES - prefixLen - 1, by omega⟩
  rw [firstParentSuffixTo, hr, suffixLoop, if_neg hne, if_neg (Finset.notMem_empty _), hp]
  exact hstop room

/-- **An intact branch moves on.** A child of the tip can be published, by a window or a whole
walk as the schedule has it. -/
theorem OnLap.exists_fastForward (hs : OnLap B mmb br all st) {target root : Hash}
    (hp : firstParent B all target = .ok (some st.snapshot.descriptor.tip))
    (hnew : target ∉ st.snapshot.chain) (hroom : st.snapshot.chain.length < MAX_ANCESTRY_LEAVES)
    (hroot : mmb (st.snapshot.chain ++ [target]) = .ok root) :
    ∃ reads st', FastForward B mmb br all st reads st' ∧
      st'.snapshot.chain = st.snapshot.chain ++ [target] := by
  have hne : target ≠ st.snapshot.descriptor.tip := by
    rintro rfl
    exact hnew (List.mem_of_getLast? hs.wf.tip)
  have hholds : Holds B mmb br all (st.snapshot.file B) st.snapshot := ⟨hs.wf, rfl, hs.chain⟩
  let d : BranchFiles := ⟨none, none, none, none, fun _ => some (st.snapshot.file B), none,
    some (st.scrub.encode B)⟩
  have hscrub : readScrubState B d = some st.scrub := ScrubState.decode_encode st.scrub
  have hfilter : (readScrubState B d).filter
      (·.generation = st.snapshot.descriptor.generation) = some st.scrub := by
    rw [hscrub, Option.filter_some, if_pos (decide_eq_true hs.generation)]
  have hfresh : ¬ (st.scrub.lastFullVerifyUnix.toNat - st.scrub.lastFullVerifyUnix.toNat ≥
      SCRUB_MAX_AGE_SECS) := by
    rw [SCRUB_MAX_AGE_SECS]
    omega
  obtain ⟨scrub, hdecide⟩ : ∃ scrub, decideChain B all d (some st.snapshot.descriptor) target
      st.scrub.lastFullVerifyUnix =
        .ok (.sameGeneration (st.snapshot.chain ++ [target]) scrub) := by
    have hrange := hs.range_le
    obtain ⟨hshort, hstop⟩ := stop_lt_iff
      (st.scrub.cursor.toNat + scrubWindow st.scrub.verifiedThrough.toNat)
      st.scrub.verifiedThrough
    rw [decideChain_some, firstParentSuffixTo_child hp hne
      (by rwa [hs.wf.toNat_leafCount])]
    change ∃ scrub, extendPrefix B all d st.snapshot.descriptor [target] _ = _
    rw [extendPrefix, hfilter]
    simp only
    by_cases hlt : st.scrub.cursor.toNat + scrubWindow st.scrub.verifiedThrough.toNat <
        st.scrub.verifiedThrough.toNat
    · rw [if_neg (not_or.2 ⟨hfresh, not_not.2 (hshort.2 hlt)⟩), hstop hlt, readWindow,
        hholds.readSnapshotChain rfl rfl]
      simp only
      rw [if_pos (by omega), verifyScrubWindow_ok (Nat.le_add_right _ _) (by omega)
        fun x hx => hs.chain.readable hx]
      exact ⟨_, rfl⟩
    · rw [if_pos (.inr fun h => hlt (hshort.1 h)), fullPrefix,
        firstParentChain_eq_ok.2 ⟨hs.chain, hroom.le⟩]
      exact ⟨_, rfl⟩
  obtain ⟨l, hl, -⟩ := logs_decideChain B all d st.snapshot.descriptor target
    st.scrub.lastFullVerifyUnix
  rw [hdecide] at hl
  obtain ⟨snapshot, hbuild⟩ : ∃ snapshot, AncestrySnapshot.build mmb
      st.snapshot.descriptor.repository br.fullRef st.snapshot.descriptor.generation
      (st.snapshot.chain ++ [target]) = .ok snapshot :=
    ⟨_, AncestrySnapshot.build_eq_ok.2 ⟨target, root, List.getLast?_concat,
      by rw [List.length_append, List.length_singleton]; exact hroom, hroot, rfl⟩⟩
  refine ⟨l, _, .publish (ObjectStore.Kept.refl B all) rfl hscrub (not_le.1 hfresh) hl.exec_eq
    hbuild, ?_⟩
  exact (AncestrySnapshot.wf_of_build hbuild).2.2.2.1

end Availability

/-! ### The promise -/

/-- Within how many fast forwards every leaf is to be read again: `SCRUB_LAP_FRACTION` once
the window is that fraction of the range, and one for each smallest window before. -/
def lapBound (verifiedThrough : ℕ) : ℕ :=
  if SCRUB_MIN_WINDOW ≤ verifiedThrough / SCRUB_LAP_FRACTION then SCRUB_LAP_FRACTION
  else (verifiedThrough + SCRUB_MIN_WINDOW - 1) / SCRUB_MIN_WINDOW

/-- The windows of the promised number of publications reach the end of the range, unless the
range is cut into 64 windows with a rest and none of it has been read yet. -/
theorem le_lapBound_iff {cursor range : ℕ} (hlt : cursor < range)
    (hdvd : scrubWindow range ∣ cursor) : range ≤ cursor + lapBound range * scrubWindow range ↔
      ¬ (SCRUB_MIN_WINDOW ≤ range / SCRUB_LAP_FRACTION ∧ range % SCRUB_LAP_FRACTION ≠ 0 ∧
        cursor = 0) := by
  unfold scrubWindow at *
  unfold lapBound
  by_cases hbig : SCRUB_MIN_WINDOW ≤ range / SCRUB_LAP_FRACTION
  · rw [if_pos hbig]
    rw [Nat.max_eq_left hbig] at hdvd ⊢
    rcases Nat.eq_zero_or_pos cursor with rfl | hpos
    · simp only [hbig, true_and, and_true, not_not]
      unfold SCRUB_MIN_WINDOW SCRUB_LAP_FRACTION at *
      omega
    · have hle := Nat.le_of_dvd hpos hdvd
      unfold SCRUB_MIN_WINDOW SCRUB_LAP_FRACTION at *
      omega
  · rw [if_neg hbig, Nat.max_eq_right (not_le.1 hbig).le]
    simp only [hbig, false_and, not_false_eq_true, iff_true]
    unfold SCRUB_MIN_WINDOW
    omega

/-- **When the scrub schedule keeps its promise.** After a whole walk let there be any fast
forwards, and then as many as the promise allows. They read every leaf published before them
exactly when not: the window is the 64th part of the range, 64 does not divide the range, and
the first of them is the first of its lap. -/
theorem scrub_lap_iff (B : Blake3) (mmb : List Hash → Except HistoryError Hash) (br : Branch)
    (all : ObjectStore) (st₀ st₁ st₂ : Published) (past tr : List (List Hash))
    (h₀ : WholeWalk B mmb br all st₀) (h₁ : Lts.Run (FastForward B mmb br all) st₀ past st₁)
    (h₂ : Lts.Run (FastForward B mmb br all) st₁ tr st₂)
    (hlen : tr.length = lapBound st₁.scrub.verifiedThrough.toNat) :
    (∀ x ∈ st₁.snapshot.chain, ∃ reads ∈ tr, x ∈ reads) ↔
      ¬ (SCRUB_MIN_WINDOW ≤ st₁.scrub.verifiedThrough.toNat / SCRUB_LAP_FRACTION ∧
        st₁.scrub.verifiedThrough.toNat % SCRUB_LAP_FRACTION ≠ 0 ∧ st₁.scrub.cursor = 0) := by
  have hs := h₀.onLap.run h₁
  have hzero : st₁.scrub.cursor = 0 ↔ st₁.scrub.cursor.toNat = 0 := UInt64.toNat_inj.symm
  rw [hzero, ← le_lapBound_iff hs.cursor_lt hs.window_dvd, ← hlen]
  constructor
  · intro hread
    by_contra hshort
    -- The last leaf of the range is out of reach.
    have hrange := hs.range_le
    have hlast : st₁.scrub.verifiedThrough.toNat - 1 < st₁.snapshot.chain.length := by omega
    obtain ⟨reads, hmem, hx⟩ := hread _ (List.getElem_mem hlast)
    exact notMem_reads_of_run hs h₂ (List.getElem?_eq_getElem hlast) (by omega) (by omega) reads
      hmem hx
  · intro hle x hx
    obtain ⟨reads, hmem, hall⟩ := exists_whole_of_run hs h₂ hle
    exact ⟨reads, hmem, hall x hx⟩

/-! ### A line of commits -/

/-- The id of the `k`-th commit of the line. -/
def lineId (k : ℕ) : Hash :=
  ⟨leBytes HASH_LEN (k + 1), length_leBytes _ _⟩

/-- A hash function that addresses commits by their timestamps. -/
def stampBlake3 : Blake3 :=
  Blake3.ofFun fun b =>
    match deserialize b with
    | .ok (.commit c) => ⟨leBytes HASH_LEN c.timestamp.toNat, length_leBytes _ _⟩
    | _ => ZERO

/-- The `k`-th commit of the line. -/
def lineCommit (k : ℕ) : Commit :=
  ⟨ZERO, if k = 0 then [] else [lineId (k - 1)], ⟨.opaqueBytes, [1]⟩, ByteArr.fill 32 0, [],
    UInt64.ofNat (k + 1), ZERO, ZERO, ByteArr.fill 64 0⟩

/-- The bytes of the `k`-th commit. -/
def lineBytes (k : ℕ) : Bytes :=
  match serialize (.commit (lineCommit k)) with
  | .ok b => b
  | .error _ => []

/-- A store with the first commits of the line. -/
def lineStore : ℕ → ObjectStore
  | 0 => ∅
  | n + 1 => (lineStore n).insert (lineId n) ⟨some (lineBytes n), none⟩

/-- The first commits of the line. -/
def lineChain (n : ℕ) : List Hash :=
  (List.range n).map lineId

theorem serialize_lineCommit (k : ℕ) :
    serialize (.commit (lineCommit k)) = .ok (lineBytes k) ∧ (lineBytes k).length ≤ 1000 := by
  have hok : ∃ b, serialize (.commit (lineCommit k)) = .ok b ∧ b.length ≤ 1000 := by
    unfold lineCommit
    split
    · refine ⟨_, rfl, ?_⟩
      simp [writePrologue, writeU16Le, writeU32Le, writeU64Le, MAGIC, HASH_LEN]
      decide
    · refine ⟨_, rfl, ?_⟩
      simp [writePrologue, writeU16Le, writeU32Le, writeU64Le, MAGIC, HASH_LEN]
      decide
  obtain ⟨b, hb, hlen⟩ := hok
  have hbytes : lineBytes k = b := by rw [lineBytes, hb]
  rw [hbytes]
  exact ⟨hb, hlen⟩

theorem lineId_inj {i j : ℕ} (hi : i < 2 ^ 63) (hj : j < 2 ^ 63) (h : lineId i = lineId j) :
    i = j := by
  have hb : leBytes HASH_LEN (i + 1) = leBytes HASH_LEN (j + 1) := congrArg ByteArr.bytes h
  have hmax : 2 ^ 63 < 256 ^ HASH_LEN := by decide
  have := leBytes_inj (by omega) (by omega) hb
  omega

variable {n k : ℕ}

theorem lookup_lineStore (hn : n < 2 ^ 63) (hk : k < n) :
    (lineStore n).lookup (lineId k) = some ⟨some (lineBytes k), none⟩ := by
  induction n with
  | zero => omega
  | succ n ih =>
    rw [lineStore]
    rcases Nat.lt_succ_iff_lt_or_eq.1 hk with hlt | rfl
    · rw [AList.lookup_insert_ne fun he => hlt.ne (lineId_inj (by omega) (by omega) he)]
      exact ih (by omega) hlt
    · exact AList.lookup_insert _

theorem readObject_lineStore (hn : n < 2 ^ 63) (hk : k < n) :
    (lineStore n).readObject stampBlake3 (lineId k) = .ok (.commit (lineCommit k)) := by
  obtain ⟨hser, hlen⟩ := serialize_lineCommit k
  have hdes : deserialize (lineBytes k) = .ok (.commit (lineCommit k)) := by
    refine deserialize_eq_ok_iff.2 ⟨⟨?_, rfl, Nat.two_pow_pos 32⟩, hser⟩
    by_cases hzero : k = 0
    · simp [lineCommit, hzero]
    · simp [lineCommit, hzero, MAX_PARENTS]
  refine (ObjectStore.readObject_eq_ok _).2 ⟨lineBytes k, ?_, ?_, hdes⟩
  · have hmax : ¬ (lineBytes k).length > MAX_RAW_OBJECT_SIZE := by
      rw [MAX_RAW_OBJECT_SIZE]
      omega
    simp only [ObjectStore.readRaw, lookup_lineStore hn hk, if_neg hmax]
  · have hhash : stampBlake3.hash (lineBytes k) = lineId k := by
      refine ByteArr.ext ?_
      change (match deserialize (lineBytes k) with
        | .ok (.commit c) => (⟨leBytes HASH_LEN c.timestamp.toNat, length_leBytes _ _⟩ : Hash)
        | _ => ZERO).bytes = _
      have htime : (UInt64.ofNat (k + 1)).toNat = k + 1 := by
        rw [UInt64.toNat_ofNat']
        exact Nat.mod_eq_of_lt (by omega)
      rw [hdes]
      exact congrArg (leBytes HASH_LEN) htime
    rw [objectIdFromBytes, verifiedIdAndObject, head?_serialize hser, isMerkleTag_toU8,
      if_neg (by simp [Object.objectType, ObjectType.isMerkle]), hhash]
    rfl

theorem firstParent_lineStore (hn : n < 2 ^ 63) (hk : k < n) :
    firstParent stampBlake3 (lineStore n) (lineId k) =
      .ok (if k = 0 then none else some (lineId (k - 1))) := by
  rw [firstParent, readObject_lineStore hn hk]
  by_cases hzero : k = 0
  · simp [lineCommit, hzero]
  · simp [lineCommit, hzero]

theorem lineChain_succ (n : ℕ) : lineChain (n + 1) = lineChain n ++ [lineId n] := by
  rw [lineChain, List.range_succ, List.map_append, List.map_singleton, ← lineChain]

@[simp] theorem length_lineChain (n : ℕ) : (lineChain n).length = n := by
  rw [lineChain, List.length_map, List.length_range]

/-- The line is the chain of first parents of each of its commits. -/
theorem firstParents_line (hn : n < 2 ^ 63) (hk : k < n) :
    FirstParents stampBlake3 (lineStore n) (some (lineId k)) (lineChain (k + 1)) := by
  have hp := firstParent_lineStore hn hk
  rw [lineChain_succ]
  induction k with
  | zero => exact .above hp .genesis
  | succ k ih =>
    refine .above hp ?_
    rw [lineChain_succ]
    exact ih (by omega) (firstParent_lineStore hn (by omega))

/-- Any digest is the root of a chain. -/
def zeroMmb (_ : List Hash) : Except HistoryError Hash :=
  .ok ZERO

/-- The first `n + 1` commits of the line, just published as a new generation. -/
def linePublished (n : ℕ) : Published :=
  ⟨⟨⟨ZERO, sampleBranch.fullRef, ZERO, lineId n, UInt64.ofNat (n + 1), ZERO⟩, lineChain (n + 1)⟩,
    ScrubState.fresh (n + 1) 0⟩

theorem wholeWalk_linePublished (hn : n < 2 ^ 63) (hk : k < n) (hmax : k < MAX_ANCESTRY_LEAVES) :
    WholeWalk stampBlake3 zeroMmb sampleBranch (lineStore n) (linePublished k) where
  wf := ⟨rfl, by rw [linePublished, lineChain_succ]; exact List.getLast?_concat,
    by rw [linePublished, length_lineChain]; exact hmax, by
      rw [linePublished, length_lineChain], rfl⟩
  chain := firstParents_line hn hk
  scrub := ⟨0, by rw [linePublished, length_lineChain]; rfl⟩

/-- The line grows commit by commit, as long as its range lasts. -/
theorem exists_run_line {j : ℕ} (hn : n < 2 ^ 63) (hk : k + j < n)
    (hmax : k + j < MAX_ANCESTRY_LEAVES) (hj : j * scrubWindow (k + 1) < k + 1) :
    ∃ tr st, Lts.Run (FastForward stampBlake3 zeroMmb sampleBranch (lineStore n))
      (linePublished k) tr st ∧ tr.length = j ∧ st.snapshot.chain = lineChain (k + j + 1) ∧
      st.scrub.cursor.toNat = j * scrubWindow (k + 1) ∧
      st.scrub.verifiedThrough.toNat = k + 1 := by
  induction j with
  | zero =>
    refine ⟨[], _, Lts.Run.nil _, rfl, rfl, ?_, ?_⟩
    · rw [Nat.zero_mul]
      rfl
    · refine (UInt64.toNat_ofNat').trans (Nat.mod_eq_of_lt (by omega))
  | succ j ih =>
    have hj' : j * scrubWindow (k + 1) + scrubWindow (k + 1) < k + 1 := by
      rwa [Nat.succ_mul] at hj
    obtain ⟨tr, st, hrun, htr, hchain, hcursor, hrange⟩ := ih (by omega) (by omega) (by omega)
    have hs := (wholeWalk_linePublished hn (by omega) (by omega)).onLap.run hrun
    have htip : st.snapshot.descriptor.tip = lineId (k + j) := by
      have h := hs.wf.tip
      rw [hchain, lineChain_succ, List.getLast?_concat] at h
      exact (Option.some.inj h).symm
    have hp := firstParent_lineStore hn (show k + (j + 1) < n from hk)
    rw [if_neg (by omega), Nat.add_succ_sub_one, ← htip] at hp
    have hnew : lineId (k + (j + 1)) ∉ st.snapshot.chain := by
      rw [hchain, lineChain]
      intro hmem
      obtain ⟨i, hi, he⟩ := List.mem_map.1 hmem
      have hlt := List.mem_range.1 hi
      have := lineId_inj (by omega) (by omega) he
      omega
    obtain ⟨reads, st', hstep, hchain'⟩ := hs.exists_fastForward hp hnew
      (by rw [hchain, length_lineChain]; omega) (rfl : zeroMmb _ = .ok ZERO)
    obtain ⟨suffix, -, -, hcase⟩ := hstep.cases hs
    rw [hcursor, hrange] at hcase
    rcases hcase with ⟨-, hcursor', hrange', -⟩ | ⟨hge, -⟩
    · refine ⟨tr ++ [reads], st', hrun.snoc hstep, ?_, ?_, ?_, ?_⟩
      · rw [List.length_append, htr, List.length_singleton]
      · rw [hchain', hchain]
        exact (lineChain_succ _).symm
      · rw [hcursor', Nat.succ_mul]
      · rw [hrange', hrange]
    · omega

/-- A branch of one commit, moved on by its second: the one fast forward that is allowed walks
the whole chain. -/
theorem scrub_lap_iff_child :
    ∃ st reads, Lts.Run (FastForward stampBlake3 zeroMmb sampleBranch (lineStore 2))
      (linePublished 0) [reads] st ∧ ∀ x ∈ (linePublished 0).snapshot.chain, x ∈ reads := by
  have hstart := wholeWalk_linePublished (n := 2) (k := 0) (by decide) (by decide) (by decide)
  obtain ⟨reads, st, hstep, -⟩ := hstart.onLap.exists_fastForward
    (firstParent_lineStore (n := 2) (k := 1) (by decide) (by decide)) (by decide) (by decide)
    (rfl : zeroMmb _ = .ok ZERO)
  refine ⟨st, reads, Lts.Run.single hstep, fun x hx => ?_⟩
  obtain ⟨l, hl, hxl⟩ := (scrub_lap_iff _ _ _ _ _ _ _ _ [reads] hstart (Lts.Run.nil _)
    (Lts.Run.single hstep) (by rw [List.length_singleton]; decide)).2 (by decide) x hx
  rwa [List.mem_singleton.1 hl] at hxl

/-- A branch of 32769 commits: its range is cut into windows of 512, the 64 fast forwards
after the whole walk read the first 32768 leaves, and the last one is left out. -/
theorem scrub_lap_too_long :
    ¬ ∀ (B : Blake3) (mmb : List Hash → Except HistoryError Hash) (br : Branch)
      (all : ObjectStore) (st₀ st₁ st₂ : Published) (past tr : List (List Hash)),
      WholeWalk B mmb br all st₀ → Lts.Run (FastForward B mmb br all) st₀ past st₁ →
      Lts.Run (FastForward B mmb br all) st₁ tr st₂ →
      tr.length = lapBound st₁.scrub.verifiedThrough.toNat →
      ∀ x ∈ st₁.snapshot.chain, ∃ reads ∈ tr, x ∈ reads := by
  intro hall
  obtain ⟨n, hn⟩ : ∃ n, n = 40000 := ⟨_, rfl⟩
  obtain ⟨k, hk⟩ : ∃ k, k = 32768 := ⟨_, rfl⟩
  have hwindow : scrubWindow (k + 1) = 512 := by rw [hk]; decide
  have hmax : MAX_ANCESTRY_LEAVES = 1000000 := rfl
  have hstart := wholeWalk_linePublished (n := n) (k := k) (by omega) (by omega) (by omega)
  obtain ⟨tr, st, hrun, htr, -, -, -⟩ := exists_run_line (n := n) (k := k) (j := 64) (by omega)
    (by omega) (by omega) (by omega)
  have hrange : (linePublished k).scrub.verifiedThrough.toNat = k + 1 :=
    (UInt64.toNat_ofNat').trans (Nat.mod_eq_of_lt (by omega))
  have hcursor : (linePublished k).scrub.cursor.toNat = 0 := rfl
  have hlast : (linePublished k).snapshot.chain[k]? = some (lineId k) := by
    rw [linePublished, lineChain_succ, List.getElem?_append_right (by rw [length_lineChain]),
      length_lineChain, Nat.sub_self]
    rfl
  obtain ⟨reads, hmem, hx⟩ := hall _ _ _ _ _ _ _ _ _ hstart (Lts.Run.nil _) hrun
    (by rw [htr, hrange, hk]; decide) _ (List.mem_of_getElem? hlast)
  refine notMem_reads_of_run hstart.onLap hrun hlast ?_ ?_ reads hmem hx
  · rw [hcursor, hrange, htr, hwindow]
    omega
  · rw [hrange]
    omega

end Mkit
