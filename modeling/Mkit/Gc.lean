import Mkit.GcRoots

/-!
# Garbage Collection

Mark and sweep over the object store (`ops/gc.rs`, with the listing and pruning of
`store.rs`): what is reachable from a retention root is kept, and so is everything younger than
the grace period; the rest is deleted. A dry run computes the report only.

The live set is complete before anything is deleted, and every deletion checks the age of its
object again, under the writer lock. That lock belongs to the processes that write objects in
bulk: when one of them holds it, the object is kept. A dry run does not ask for the lock, so a
preview shows what a sweep without such writers does.
-/

namespace Mkit

open Text FileTree Closure Effect

/-! ### The store as the sweep sees it -/

/-- What surrounds the object files of a store: their directory, the file that the writer lock
is taken on, and how the operating system answers for each object. -/
structure StoreDir where
  objects_root : Path
  format_file : Path
  /-- The length of an object's file; `none` when its metadata cannot be read. -/
  stat : Hash → Option ℕ
  /-- Another process holds the writer lock when this object is to be pruned. -/
  contended : Hash → Bool
  /-- Deleting the file of this object fails. -/
  undeletable : Hash → Bool

/-- `u8::is_ascii_hexdigit`. -/
def isAsciiHexdigit (b : UInt8) : Bool :=
  (hexNibble b).isSome

/-- The ids that the files of one shard directory spell. -/
def shardHashes (shard : Bytes × Node) : Except StoreError (List Hash) :=
  match shard.2 with
  | .fault => .error .io
  | .dir _ _ _ =>
    if shard.1.length ≠ 2 || !shard.1.all isAsciiHexdigit then .ok []
    else do
      let files ← (Path.readDir (.ok shard.2)).mapError fun _ => .io
      gather (fun file : Bytes × Node =>
        match file.2 with
        | .fault => .error .io
        | .file _ _ _ =>
          if file.1.length ≠ 62 then .ok [] else .ok (fromHex (shard.1 ++ file.1)).toList
        | _ => .ok []) files
  | _ => .ok []

/-- List the ids of all object files. The reader knows both cases of hex, so an id is listed
once for every spelling of it on disk. -/
def iterObjectHashes (objects_root : Path) : Except StoreError (List Hash) := do
  match ← (present objects_root.readDir).mapError fun _ => .io with
  | none => pure []
  | some shards => gather shardHashes shards

/-- The length and the modification time of an object's file. -/
def objectMetadata (d : StoreDir) (s : ObjectStore) (h : Hash) : Option (ℕ × Option ℕ) := do
  let file ← s.lookup h
  let len ← d.stat h
  pure (len, file.mtime)

/-- At least `grace` seconds old; an unknown age is not. -/
def oldEnough (mtime : Option ℕ) (now grace : ℕ) : Bool :=
  match mtime with
  | none => false
  | some t => grace ≤ now - t

/-- Sweeps work on the object files and fail with the errors of the collection. -/
abbrev GcM := ExceptT GcRootsError (StateM ObjectStore)

/-- Delete an object if its age still allows it, and say how many bytes that freed. -/
def pruneIfOld (d : StoreDir) (h : Hash) (now grace : ℕ) : GcM (Option ℕ) := do
  let _ ← liftM (d.format_file.openFile.mapError fun _ => GcRootsError.store .io)
  if d.contended h then pure none
  else do
    let s ← get
    match objectMetadata d s h with
    | none => pure none
    | some (len, mtime) =>
      if !oldEnough mtime now grace then pure none
      else if d.undeletable h then throw (.store .io)
      else do
        set (s.erase h)
        pure (some len)

/-! ### The sweep -/

/-- Refuse to work through a link. -/
def rejectSymlink (path : Path) : Except GcRootsError Unit :=
  match path with
  | .ok (.symlink _) | .ok .dangling => .error .symlinkedStore
  | .ok .fault => .error .io
  | .ok _ => .ok ()
  | .error .notFound => .ok ()
  | .error .other => .error .io

/-- The report of a sweep. -/
structure GcReport where
  /-- Objects examined. -/
  scanned : ℕ
  /-- Objects kept because they are reachable. -/
  live : ℕ
  /-- Unreachable objects kept all the same. -/
  kept_recent : ℕ
  /-- Unreachable objects deleted; in a dry run, those that would be. -/
  pruned : ℕ
  bytes_reclaimed : ℕ
  dry_run : Bool
deriving DecidableEq

section Sweep

variable (B : Blake3) (l : RepoLayout) (d : StoreDir) (now grace : ℕ)

/-- The ids to keep: the closure of the retention roots, complete or an error. -/
def liveObjects (s : ObjectStore) : Except GcRootsError (Finset Hash) := do
  let roots ← collectRoots B l
  let (live, truncated) ← (reachableClosureChecked B s roots).mapError .store
  if truncated then .error .truncated else .ok live

/-- Examine one listed object. -/
def sweepOne (live : Finset Hash) (h : Hash) (r : GcReport) : GcM GcReport := do
  let r := { r with scanned := r.scanned + 1 }
  if h ∈ live then pure { r with live := r.live + 1 }
  else do
    let s ← get
    match objectMetadata d s h with
    | none => pure { r with kept_recent := r.kept_recent + 1 }
    | some (len, mtime) =>
      if !oldEnough mtime now grace then pure { r with kept_recent := r.kept_recent + 1 }
      else if r.dry_run then
        pure { r with pruned := r.pruned + 1, bytes_reclaimed := r.bytes_reclaimed + len }
      else do
        match ← pruneIfOld d h now grace with
        | none => pure { r with kept_recent := r.kept_recent + 1 }
        | some len =>
          pure { r with pruned := r.pruned + 1, bytes_reclaimed := r.bytes_reclaimed + len }

/-- Examine the listed objects in turn. -/
def sweep (live : Finset Hash) : List Hash → GcReport → GcM GcReport
  | [], r => pure r
  | h :: rest, r => do
    let r ← sweepOne d now grace live h r
    sweep live rest r

/-- Collect garbage. -/
def runGc (dry_run : Bool) : GcM GcReport := do
  let _ ← liftM (rejectSymlink l.common_dir)
  let _ ← liftM (rejectSymlink d.objects_root)
  let s ← get
  let live ← liftM (liveObjects B l s)
  let all ← liftM ((iterObjectHashes d.objects_root).mapError GcRootsError.store)
  sweep d now grace live all ⟨0, 0, 0, 0, 0, dry_run⟩

end Sweep

/-! ### What a sweep does -/

section Spec

variable {B : Blake3} {l : RepoLayout} {d : StoreDir} {now grace : ℕ} {live : Finset Hash}

/-- An object with a known age of at least the grace period. -/
def Expired (s : ObjectStore) (now grace : ℕ) (h : Hash) : Prop :=
  ∃ file t, s.lookup h = some file ∧ file.mtime = some t ∧ grace ≤ now - t

/-- From `s` to `s'`, only expired objects outside the live set have been deleted, and nothing
else has changed. -/
def Swept (live : Finset Hash) (now grace : ℕ) (s s' : ObjectStore) : Prop :=
  ∀ h, s'.lookup h = s.lookup h ∨ (s'.lookup h = none ∧ h ∉ live ∧ Expired s now grace h)

theorem Swept.refl (s : ObjectStore) : Swept live now grace s s :=
  fun _ => .inl rfl

variable {s s' : ObjectStore}

theorem Swept.trans {s'' : ObjectStore} (h₁ : Swept live now grace s s')
    (h₂ : Swept live now grace s' s'') : Swept live now grace s s'' := by
  intro h
  rcases h₂ h with heq | ⟨hnone, hlive, file, t, hfile, ht, hgrace⟩
  · rw [heq]
    exact h₁ h
  · rcases h₁ h with heq | ⟨hgone, -, -⟩
    · exact .inr ⟨hnone, hlive, file, t, heq ▸ hfile, ht, hgrace⟩
    · rw [hgone] at hfile
      cases hfile

variable {h : Hash}

/-- Deleting one expired object outside the live set. -/
theorem swept_erase (hlive : h ∉ live)
    (hold : Expired s now grace h) : Swept live now grace s (s.erase h) := by
  intro k
  by_cases hk : k = h
  · subst hk
    exact .inr ⟨AList.lookup_erase k s, hlive, hold⟩
  · exact .inl (AList.lookup_erase_ne hk)

theorem oldEnough_eq_true {mtime : Option ℕ} :
    oldEnough mtime now grace = true ↔ ∃ t, mtime = some t ∧ grace ≤ now - t := by
  cases mtime <;> simp [oldEnough]

theorem objectMetadata_eq_some {len : ℕ} {mtime : Option ℕ} :
    objectMetadata d s h = some (len, mtime) ↔
      ∃ file, s.lookup h = some file ∧ d.stat h = some len ∧ file.mtime = mtime := by
  simp [objectMetadata, Option.bind_eq_some_iff]

variable (d now grace) in
/-- Pruning fails, keeps the object, or deletes it because it is expired. -/
theorem exec_pruneIfOld (s : ObjectStore) (h : Hash) :
    (∃ e, exec (pruneIfOld d h now grace) s = (.error e, s)) ∨
    (exec (pruneIfOld d h now grace) s = (.ok none, s) ∧
      (d.contended h = true ∨ ∀ len mtime, objectMetadata d s h = some (len, mtime) →
        oldEnough mtime now grace = false)) ∨
    ∃ len mtime, objectMetadata d s h = some (len, mtime) ∧ oldEnough mtime now grace = true ∧
      exec (pruneIfOld d h now grace) s = (.ok (some len), s.erase h) := by
  rw [pruneIfOld, exec_liftExcept_bind]
  cases hopen : d.format_file.openFile.mapError fun _ => GcRootsError.store .io with
  | error e => exact .inl ⟨e, rfl⟩
  | ok node =>
    dsimp only
    by_cases hc : d.contended h = true
    · rw [if_pos hc]
      exact .inr (.inl ⟨rfl, .inl hc⟩)
    · rw [if_neg hc, exec_get_bind]
      cases hm : objectMetadata d s h with
      | none => exact .inr (.inl ⟨rfl, .inr (by simp)⟩)
      | some m =>
        obtain ⟨len, mtime⟩ := m
        dsimp only
        cases hold : oldEnough mtime now grace with
        | false =>
          refine .inr (.inl ⟨rfl, .inr ?_⟩)
          rintro _ _ ⟨⟩
          exact hold
        | true =>
          by_cases hu : d.undeletable h = true
          · rw [if_neg (by simp), if_pos hu]
            exact .inl ⟨_, rfl⟩
          · rw [if_neg (by simp), if_neg hu, exec_set_bind]
            exact .inr (.inr ⟨len, mtime, rfl, hold, rfl⟩)

/-- The report after an object that is kept for being reachable. -/
def GcReport.countLive (r : GcReport) : GcReport :=
  { r with scanned := r.scanned + 1, live := r.live + 1 }

/-- The report after an unreachable object that is kept. -/
def GcReport.countKept (r : GcReport) : GcReport :=
  { r with scanned := r.scanned + 1, kept_recent := r.kept_recent + 1 }

/-- The report after an object of `len` bytes that is deleted. -/
def GcReport.countPruned (r : GcReport) (len : ℕ) : GcReport :=
  { r with scanned := r.scanned + 1, pruned := r.pruned + 1,
           bytes_reclaimed := r.bytes_reclaimed + len }

/-- The object is there and old enough to be deleted. -/
def Prunable (d : StoreDir) (now grace : ℕ) (s : ObjectStore) (h : Hash) (len : ℕ) : Prop :=
  ∃ mtime, objectMetadata d s h = some (len, mtime) ∧ oldEnough mtime now grace = true

theorem Prunable.expired {len : ℕ} (hp : Prunable d now grace s h len) : Expired s now grace h := by
  obtain ⟨mtime, hm, hold⟩ := hp
  obtain ⟨file, hfile, -, rfl⟩ := objectMetadata_eq_some.1 hm
  obtain ⟨t, ht, hgrace⟩ := oldEnough_eq_true.1 hold
  exact ⟨file, t, hfile, ht, hgrace⟩

/-- What examining one object can do. -/
inductive Examined (d : StoreDir) (now grace : ℕ) (live : Finset Hash) (h : Hash) (r : GcReport)
    (s : ObjectStore) : Except GcRootsError GcReport × ObjectStore → Prop
  | live : h ∈ live → Examined d now grace live h r s (.ok r.countLive, s)
  | recent : h ∉ live → (∀ len, ¬ Prunable d now grace s h len) →
      Examined d now grace live h r s (.ok r.countKept, s)
  | contended : h ∉ live → r.dry_run = false → d.contended h = true →
      Examined d now grace live h r s (.ok r.countKept, s)
  | previewed {len : ℕ} : h ∉ live → r.dry_run = true → Prunable d now grace s h len →
      Examined d now grace live h r s (.ok (r.countPruned len), s)
  | pruned {len : ℕ} : h ∉ live → r.dry_run = false → Prunable d now grace s h len →
      Examined d now grace live h r s (.ok (r.countPruned len), s.erase h)
  | failed {e : GcRootsError} : h ∉ live → r.dry_run = false →
      Examined d now grace live h r s (.error e, s)

variable (d now grace live) in
theorem examined_sweepOne (h : Hash) (r : GcReport) (s : ObjectStore) :
    Examined d now grace live h r s (exec (sweepOne d now grace live h r) s) := by
  rw [sweepOne]
  dsimp only
  by_cases hlive : h ∈ live
  · rw [if_pos hlive]
    exact .live hlive
  · rw [if_neg hlive, exec_get_bind]
    cases hm : objectMetadata d s h with
    | none => exact .recent hlive fun len ⟨mtime, hm', _⟩ => by rw [hm] at hm'; cases hm'
    | some m =>
      obtain ⟨len, mtime⟩ := m
      dsimp only
      cases hold : oldEnough mtime now grace with
      | false =>
        refine .recent hlive ?_
        rintro len' ⟨mtime', hm', hold'⟩
        rw [hm] at hm'
        obtain ⟨rfl, rfl⟩ := Prod.mk.inj (Option.some.inj hm')
        rw [hold] at hold'
        cases hold'
      | true =>
        have hp : Prunable d now grace s h len := ⟨mtime, hm, hold⟩
        rw [if_neg (by simp)]
        by_cases hdry : r.dry_run = true
        · rw [if_pos hdry]
          exact .previewed hlive hdry hp
        · rw [if_neg hdry, exec_bind]
          rw [Bool.not_eq_true] at hdry
          rcases exec_pruneIfOld d now grace s h with
            ⟨e, he⟩ | ⟨he, hwhy⟩ | ⟨len', mtime', hm', hold', he⟩
          · rw [he]
            exact .failed hlive hdry
          · rw [he]
            refine .contended hlive hdry (hwhy.resolve_right fun hyoung => ?_)
            rw [hyoung len mtime hm] at hold
            cases hold
          · rw [he]
            exact .pruned hlive hdry ⟨mtime', hm', hold'⟩

variable {r : GcReport}

/-- A sweep, complete or not, deletes only expired objects outside the live set. -/
theorem swept_sweep {all : List Hash}
    {res : Except GcRootsError GcReport} (h : exec (sweep d now grace live all r) s = (res, s')) :
    Swept live now grace s s' := by
  induction all generalizing r s with
  | nil =>
    obtain ⟨-, rfl⟩ := Prod.mk.inj h
    exact Swept.refl s
  | cons k rest ih =>
    rw [sweep, exec_bind] at h
    have hk := examined_sweepOne d now grace live k r s
    generalize exec (sweepOne d now grace live k r) s = out at h hk
    cases hk with
    | live _ => exact ih h
    | recent _ _ => exact ih h
    | contended _ _ _ => exact ih h
    | previewed _ _ _ => exact ih h
    | pruned hlive _ hp => exact (swept_erase hlive hp.expired).trans (ih h)
    | failed _ _ =>
      obtain ⟨-, rfl⟩ := Prod.mk.inj h
      exact Swept.refl s

/-- Every object examined is counted once. -/
def GcReport.Balanced (r : GcReport) : Prop :=
  r.scanned = r.live + r.kept_recent + r.pruned

variable {r' : GcReport}

theorem balanced_sweep {all : List Hash}
    (hr : r.Balanced) (h : exec (sweep d now grace live all r) s = (.ok r', s')) : r'.Balanced := by
  induction all generalizing r s with
  | nil =>
    obtain ⟨hres, -⟩ := Prod.mk.inj h
    exact Except.ok.inj hres ▸ hr
  | cons k rest ih =>
    rw [sweep, exec_bind] at h
    have hk := examined_sweepOne d now grace live k r s
    generalize exec (sweepOne d now grace live k r) s = out at h hk
    rw [GcReport.Balanced] at hr
    cases hk with
    | live _ => exact ih (by simp only [GcReport.Balanced, GcReport.countLive]; omega) h
    | recent _ _ => exact ih (by simp only [GcReport.Balanced, GcReport.countKept]; omega) h
    | contended _ _ _ =>
      exact ih (by simp only [GcReport.Balanced, GcReport.countKept]; omega) h
    | previewed _ _ _ =>
      exact ih (by simp only [GcReport.Balanced, GcReport.countPruned]; omega) h
    | pruned _ _ _ =>
      exact ih (by simp only [GcReport.Balanced, GcReport.countPruned]; omega) h
    | failed _ _ => cases h

variable (d now grace live) in
/-- A dry sweep succeeds and deletes nothing. -/
theorem exec_sweep_dry (all : List Hash) (r : GcReport) (hdry : r.dry_run = true)
    (s : ObjectStore) : ∃ r', exec (sweep d now grace live all r) s = (.ok r', s) := by
  induction all generalizing r with
  | nil => exact ⟨r, rfl⟩
  | cons k rest ih =>
    rw [sweep, exec_bind]
    have hk := examined_sweepOne d now grace live k r s
    generalize exec (sweepOne d now grace live k r) s = out at hk
    cases hk with
    | live _ => exact ih _ hdry
    | recent _ _ => exact ih _ hdry
    | contended _ hreal _ => rw [hdry] at hreal; cases hreal
    | previewed _ _ _ => exact ih _ hdry
    | pruned _ hreal _ => rw [hdry] at hreal; cases hreal
    | failed _ hreal => rw [hdry] at hreal; cases hreal

theorem prunable_congr (heq : s.lookup h = s'.lookup h) (len : ℕ) :
    Prunable d now grace s h len ↔ Prunable d now grace s' h len := by
  rw [Prunable, Prunable, objectMetadata, objectMetadata, heq]

theorem Prunable.unique {len len' : ℕ}
    (hp : Prunable d now grace s h len) (hp' : Prunable d now grace s h len') : len = len' := by
  obtain ⟨mtime, hm, -⟩ := hp
  obtain ⟨mtime', hm', -⟩ := hp'
  rw [hm] at hm'
  exact (Prod.mk.inj (Option.some.inj hm')).1

/-- The same report, of a dry run. -/
def GcReport.preview (r : GcReport) : GcReport :=
  { r with dry_run := true }

/-- Without writers, a dry run on the store as it was reports what a sweep reports. The sweep
has only deleted ids listed before the rest, so on the rest the two stores agree. -/
theorem preview_sweep {all : List Hash} {s₀ : ObjectStore}
    (hreal : r.dry_run = false) (hnodup : all.Nodup) (hfree : ∀ k ∈ all, d.contended k = false)
    (hagree : ∀ k ∈ all, s.lookup k = s₀.lookup k)
    (h : exec (sweep d now grace live all r) s = (.ok r', s')) :
    exec (sweep d now grace live all r.preview) s₀ = (.ok r'.preview, s₀) := by
  induction all generalizing r s with
  | nil =>
    obtain ⟨hres, -⟩ := Prod.mk.inj h
    obtain rfl : r = r' := Except.ok.inj hres
    rfl
  | cons k rest ih =>
    obtain ⟨hk, hnodup⟩ := List.nodup_cons.1 hnodup
    have hsame := hagree k List.mem_cons_self
    have hfree' : ∀ x ∈ rest, d.contended x = false := fun x hx =>
      hfree x (List.mem_cons_of_mem _ hx)
    have hagree' : ∀ x ∈ rest, s.lookup x = s₀.lookup x := fun x hx =>
      hagree x (List.mem_cons_of_mem _ hx)
    rw [sweep, exec_bind] at h ⊢
    have hstep := examined_sweepOne d now grace live k r s
    have hdry := examined_sweepOne d now grace live k r.preview s₀
    generalize exec (sweepOne d now grace live k r) s = out at h hstep
    generalize exec (sweepOne d now grace live k r.preview) s₀ = out' at hdry ⊢
    -- The dry run cannot fail, wait for the lock or delete: three of its cases are left.
    cases hdry with
    | contended _ hd _ => cases hd
    | pruned _ hd _ => cases hd
    | failed _ hd => cases hd
    | live hlive =>
      cases hstep with
      | live _ => exact ih (r := r.countLive) hreal hnodup hfree' hagree' h
      | recent hn _ => exact absurd hlive hn
      | contended hn _ _ => exact absurd hlive hn
      | previewed hn _ _ => exact absurd hlive hn
      | pruned hn _ _ => exact absurd hlive hn
      | failed hn _ => exact absurd hlive hn
    | recent hlive hyoung =>
      cases hstep with
      | live hin => exact absurd hin hlive
      | recent _ _ => exact ih (r := r.countKept) hreal hnodup hfree' hagree' h
      | contended _ _ hc => rw [hfree k List.mem_cons_self] at hc; cases hc
      | previewed _ hd _ => rw [hreal] at hd; cases hd
      | pruned _ _ hp => exact absurd ((prunable_congr hsame _).1 hp) (hyoung _)
      | failed _ _ => cases h
    | previewed hlive _ hp =>
      cases hstep with
      | live hin => exact absurd hin hlive
      | recent _ hyoung => exact absurd ((prunable_congr hsame _).2 hp) (hyoung _)
      | contended _ _ hc => rw [hfree k List.mem_cons_self] at hc; cases hc
      | previewed _ hd _ => rw [hreal] at hd; cases hd
      | failed _ _ => cases h
      | pruned _ _ hp' =>
        obtain rfl := hp.unique ((prunable_congr hsame _).1 hp')
        refine ih (r := r.countPruned _) hreal hnodup hfree' (fun x hx => ?_) h
        have hne : x ≠ k := fun he => hk (he ▸ hx)
        rw [AList.lookup_erase_ne hne]
        exact hagree' x hx

variable (B l d) in
/-- Everything that comes before the first deletion: the live set and the listing. -/
def marked (s : ObjectStore) : Except GcRootsError (Finset Hash × List Hash) := do
  rejectSymlink l.common_dir
  rejectSymlink d.objects_root
  let live ← liveObjects B l s
  let all ← (iterObjectHashes d.objects_root).mapError GcRootsError.store
  pure (live, all)

/-- A collection fails before it deletes anything, or sweeps what was marked. -/
theorem exec_runGc (s : ObjectStore) (dry : Bool) : exec (runGc B l d now grace dry) s =
      match marked B l d s with
      | .error e => (.error e, s)
      | .ok (live, all) => exec (sweep d now grace live all ⟨0, 0, 0, 0, 0, dry⟩) s := by
  rw [runGc, marked, exec_liftExcept_bind]
  cases rejectSymlink l.common_dir with
  | error e => rfl
  | ok _ =>
    dsimp only
    rw [exec_liftExcept_bind]
    cases rejectSymlink d.objects_root with
    | error e => rfl
    | ok _ =>
      dsimp only
      rw [exec_get_bind, exec_liftExcept_bind]
      cases liveObjects B l s with
      | error e => rfl
      | ok live =>
        dsimp only
        rw [exec_liftExcept_bind]
        cases (iterObjectHashes d.objects_root).mapError GcRootsError.store <;> rfl

theorem marked_eq_ok {all : List Hash} (h : marked B l d s = .ok (live, all)) :
    liveObjects B l s = .ok live ∧ iterObjectHashes d.objects_root = .ok all := by
  simp only [marked, Wire.bind_eq_ok, Wire.mapError_eq_ok] at h
  obtain ⟨_, -, _, -, live', hlive, all', hall, h⟩ := h
  obtain ⟨rfl, rfl⟩ := Prod.mk.inj (Except.ok.inj h)
  exact ⟨hlive, hall⟩

variable (B l) in
/-- The ids that must survive: reachable, in the full history, from a retention root. -/
def MustKeep (s : ObjectStore) : Hash → Prop :=
  Reachable B .history s fun r => RetentionRoot B l r ∧ r ≠ ZERO

/-- The live set is exactly what must survive, and all of it is in the store. -/
theorem mem_liveObjects (h : liveObjects B l s = .ok live) :
    (∀ k, k ∈ live ↔ MustKeep B l s k) ∧ ∀ k ∈ live, s.contains k = true := by
  simp only [liveObjects, Wire.bind_eq_ok, Wire.mapError_eq_ok] at h
  obtain ⟨roots, hroots, ⟨out, cut⟩, hwalk, h⟩ := h
  cases cut with
  | true => cases h
  | false =>
    obtain rfl : out = live := Except.ok.inj h
    have hset : (· ∈ roots) = fun r => RetentionRoot B l r ∧ r ≠ ZERO :=
      funext fun r => propext (mem_collectRoots hroots r)
    have hexact := mem_reachableWithMode hwalk
    rw [hset] at hexact
    exact hexact

/-- **Garbage collection is safe and fails closed, and its preview is exact without writers.**
A collection that succeeds has kept every object that must survive as it was, has deleted only
objects that need not and that are at least as old as the grace period, has changed nothing
else, and has counted every object it examined once. When no other process holds the writer
lock and no id is listed twice, a dry run on the same state gives the same report. A dry run
never deletes anything, and when the roots cannot be collected or the walk fails or is cut
short, nothing is deleted either. -/
theorem gc_safe_and_preview_exact (B : Blake3) (l : RepoLayout) (d : StoreDir)
    (s : ObjectStore) (now grace : ℕ) :
    (∀ dry report s', exec (runGc B l d now grace dry) s = (.ok report, s') →
      (∀ h, MustKeep B l s h → s.contains h = true ∧ s'.lookup h = s.lookup h) ∧
      (∀ h, s.contains h = true → s'.contains h = false →
        ¬ MustKeep B l s h ∧ Expired s now grace h) ∧
      (∀ h, s'.contains h = true → s'.lookup h = s.lookup h) ∧
      report.scanned = report.live + report.kept_recent + report.pruned) ∧
    (∀ report s', exec (runGc B l d now grace false) s = (.ok report, s') →
      (∀ h, d.contended h = false) →
      (∀ all, iterObjectHashes d.objects_root = .ok all → all.Nodup) →
      exec (runGc B l d now grace true) s = (.ok { report with dry_run := true }, s)) ∧
    (∀ res s', exec (runGc B l d now grace true) s = (res, s') → s' = s) ∧
    (∀ e, liveObjects B l s = .error e →
      ∀ dry, ∃ e', exec (runGc B l d now grace dry) s = (.error e', s)) := by
  refine ⟨?_, ?_, ?_, ?_⟩
  · intro dry report s' hrun
    rw [exec_runGc] at hrun
    cases hm : marked B l d s with
    | error e =>
      rw [hm] at hrun
      cases hrun
    | ok found =>
      obtain ⟨live, all⟩ := found
      rw [hm] at hrun
      obtain ⟨hmem, hthere⟩ := mem_liveObjects (marked_eq_ok hm).1
      have hswept := swept_sweep hrun
      refine ⟨fun h hkeep => ?_, fun h hin hout => ?_, fun h hin => ?_, ?_⟩
      · have hlive : h ∈ live := (hmem h).2 hkeep
        refine ⟨hthere h hlive, (hswept h).resolve_right ?_⟩
        rintro ⟨-, hn, -⟩
        exact hn hlive
      · rcases hswept h with heq | ⟨-, hn, hold⟩
        · rw [ObjectStore.contains, heq] at hout
          rw [ObjectStore.contains, hout] at hin
          cases hin
        · exact ⟨fun hkeep => hn ((hmem h).2 hkeep), hold⟩
      · refine (hswept h).resolve_right ?_
        rintro ⟨hnone, -, -⟩
        rw [ObjectStore.contains, hnone] at hin
        cases hin
      · exact balanced_sweep (r := ⟨0, 0, 0, 0, 0, dry⟩) rfl hrun
  · intro report s' hrun hfree hnames
    rw [exec_runGc] at hrun ⊢
    cases hm : marked B l d s with
    | error e =>
      rw [hm] at hrun
      cases hrun
    | ok found =>
      obtain ⟨live, all⟩ := found
      rw [hm] at hrun
      exact preview_sweep (r := ⟨0, 0, 0, 0, 0, false⟩) rfl (hnames all (marked_eq_ok hm).2)
        (fun k _ => hfree k) (fun _ _ => rfl) hrun
  · intro res s' hrun
    rw [exec_runGc] at hrun
    cases hm : marked B l d s with
    | error e =>
      rw [hm] at hrun
      exact (Prod.mk.inj hrun).2.symm
    | ok found =>
      obtain ⟨live, all⟩ := found
      rw [hm] at hrun
      obtain ⟨r', hdry⟩ := exec_sweep_dry d now grace live all ⟨0, 0, 0, 0, 0, true⟩ rfl s
      dsimp only at hrun
      rw [hdry] at hrun
      exact (Prod.mk.inj hrun).2.symm
  · intro e hlive dry
    rw [exec_runGc]
    cases hm : marked B l d s with
    | error e' => exact ⟨e', rfl⟩
    | ok found =>
      rw [(marked_eq_ok hm).1] at hlive
      cases hlive

end Spec

/-! A branch with one commit, and two objects nothing refers to, for evaluated runs. -/

/-- The id and the bytes of an object. -/
def gcSampleFile (o : Object) : Hash × Bytes :=
  match serialize o with
  | .ok b => ((objectIdFromBytes toyBlake3 b).getD ZERO, b)
  | .error _ => (ZERO, [])

def gcSampleBlob : Hash × Bytes := gcSampleFile (.blob ⟨[1]⟩)

def gcSampleTree : Hash × Bytes :=
  gcSampleFile (.tree ⟨[⟨ascii ['f'], .blob, gcSampleBlob.1⟩]⟩)

def gcSampleCommit : Hash × Bytes :=
  gcSampleFile (.commit ⟨gcSampleTree.1, [], ⟨.opaqueBytes, [1]⟩, ByteArr.fill 32 0, [], 0, ZERO,
    ZERO, ByteArr.fill 64 0⟩)

/-- Nothing refers to it, and it is old. -/
def gcSampleOld : Hash × Bytes := gcSampleFile (.blob ⟨[2]⟩)

/-- Nothing refers to it, and it is young. -/
def gcSampleYoung : Hash × Bytes := gcSampleFile (.blob ⟨[3]⟩)

def gcSampleStore : ObjectStore :=
  [(gcSampleBlob, 10), (gcSampleTree, 10), (gcSampleCommit, 10), (gcSampleOld, 10),
    (gcSampleYoung, 95)].foldl (fun s f => s.insert f.1.1 ⟨some f.1.2, some f.2⟩) ∅

/-- The files of one shard, for the ids of the store that belong there. -/
def gcSampleShard (h : Hash) : Bytes × Node :=
  ((toHex h).take 2, .dir 0 true [((toHex h).drop 2, .file [] 0 true)])

/-- The repository directory: `HEAD` and the branch `main`. -/
def gcSampleDir : Node :=
  .dir 0 true
    [(ascii ['H', 'E', 'A', 'D'],
        .file (HEAD_REF_PREFIX ++ ascii ['m', 'a', 'i', 'n'] ++ [NEWLINE]) 0 true),
     (ascii ['r', 'e', 'f', 's'], .dir 0 true
        [(ascii ['h', 'e', 'a', 'd', 's'], .dir 0 true
          [(ascii ['m', 'a', 'i', 'n'], .file (encodeRefWire gcSampleCommit.1) 0 true)])])]

def gcSampleLayout : RepoLayout := ⟨.ok gcSampleDir, .ok gcSampleDir⟩

/-- The surroundings of the store; `held` says whether a writer holds the lock. -/
def gcSampleStoreDir (held : Bool) : StoreDir where
  objects_root := .ok (.dir 0 true (gcSampleStore.keys.map gcSampleShard))
  format_file := .ok (.file [] 0 true)
  stat h := (gcSampleStore.lookup h).bind fun file => file.content.map List.length
  contended _ := held
  undeletable _ := false

/-- The branch tip of the sample must survive. -/
theorem gcSample_mustKeep : MustKeep toyBlake3 gcSampleLayout gcSampleStore gcSampleCommit.1 := by
  have hfile : HoldsRef [(ascii ['m', 'a', 'i', 'n'],
      Node.file (encodeRefWire gcSampleCommit.1) 0 true)] gcSampleCommit.1 :=
    .file List.mem_cons_self (by decide) (by decide +kernel)
  exact .start ⟨.ref (.inl rfl) rfl hfile, by decide +kernel⟩

/-- On the sample, a collection keeps the branch, deletes the old object, and reports what the
preview reports. -/
theorem gc_safe_and_preview_exact_sample :
    ∃ s', exec (runGc toyBlake3 gcSampleLayout (gcSampleStoreDir false) 100 50 false)
        gcSampleStore = (.ok ⟨5, 3, 1, 1, 11, false⟩, s') ∧
      s'.lookup gcSampleCommit.1 = gcSampleStore.lookup gcSampleCommit.1 ∧
      ¬ MustKeep toyBlake3 gcSampleLayout gcSampleStore gcSampleOld.1 ∧
      exec (runGc toyBlake3 gcSampleLayout (gcSampleStoreDir false) 100 50 true) gcSampleStore =
        (.ok ⟨5, 3, 1, 1, 11, true⟩, gcSampleStore) := by
  have hrun : exec (runGc toyBlake3 gcSampleLayout (gcSampleStoreDir false) 100 50 false)
      gcSampleStore = (.ok ⟨5, 3, 1, 1, 11, false⟩, gcSampleStore.erase gcSampleOld.1) :=
    Prod.ext (by decide +kernel) (AList.ext (by decide +kernel))
  have hnames : ∀ all, iterObjectHashes (gcSampleStoreDir false).objects_root = .ok all →
      all.Nodup := by
    intro all hall
    have hlist : iterObjectHashes (gcSampleStoreDir false).objects_root =
        .ok gcSampleStore.keys := by decide +kernel
    rw [hlist] at hall
    exact Except.ok.inj hall ▸ gcSampleStore.keys_nodup
  obtain ⟨hsafe, hpreview, -, -⟩ := gc_safe_and_preview_exact toyBlake3 gcSampleLayout
    (gcSampleStoreDir false) gcSampleStore 100 50
  obtain ⟨hkeep, hgone, -, -⟩ := hsafe _ _ _ hrun
  exact ⟨_, hrun, (hkeep _ gcSample_mustKeep).2,
    (hgone _ (by decide +kernel) (by decide +kernel)).1,
    hpreview _ _ hrun (fun _ => rfl) hnames⟩

/-- While a writer holds the lock, a collection keeps the old object that its preview counts as
deleted. -/
theorem preview_counts_contended_object :
    exec (runGc toyBlake3 gcSampleLayout (gcSampleStoreDir true) 100 50 false) gcSampleStore =
        (.ok ⟨5, 3, 2, 0, 0, false⟩, gcSampleStore) ∧
      exec (runGc toyBlake3 gcSampleLayout (gcSampleStoreDir true) 100 50 true) gcSampleStore =
        (.ok ⟨5, 3, 1, 1, 11, true⟩, gcSampleStore) := by
  constructor
  · exact Prod.ext (by decide +kernel) (AList.ext (by decide +kernel))
  · exact Prod.ext (by decide +kernel) (AList.ext (by decide +kernel))

end Mkit
