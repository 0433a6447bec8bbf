import Mkit.PackDecode
import Mkit.PackWriter

/-!
# The Decode Cursor Refines the Plain Reading

The cursor drops objects after their last use, fetches external bases when it needs them and
may be stopped in front of any delta. `Inv` says what it has done after some entries: it holds
every object a later delta needs, the budget has exactly the claims of the whole pack and the
external bases that are held, and the entries to come are untouched.

One step either delivers the object of the plain reading and keeps the invariant, or leaves
the cursor as it was because a base is missing, or fails for good (`decodeNext_step`). Whole
runs follow by induction.
-/

namespace Mkit.Pack

open Wire Effect Tally PackDecodeCursor

variable (Z : Zstd) (B : Blake3)

/-! ### External bases that are held -/

/-- The bases fetched from outside while decoding: of every delta whose base had not been made
before it. -/
def fetchedFrom (before : List (Hash × Bytes)) : List PackEntry → List (Hash × Bytes) → List Hash
  | e :: es, d :: ds =>
    (e.base?.filter fun b => (latest before b).isNone).toList ++
      fetchedFrom (before ++ [d]) es ds
  | _, _ => []

theorem fetchedFrom_append {before made made' : List (Hash × Bytes)} {past todo : List PackEntry}
    (h : made.length = past.length) : fetchedFrom before (past ++ todo) (made ++ made') =
      fetchedFrom before past made ++ fetchedFrom (before ++ made) todo made' := by
  induction past generalizing before made with
  | nil =>
    obtain rfl : made = [] := List.length_eq_zero_iff.1 h
    simp [fetchedFrom]
  | cons e past ih =>
    obtain ⟨d, made, rfl⟩ := List.exists_cons_of_length_eq_add_one h
    rw [List.cons_append, List.cons_append, fetchedFrom, fetchedFrom,
      ih (by simpa using h), List.append_assoc]
    simp

theorem fetchedFrom_snoc {before made : List (Hash × Bytes)} {past : List PackEntry}
    {e : PackEntry} {d : Hash × Bytes} (h : made.length = past.length) :
    fetchedFrom before (past ++ [e]) (made ++ [d]) = fetchedFrom before past made ++
      (e.base?.filter fun b => (latest (before ++ made) b).isNone).toList := by
  rw [fetchedFrom_append h]
  simp [fetchedFrom]

/-- The external bases in memory after `past`: fetched, and named by a delta to come. -/
def heldBases (past todo : List PackEntry) (made : List (Hash × Bytes)) : Finset Hash :=
  (fetchedFrom [] past made).toFinset.filter (· ∈ basesOf todo)

/-- The length of the base a source provides. -/
def DeltaBaseSource.baseLen (src : DeltaBaseSource) (id : Hash) : ℕ :=
  match src.provides B id with
  | .ok bytes => bytes.length
  | .error _ => 0

/-- Every base that `src` provides, `full` provides too. -/
def DeltaBaseSource.Within (src full : DeltaBaseSource) : Prop :=
  ∀ id bytes, src.provides B id = .ok bytes → full.provides B id = .ok bytes

/-! ### The invariant -/

/-- The report after some entries. -/
def reportOf (past : List PackEntry) (made : List (Hash × Bytes)) : DecodeReport :=
  { raw_count := past.countP fun e => e.base?.isNone
    delta_count := past.countP fun e => e.base?.isSome
    ids := made.map Prod.fst }

/-- What the cursor holds after the objects `made`, when the frames from `k` on are the ones of
`todo` and the bases `fetched` have come from outside. -/
structure Holding (full : DeltaBaseSource) (limits : DecodeLimits) (fs : List Frame)
    (es : List PackEntry) (k : ℕ) (todo : List PackEntry) (made : List (Hash × Bytes))
    (fetched : List Hash) (c : PackDecodeCursor) : Prop where
  length_entries : c.entries.length = es.length
  taken : ∀ i, i < k → c.entries[i]? = some none
  entries_eq : ∀ i, k ≤ i → c.entries[i]? = (cursorFrames limits HEADER_LEN fs es)[i]?.map some
  max_eq : c.budget.max = limits.max_decoded_bytes
  uses_eq : c.uses = tally (basesOf todo)
  serves : Tally.Serves c.in_pack made (basesOf todo)
  cached : ∀ b v, c.in_pack.lookup b = some v → b ∈ basesOf todo ∧ baseOf B full made b = .ok v
  mem_in_pack : ∀ b ∈ basesOf todo, b ∈ c.in_pack ↔ latest made b ≠ none ∨ b ∈ fetched
  charged_eq : ∀ b, c.charged.lookup b =
    if b ∈ fetched ∧ b ∈ basesOf todo then some (full.baseLen B b) else none
  provided : ∀ b ∈ fetched, ∃ v, full.provides B b = .ok v
  length_fetched : fetched.length ≤ k
  used_eq : c.budget.used = (claims fs es).sum + total c.charged

/-- The cursor has delivered the entries `past` as the objects `made`, and `todo` is to come. -/
structure Inv (full : DeltaBaseSource) (limits : DecodeLimits) (fs : List Frame)
    (es past todo : List PackEntry) (made : List (Hash × Bytes)) (c : PackDecodeCursor) : Prop where
  es_eq : es = past ++ todo
  length_fs : fs.length = es.length
  length_le : fs.length ≤ MAX_ENTRIES
  length_made : made.length = past.length
  next_eq : c.next = past.length
  report_eq : c.report = some (reportOf past made)
  holding : Holding B full limits fs es past.length todo made (fetchedFrom [] past made) c

variable {full : DeltaBaseSource} {limits : DecodeLimits} {fs : List Frame} {es : List PackEntry}

theorem length_fetchedFrom (before made : List (Hash × Bytes)) (past : List PackEntry) :
    (fetchedFrom before past made).length ≤ past.length := by
  induction past generalizing before made with
  | nil => simp [fetchedFrom]
  | cons e past ih =>
    cases made with
    | nil => simp [fetchedFrom]
    | cons d made =>
      have hone : (e.base?.filter fun b => (latest before b).isNone).toList.length ≤ 1 := by
        cases e.base?.filter fun b => (latest before b).isNone <;> simp
      have := ih (before ++ [d]) made
      rw [fetchedFrom, List.length_append, List.length_cons]
      omega

/-- A fresh cursor has delivered nothing. -/
theorem inv_start (full : DeltaBaseSource) (limits : DecodeLimits) (hfs : fs.length = es.length)
    (hlen : fs.length ≤ MAX_ENTRIES) :
    Inv B full limits fs es [] es [] (PackDecodeCursor.start limits fs es) where
  es_eq := rfl
  length_fs := hfs
  length_le := hlen
  length_made := rfl
  next_eq := rfl
  report_eq := rfl
  holding :=
    { length_entries := by
        have := congrArg List.length (@map_entry_cursorFrames limits HEADER_LEN fs es hfs.symm)
        rw [List.length_map] at this
        rw [PackDecodeCursor.start, List.length_map, this]
      taken := fun i hi => by simp at hi
      entries_eq := fun i _ => by rw [PackDecodeCursor.start, List.getElem?_map]
      max_eq := rfl
      uses_eq := rfl
      serves := serves_nil _ _
      cached := fun b v h => by simp [PackDecodeCursor.start] at h
      mem_in_pack := fun b _ => by
        simp [PackDecodeCursor.start, fetchedFrom, Finmap.notMem_empty]
      charged_eq := fun b => by simp [PackDecodeCursor.start, fetchedFrom]
      provided := fun b h => by simp [fetchedFrom] at h
      length_fetched := by simp [fetchedFrom]
      used_eq := by simp [PackDecodeCursor.start] }

/-! ### Fetching a base -/

/-- The cursor after an external base has been admitted. -/
def admitted (id : Hash) (len : ℕ) (c : PackDecodeCursor) : PackDecodeCursor :=
  { c with
    budget := c.budget.add len
    charged := c.charged.insert id (min ((c.charged.lookup id).getD 0 + len) U64_MAX) }

/-- Is the budget exceeded by a charge? -/
def Exceeds (c : PackDecodeCursor) (len : ℕ) : Prop :=
  c.budget.max < min (c.budget.used + len) U64_MAX

theorem exec_admitBase (id : Hash) (len : ℕ) (c : PackDecodeCursor) :
    (Exceeds c len ∧ exec (admitBase id len) c =
      (.error .packfileTooLarge, { c with budget := c.budget.add len })) ∨
    (¬ Exceeds c len ∧ exec (admitBase id len) c = (.ok (), admitted id len c)) := by
  by_cases h : Exceeds c len
  · refine .inl ⟨h, ?_⟩
    have h' : (c.budget.add len).max < (c.budget.add len).used := h
    have hcharge : exec (charge len) c =
        (.error .packfileTooLarge, { c with budget := c.budget.add len }) := by
      rw [charge, exec_get_bind, exec_set_bind, if_pos h']
      rfl
    rw [admitBase, exec_bind, hcharge]
  · refine .inr ⟨h, ?_⟩
    have h' : ¬ (c.budget.add len).max < (c.budget.add len).used := h
    have hcharge : exec (charge len) c = (.ok (), { c with budget := c.budget.add len }) := by
      rw [charge, exec_get_bind, exec_set_bind, if_neg h']
      rfl
    rw [admitBase, exec_bind, hcharge]
    rfl

/-- Nothing but the charge of one base differs. -/
structure OnlyCharges (base : Hash) (c c' : PackDecodeCursor) : Prop where
  entries_eq : c'.entries = c.entries
  next_eq : c'.next = c.next
  max_eq : c'.budget.max = c.budget.max
  uses_eq : c'.uses = c.uses
  in_pack_eq : c'.in_pack = c.in_pack
  report_eq : c'.report = c.report
  charged_eq : ∀ b, b ≠ base → c'.charged.lookup b = c.charged.lookup b

theorem OnlyCharges.refl (base : Hash) (c : PackDecodeCursor) : OnlyCharges base c c :=
  ⟨rfl, rfl, rfl, rfl, rfl, rfl, fun _ _ => rfl⟩

theorem OnlyCharges.budget (base : Hash) (len : ℕ) (c : PackDecodeCursor) :
    OnlyCharges base c { c with budget := c.budget.add len } :=
  ⟨rfl, rfl, rfl, rfl, rfl, rfl, fun _ _ => rfl⟩

theorem OnlyCharges.admitted (base : Hash) (len : ℕ) (c : PackDecodeCursor) :
    OnlyCharges base c (admitted base len c) :=
  ⟨rfl, rfl, rfl, rfl, rfl, rfl, fun b hb => by
    rw [Pack.admitted, lookup_insert_eq, if_neg hb]⟩

/-- The length a source admits for an id, also when it fails afterwards. -/
def DeltaBaseSource.admits (src : DeltaBaseSource) (id : Hash) : Option ℕ :=
  match src.fetch id with
  | .absent => none
  | .found bytes => some bytes.length
  | .failed len _ => len

/-- The cursor with a base fetched and kept. -/
def withBase (base : Hash) (bytes : Bytes) (c : PackDecodeCursor) : PackDecodeCursor :=
  { admitted base bytes.length c with in_pack := c.in_pack.insert base bytes }

/-- How looking up a base can end. -/
inductive BaseOutcome (src : DeltaBaseSource) (base : Hash) (c : PackDecodeCursor) :
    Except PackError Bytes → PackDecodeCursor → Prop
  /-- It is kept. -/
  | kept {bytes : Bytes} (h : c.in_pack.lookup base = some bytes) :
      BaseOutcome src base c (.ok bytes) c
  /-- The source provides it, within the budget. -/
  | fetched {bytes : Bytes} (h : c.in_pack.lookup base = none)
      (hp : src.provides B base = .ok bytes) (hb : ¬ Exceeds c bytes.length) :
      BaseOutcome src base c (.ok bytes) (withBase base bytes c)
  /-- The source does not provide it. -/
  | refused {e : PackError} {c' : PackDecodeCursor} (h : c.in_pack.lookup base = none)
      (hp : src.provides B base = .error e) (hc : OnlyCharges base c c') :
      BaseOutcome src base c (.error e) c'
  /-- The budget does not allow it. -/
  | exceeded {len : ℕ} {c' : PackDecodeCursor} (h : c.in_pack.lookup base = none)
      (hl : src.admits base = some len) (hb : Exceeds c len) (hc : OnlyCharges base c c') :
      BaseOutcome src base c (.error .packfileTooLarge) c'

theorem exec_baseBytes (src : DeltaBaseSource) (base : Hash) (c : PackDecodeCursor) :
    ∃ r c', exec (baseBytes B src base) c = (r, c') ∧ BaseOutcome B src base c r c' := by
  rw [baseBytes, exec_get_bind]
  cases hin : c.in_pack.lookup base with
  | some bytes => exact ⟨_, _, rfl, .kept hin⟩
  | none =>
    dsimp only
    rw [exec_bind, externalBase, exec_bind, fetchBase]
    cases hf : src.fetch base with
    | absent =>
      refine ⟨_, _, rfl, .refused hin ?_ (OnlyCharges.refl base c)⟩
      rw [DeltaBaseSource.provides, hf]
    | failed len e =>
      have hp : src.provides B base = .error e := by rw [DeltaBaseSource.provides, hf]
      cases len with
      | none => exact ⟨_, _, rfl, .refused hin hp (OnlyCharges.refl base c)⟩
      | some len =>
        dsimp only
        rw [exec_bind]
        rcases exec_admitBase base len c with ⟨hb, hx⟩ | ⟨hb, hx⟩
        · rw [hx]
          refine ⟨_, _, rfl, .exceeded hin ?_ hb (OnlyCharges.budget base len c)⟩
          rw [DeltaBaseSource.admits, hf]
        · rw [hx]
          exact ⟨_, _, rfl, .refused hin hp (OnlyCharges.admitted base len c)⟩
    | found bytes =>
      dsimp only
      rw [exec_bind]
      rcases exec_admitBase base bytes.length c with ⟨hb, hx⟩ | ⟨hb, hx⟩
      · rw [hx]
        refine ⟨_, _, rfl, .exceeded hin ?_ hb (OnlyCharges.budget base bytes.length c)⟩
        rw [DeltaBaseSource.admits, hf]
      · rw [hx]
        have hmatch : exec (do
            let ok ← liftM (externalBaseMatches B src.VERIFIED bytes base)
            pure (if ok then some bytes else none) : Step (Option Bytes))
            (admitted base bytes.length c) =
            match externalBaseMatches B src.VERIFIED bytes base with
            | .ok ok => (.ok (if ok then some bytes else none), admitted base bytes.length c)
            | .error e => (.error e, admitted base bytes.length c) := by
          rw [exec_liftExcept_bind]
          cases externalBaseMatches B src.VERIFIED bytes base <;> rfl
        dsimp only [exec_pure]
        rw [hmatch]
        cases hm : externalBaseMatches B src.VERIFIED bytes base with
        | error e =>
          refine ⟨_, _, rfl, .refused hin ?_ (OnlyCharges.admitted base bytes.length c)⟩
          rw [DeltaBaseSource.provides, hf]
          dsimp only
          rw [hm]
        | ok ok =>
          cases ok with
          | false =>
            refine ⟨_, _, rfl, .refused hin ?_
              (OnlyCharges.admitted base bytes.length c)⟩
            rw [DeltaBaseSource.provides, hf]
            dsimp only
            rw [hm]
          | true =>
            refine ⟨.ok bytes, withBase base bytes c, rfl, .fetched hin ?_ hb⟩
            rw [DeltaBaseSource.provides, hf]
            dsimp only
            rw [hm]

/-! ### One step -/

/-- Rebuild an object from the bytes of its base. -/
def applyDelta (base stream : Bytes) : Except PackError Bytes := do
  let _ ← validateDeltaResultSize stream
  liftDelta (DeltaStream.decode base stream)

theorem rebuild_eq (base stream : Bytes) : rebuild B base stream = (do
      let bytes ← applyDelta base stream
      let (object, id) ← identify B bytes
      .ok (object, id, bytes)) := by
  rw [rebuild, applyDelta]
  cases validateDeltaResultSize stream <;> rfl

/-- Applying a delta never reports a missing base. -/
theorem applyDelta_not_missing {base stream : Bytes} {e : PackError}
    (h : applyDelta base stream = .error e) : isDeltaBaseMissing e = false := by
  rw [applyDelta] at h
  cases hv : validateDeltaResultSize stream with
  | error e' =>
    rw [hv] at h
    obtain rfl : e' = e := Except.error.inj h
    rw [validateDeltaResultSize] at hv
    dsimp only at hv
    split_ifs at hv <;> cases hv <;> rfl
  | ok n =>
    rw [hv] at h
    have h : liftDelta (DeltaStream.decode base stream) = .error e := h
    rw [liftDelta] at h
    cases hd : DeltaStream.decode base stream with
    | error e' =>
      rw [hd] at h
      obtain rfl := Except.error.inj h
      rfl
    | ok bytes =>
      rw [hd] at h
      cases h

/-- Naming an object never reports a missing base. -/
theorem identify_not_missing {bytes : Bytes} {e : PackError} (h : identify B bytes = .error e) :
    isDeltaBaseMissing e = false := by
  rw [identify] at h
  cases hv : validateStorableObject bytes with
  | error e' =>
    rw [hv] at h
    obtain rfl : e' = e := Except.error.inj h
    rw [validateStorableObject] at hv
    split_ifs at hv
    · cases hv
      rfl
    · split at hv <;> cases hv <;> rfl
  | ok object =>
    rw [hv] at h
    simp only [bind, Except.bind] at h
    split at h <;> cases h
    rfl

theorem exec_resolveDeltaTarget (src : DeltaBaseSource) (base : Hash) (stream : Bytes)
    (c : PackDecodeCursor) : exec (resolveDeltaTarget B src base stream) c =
      match exec (baseBytes B src base) c with
      | (.ok bytes, c') => (applyDelta bytes stream, c')
      | (.error e, c') => (.error e, c') := by
  rw [resolveDeltaTarget, exec_bind]
  rcases exec (baseBytes B src base) c with ⟨e | bytes, c'⟩
  · rfl
  · dsimp only
    rw [exec_liftExcept_bind, applyDelta]
    cases validateDeltaResultSize stream with
    | error e => rfl
    | ok n =>
      change exec (liftM (liftDelta (DeltaStream.decode bytes stream)) : Step Bytes) c' =
        (liftDelta (DeltaStream.decode bytes stream), c')
      cases liftDelta (DeltaStream.decode bytes stream) <;> rfl

/-- Undoing the charge of an attempt and putting the frame back gives the cursor before it. -/
theorem restore_eq {base : Hash} {c c' : PackDecodeCursor} {frame : CursorFrame}
    (h : OnlyCharges base { c with entries := c.entries.set c.next none } c')
    (hframe : c.entries[c.next]? = some (some frame)) (hcap : frame.cap = none) :
    restore frame base { c with entries := c.entries.set c.next none } c' = c := by
  have hframe' : { frame with cap := none } = frame := by
    rw [← hcap]
  apply PackDecodeCursor.ext
  case entries =>
    change c'.entries.set c'.next (some { frame with cap := none }) = c.entries
    rw [h.entries_eq, h.next_eq, hframe', List.set_set]
    apply List.ext_getElem?
    intro i
    rw [List.getElem?_set]
    split_ifs with hi hlt
    · rw [← hi, hframe]
    · rw [← hi, List.getElem?_eq_none (by omega)]
    · rfl
  case next => exact h.next_eq
  case budget =>
    change ({ used := c.budget.used, max := c'.budget.max } : DecodeBudget) = c.budget
    rw [h.max_eq]
  case charged =>
    apply Finmap.ext_lookup
    intro b
    rw [restore]
    cases hl : c.charged.lookup base with
    | some len =>
      dsimp only
      rw [lookup_insert_eq]
      split_ifs with hb
      · rw [hb, hl]
      · exact h.charged_eq b hb
    | none =>
      dsimp only
      rw [lookup_erase_eq]
      split_ifs with hb
      · rw [hb, hl]
      · exact h.charged_eq b hb
  case uses => exact h.uses_eq
  case in_pack => exact h.in_pack_eq
  case report => exact h.report_eq

/-! ### What each kind of step keeps -/

/-- A base that is provided is a storable object, so it is not larger than one. -/
theorem length_of_provides {src : DeltaBaseSource} {id : Hash} {v : Bytes}
    (h : src.provides B id = .ok v) : v.length ≤ MAX_RAW_OBJECT_SIZE := by
  have hstorable : ∀ o, validateStorableObject v = .ok o → v.length ≤ MAX_RAW_OBJECT_SIZE := by
    intro o ho
    rw [validateStorableObject] at ho
    split_ifs at ho with hlt
    exact Nat.not_lt.1 hlt
  rw [DeltaBaseSource.provides] at h
  split at h
  · cases h
  · cases h
  · rename_i bytes hf
    split at h
    · cases h
    · rename_i hm
      obtain rfl := Except.ok.inj h
      rw [externalBaseMatches] at hm
      split_ifs at hm with hver
      · rw [Wire.bind_eq_ok] at hm
        obtain ⟨o, ho, -⟩ := hm
        exact hstorable o ho
      · split at hm
        · rename_i hid
          rw [identify, Wire.bind_eq_ok] at hid
          obtain ⟨o, ho, -⟩ := hid
          exact hstorable o ho
        · cases hm
    · cases h

theorem baseLen_eq {src : DeltaBaseSource} {id : Hash} {v : Bytes}
    (h : src.provides B id = .ok v) : src.baseLen B id = v.length := by
  rw [DeltaBaseSource.baseLen, h]

variable {B} {k : ℕ} {todo : List PackEntry} {made : List (Hash × Bytes)} {fetched : List Hash}
  {c : PackDecodeCursor}

/-- What is charged for external bases stays far below the range of the counter. -/
theorem Holding.total_le (h : Holding B full limits fs es k todo made fetched c) :
    total c.charged ≤ k * MAX_RAW_OBJECT_SIZE := by
  have hle : total c.charged ≤ fetched.length * MAX_RAW_OBJECT_SIZE := by
    refine Tally.total_le fun b n hn => ?_
    rw [h.charged_eq] at hn
    split_ifs at hn with hb
    obtain ⟨v, hv⟩ := h.provided b hb.1
    refine ⟨hb.1, ?_⟩
    rw [← Option.some.inj hn, baseLen_eq B hv]
    exact length_of_provides B hv
  exact hle.trans (Nat.mul_le_mul_right _ h.length_fetched)

/-- The object that is delivered is kept if a later delta names it. -/
theorem Holding.deliver (h : Holding B full limits fs es k todo made fetched c) (d : DecodedEntry) :
    Holding B full limits fs es k todo (made ++ [(d.id, d.bytes)]) fetched
      (PackDecodeCursor.deliver d c) := by
  have hmem : (c.uses.lookup d.id).isSome = true ↔ d.id ∈ basesOf todo := by
    rw [Finmap.lookup_isSome, h.uses_eq, mem_tally]
  have hin : (PackDecodeCursor.deliver d c).in_pack =
      if d.id ∈ basesOf todo then c.in_pack.insert d.id d.bytes else c.in_pack := by
    rw [PackDecodeCursor.deliver]
    by_cases hd : d.id ∈ basesOf todo
    · rw [if_pos hd, if_pos (hmem.2 hd)]
    · rw [if_neg hd, if_neg fun h => hd (hmem.1 h)]
  exact
    { length_entries := h.length_entries
      taken := h.taken
      entries_eq := h.entries_eq
      max_eq := h.max_eq
      uses_eq := h.uses_eq
      serves := by
        rw [hin]
        exact h.serves.make d.id d.bytes
      cached := by
        intro b v hb
        rw [hin] at hb
        rw [baseOf, latest_snoc]
        by_cases hd : d.id ∈ basesOf todo
        · rw [if_pos hd, lookup_insert_eq] at hb
          by_cases hbd : b = d.id
          · rw [if_pos hbd] at hb
            rw [if_pos hbd.symm]
            exact ⟨hbd ▸ hd, by rw [← Option.some.inj hb]⟩
          · rw [if_neg hbd] at hb
            rw [if_neg fun h => hbd h.symm]
            exact h.cached b v hb
        · rw [if_neg hd] at hb
          obtain ⟨hmem', hbase⟩ := h.cached b v hb
          have hne : ¬ d.id = b := fun h => hd (h ▸ hmem')
          rw [if_neg hne]
          exact ⟨hmem', hbase⟩
      mem_in_pack := by
        intro b hb
        rw [hin, latest_snoc]
        by_cases hbd : d.id = b
        · subst hbd
          simp [hb]
        · rw [if_neg hbd, ← h.mem_in_pack b hb]
          split_ifs
          · rw [Finmap.mem_insert, or_iff_right fun h => hbd h.symm]
          · rfl
      charged_eq := h.charged_eq
      provided := h.provided
      length_fetched := h.length_fetched
      used_eq := h.used_eq }

/-- Taking a frame leaves the later ones. -/
theorem Holding.take (h : Holding B full limits fs es k todo made fetched c) (hk : c.next = k)
    (hes : k < es.length) : Holding B full limits fs es (k + 1) todo made fetched
      { c with entries := c.entries.set c.next none } where
  length_entries := by
    rw [List.length_set]
    exact h.length_entries
  taken := by
    intro i hi
    rw [List.getElem?_set]
    split_ifs with hi' hlt
    · rfl
    · have := h.length_entries
      omega
    · exact h.taken i (by omega)
  entries_eq := by
    intro i hi
    rw [List.getElem?_set_ne (by omega)]
    exact h.entries_eq i (by omega)
  max_eq := h.max_eq
  uses_eq := h.uses_eq
  serves := h.serves
  cached := h.cached
  mem_in_pack := h.mem_in_pack
  charged_eq := h.charged_eq
  provided := h.provided
  length_fetched := h.length_fetched.trans (Nat.le_succ k)
  used_eq := h.used_eq

/-- Only the set of the bases fetched matters. -/
theorem Holding.congr_fetched {fetched' : List Hash}
    (h : Holding B full limits fs es k todo made fetched c)
    (hiff : ∀ b, b ∈ fetched ↔ b ∈ fetched') (hlen : fetched'.length ≤ k) :
    Holding B full limits fs es k todo made fetched' c where
  length_entries := h.length_entries
  taken := h.taken
  entries_eq := h.entries_eq
  max_eq := h.max_eq
  uses_eq := h.uses_eq
  serves := h.serves
  cached := h.cached
  mem_in_pack := fun b hb => by rw [h.mem_in_pack b hb, hiff b]
  charged_eq := fun b => by
    rw [h.charged_eq b]
    exact if_congr (by rw [hiff b]) rfl rfl
  provided := fun b hb => h.provided b ((hiff b).2 hb)
  length_fetched := hlen
  used_eq := h.used_eq

/-- A raw entry names no base. -/
theorem Holding.raw {bytes : Bytes}
    (h : Holding B full limits fs es k (.raw bytes :: todo) made fetched c) :
    Holding B full limits fs es k todo made fetched c := by
  have hb : basesOf (.raw bytes :: todo) = basesOf todo := rfl
  exact ⟨h.length_entries, h.taken, h.entries_eq, h.max_eq, h.uses_eq, h.serves, h.cached, h.mem_in_pack,
    h.charged_eq, h.provided, h.length_fetched, h.used_eq⟩

/-- A fetched base is charged and kept. -/
theorem Holding.fetch {base : Hash} {v : Bytes}
    (h : Holding B full limits fs es k todo made fetched c) (hk : fetched.length < k)
    (hle : k ≤ MAX_ENTRIES) (hclaims : (claims fs es).sum < 2 ^ 57) (hmem : base ∈ basesOf todo)
    (hnone : c.in_pack.lookup base = none) (hv : full.provides B base = .ok v) :
    Holding B full limits fs es k todo made (fetched ++ [base]) (withBase base v c) := by
  have hout : base ∉ c.in_pack := Finmap.lookup_eq_none.1 hnone
  have hnew := mt (h.mem_in_pack base hmem).2 hout
  rw [not_or, not_not] at hnew
  obtain ⟨hlatest, hnot⟩ := hnew
  have hfree : c.charged.lookup base = none := by
    rw [h.charged_eq, if_neg fun hb => hnot hb.1]
  have hlen := length_of_provides B hv
  have htotal := h.total_le
  have hbound : (claims fs es).sum + total c.charged + v.length ≤ U64_MAX := by
    have hmul : k * MAX_RAW_OBJECT_SIZE ≤ MAX_ENTRIES * MAX_RAW_OBJECT_SIZE :=
      Nat.mul_le_mul_right _ hle
    have hconst : 2 ^ 57 + MAX_ENTRIES * MAX_RAW_OBJECT_SIZE + MAX_RAW_OBJECT_SIZE ≤ U64_MAX := by
      decide
    omega
  have hcharged : (withBase base v c).charged = c.charged.insert base v.length := by
    have hmin : min ((c.charged.lookup base).getD 0 + v.length) U64_MAX = v.length := by
      rw [hfree, Option.getD_none, Nat.zero_add]
      exact min_eq_left (by omega)
    change c.charged.insert base (min ((c.charged.lookup base).getD 0 + v.length) U64_MAX) = _
    rw [hmin]
  exact
    { length_entries := h.length_entries
      taken := h.taken
      entries_eq := h.entries_eq
      max_eq := h.max_eq
      uses_eq := h.uses_eq
      serves := h.serves.fill hlatest v
      cached := by
        intro b w hb
        rw [withBase, lookup_insert_eq] at hb
        by_cases hbb : b = base
        · subst hbb
          rw [if_pos rfl] at hb
          refine ⟨hmem, ?_⟩
          rw [baseOf, hlatest]
          exact hv.trans (congrArg _ (Option.some.inj hb))
        · rw [if_neg hbb] at hb
          exact h.cached b w hb
      mem_in_pack := by
        intro b hb
        rw [withBase, Finmap.mem_insert, h.mem_in_pack b hb, List.mem_append, List.mem_singleton]
        tauto
      charged_eq := by
        intro b
        rw [hcharged, lookup_insert_eq]
        by_cases hbb : b = base
        · subst hbb
          rw [if_pos rfl, if_pos ⟨by simp, hmem⟩, baseLen_eq B hv]
        · rw [if_neg hbb, h.charged_eq]
          exact if_congr (by simp [hbb]) rfl rfl
      provided := by
        intro b hb
        rcases List.mem_append.1 hb with hb | hb
        · exact h.provided b hb
        · exact ⟨v, List.mem_singleton.1 hb ▸ hv⟩
      length_fetched := by
        rw [List.length_append, List.length_singleton]
        omega
      used_eq := by
        rw [hcharged, total_insert hfree, withBase, admitted]
        change min (c.budget.used + v.length) U64_MAX = _
        rw [h.used_eq, min_eq_left hbound]
        omega }

theorem useBase_next (base : Hash) (c : PackDecodeCursor) : (useBase base c).next = c.next := by
  rw [useBase]
  cases c.uses.lookup base with
  | none => rfl
  | some left =>
    dsimp only
    split_ifs <;> rfl

theorem useBase_report (base : Hash) (c : PackDecodeCursor) :
    (useBase base c).report = c.report := by
  rw [useBase]
  cases c.uses.lookup base with
  | none => rfl
  | some left =>
    dsimp only
    split_ifs <;> rfl

/-- With its last use a base is dropped and its charge credited. -/
theorem Holding.use {base : Hash} {stream : Bytes}
    (h : Holding B full limits fs es k (.delta base stream :: todo) made fetched c) :
    Holding B full limits fs es k todo made fetched (useBase base c) := by
  have hbases : basesOf (.delta base stream :: todo) = base :: basesOf todo := rfl
  have huses : c.uses.lookup base = some ((basesOf todo).count base + 1) := by
    rw [h.uses_eq, hbases, lookup_tally, List.count_cons_self, atLeastOne, if_neg (by omega)]
  have hspend : spend c.uses base = tally (basesOf todo) := by
    rw [h.uses_eq, hbases, spend_tally]
  have hserves := h.serves
  rw [hbases] at hserves
  have hdrop := hserves.drop
  have hmem : ∀ b, b ∈ basesOf todo → b ∈ basesOf (.delta base stream :: todo) :=
    fun b hb => List.mem_cons_of_mem base hb
  by_cases hlast : base ∈ basesOf todo
  · have hc : useBase base c = { c with uses := spend c.uses base } := by
      rw [useBase, huses]
      dsimp only
      rw [Nat.add_sub_cancel, if_neg]
      exact (List.count_pos_iff.2 hlast).ne'
    have hmem' : ∀ b, b ∈ basesOf (.delta base stream :: todo) → b ∈ basesOf todo := by
      intro b hb
      rcases List.mem_cons.1 hb with rfl | hb
      · exact hlast
      · exact hb
    rw [if_pos hlast] at hdrop
    rw [hc]
    exact
      { length_entries := h.length_entries
        taken := h.taken
        entries_eq := h.entries_eq
        max_eq := h.max_eq
        uses_eq := hspend
        serves := hdrop
        cached := fun b v hb => ⟨hmem' b (h.cached b v hb).1, (h.cached b v hb).2⟩
        mem_in_pack := fun b hb => h.mem_in_pack b (hmem b hb)
        charged_eq := by
          intro b
          rw [h.charged_eq]
          exact if_congr (and_congr_right fun _ => ⟨hmem' b, hmem b⟩) rfl rfl
        provided := h.provided
        length_fetched := h.length_fetched
        used_eq := h.used_eq }
  · have hc : useBase base c =
        { c with
          uses := spend c.uses base
          in_pack := c.in_pack.erase base
          charged := c.charged.erase base
          budget := { c.budget with used := c.budget.used - (c.charged.lookup base).getD 0 } } := by
      rw [useBase, huses]
      dsimp only
      rw [Nat.add_sub_cancel, if_pos (List.count_eq_zero.2 hlast)]
    have hmem' : ∀ b, b ≠ base → b ∈ basesOf (.delta base stream :: todo) → b ∈ basesOf todo := by
      intro b hne hb
      rcases List.mem_cons.1 hb with rfl | hb
      · exact absurd rfl hne
      · exact hb
    have hne : ∀ b ∈ basesOf todo, b ≠ base := fun b hb hbb => hlast (hbb ▸ hb)
    rw [if_neg hlast] at hdrop
    rw [hc]
    exact
      { length_entries := h.length_entries
        taken := h.taken
        entries_eq := h.entries_eq
        max_eq := h.max_eq
        uses_eq := hspend
        serves := hdrop
        cached := by
          intro b v hb
          rw [lookup_erase_eq] at hb
          split_ifs at hb with hbb
          exact ⟨hmem' b hbb (h.cached b v hb).1, (h.cached b v hb).2⟩
        mem_in_pack := by
          intro b hb
          rw [Finmap.mem_erase, h.mem_in_pack b (hmem b hb)]
          exact and_iff_right (hne b hb)
        charged_eq := by
          intro b
          rw [lookup_erase_eq, h.charged_eq]
          by_cases hbb : b = base
          · rw [if_pos hbb, if_neg fun hb => hlast (hbb ▸ hb.2)]
          · rw [if_neg hbb]
            exact if_congr (and_congr_right fun _ => ⟨hmem' b hbb, hmem b⟩) rfl rfl
        provided := h.provided
        length_fetched := h.length_fetched
        used_eq := by
          dsimp only
          rw [h.used_eq]
          cases hch : c.charged.lookup base with
          | none =>
            have herase : c.charged.erase base = c.charged := by
              apply Finmap.ext_lookup
              intro b
              rw [lookup_erase_eq]
              split_ifs with hbb
              · rw [hbb, hch]
              · rfl
            rw [herase]
            rfl
          | some n =>
            have := total_erase hch
            rw [Option.getD_some]
            omega }

/-! ### One step -/

/-- The entry the sink receives for a frame. -/
def decodedEntry (frame : CursorFrame) (d : Object × Hash × Bytes) : DecodedEntry :=
  { id := d.2.1, bytes := d.2.2, object := d.1, from_delta := frame.delta_base.isSome,
    frame_offset := frame.frame_offset, frame_length := frame.frame_length,
    wire_type := frame.wire_type, delta_base := frame.delta_base }

/-- How a step can fail: with a failure of the plain reading, because the source does not provide
the base, or because the budget does not allow it. -/
inductive StepFailure (full src : DeltaBaseSource) (c : PackDecodeCursor) (e : PackEntry)
    (made : List (Hash × Bytes)) : PackError → Prop
  | plain {err : PackError} (h : decodeOne B full made e = .error err)
      (hm : isDeltaBaseMissing err = false) : StepFailure full src c e made err
  | source {err : PackError} {base : Hash} (he : e.base? = some base)
      (hl : latest made base = none) (hin : c.in_pack.lookup base = none)
      (h : src.provides B base = .error err) : StepFailure full src c e made err
  | budget {base : Hash} {len : ℕ} (he : e.base? = some base) (hl : latest made base = none)
      (hin : c.in_pack.lookup base = none) (ha : src.admits base = some len)
      (hb : Exceeds c len) : StepFailure full src c e made .packfileTooLarge

variable {past : List PackEntry} {e : PackEntry} {src : DeltaBaseSource} {frame : CursorFrame}

/-- The step on a raw entry. -/
theorem exec_decodeNext_raw {bytes : Bytes}
    (hframe : c.entries[c.next]? = some (some frame)) (hentry : frame.entry = .raw bytes)
    (hbase : frame.delta_base = none) (hcap : frame.cap = none) :
    exec (decodeNext B src fun _ => .ok ()) c =
      ((identify B bytes).map fun x => decodedEntry frame (x.1, x.2, bytes),
        { c with entries := c.entries.set c.next none }) := by
  have hget : c.entries.getD c.next none = some frame := by
    rw [List.getD_eq_getElem?_getD, hframe]
    rfl
  rw [decodeNext, exec_get_bind, hget]
  dsimp only
  rw [exec_set_bind, hcap]
  dsimp only
  rw [exec_liftExcept_bind, hentry]
  dsimp only
  rw [exec_liftExcept_bind]
  cases identify B bytes with
  | error err => rfl
  | ok x =>
    simp only [Except.map, decodedEntry, hbase]
    rfl

/-- The step on a delta. -/
theorem exec_decodeNext_delta {base : Hash} {stream : Bytes}
    (hframe : c.entries[c.next]? = some (some frame)) (hentry : frame.entry = .delta base stream)
    (hbase : frame.delta_base = some base) (hcap : frame.cap = none) :
    exec (decodeNext B src fun _ => .ok ()) c =
      match exec (resolveOrRestore B src frame base stream)
        { c with entries := c.entries.set c.next none } with
      | (.error err, c') => (.error err, c')
      | (.ok bytes, c') =>
          ((identify B bytes).map fun x => decodedEntry frame (x.1, x.2, bytes), useBase base c') := by
  have hget : c.entries.getD c.next none = some frame := by
    rw [List.getD_eq_getElem?_getD, hframe]
    rfl
  rw [decodeNext, exec_get_bind, hget]
  dsimp only
  rw [exec_set_bind, hcap]
  dsimp only
  rw [exec_liftExcept_bind, hentry]
  dsimp only
  rw [exec_bind]
  rcases exec (resolveOrRestore B src frame base stream)
    { c with entries := c.entries.set c.next none } with ⟨err | bytes, c'⟩
  · rfl
  · dsimp only
    rw [exec_get_bind, exec_set_bind, exec_liftExcept_bind]
    cases identify B bytes with
    | error err => rfl
    | ok x =>
      simp only [Except.map, decodedEntry, hbase]
      rfl

/-- How resolving a delta can end. -/
theorem exec_resolveOrRestore {base : Hash} {stream : Bytes} (src : DeltaBaseSource)
    (hframe : c.entries[c.next]? = some (some frame)) (hcap : frame.cap = none) :
    (∃ err c', exec (resolveOrRestore B src frame base stream)
        { c with entries := c.entries.set c.next none } = (.error err, c') ∧
      (isDeltaBaseMissing err = true → c' = c) ∧ c.in_pack.lookup base = none ∧
      (src.provides B base = .error err ∨
        err = .packfileTooLarge ∧ ∃ len, src.admits base = some len ∧ Exceeds c len)) ∨
    (∃ v c', ((c.in_pack.lookup base = some v ∧
          c' = { c with entries := c.entries.set c.next none }) ∨
        (c.in_pack.lookup base = none ∧ src.provides B base = .ok v ∧
          c' = withBase base v { c with entries := c.entries.set c.next none })) ∧
      exec (resolveOrRestore B src frame base stream)
        { c with entries := c.entries.set c.next none } = (applyDelta v stream, c')) := by
  have hrun : exec (resolveOrRestore B src frame base stream)
      { c with entries := c.entries.set c.next none } =
      match exec (resolveDeltaTarget B src base stream)
        { c with entries := c.entries.set c.next none } with
      | (.ok bytes, c') => (.ok bytes, c')
      | (.error err, c') => (.error err, if isDeltaBaseMissing err then
          restore frame base { c with entries := c.entries.set c.next none } c' else c') := rfl
  obtain ⟨r, c', hexec, hout⟩ :=
    exec_baseBytes B src base { c with entries := c.entries.set c.next none }
  rw [hrun, exec_resolveDeltaTarget, hexec]
  -- with the base at hand, whatever fails is not a missing base
  have hok : ∀ v c₂, (match (applyDelta v stream, c₂) with
      | (.ok bytes, c') => ((.ok bytes : Except PackError Bytes), c')
      | (.error err, c') => (.error err, if isDeltaBaseMissing err then
          restore frame base { c with entries := c.entries.set c.next none } c' else c')) =
      (applyDelta v stream, c₂) := by
    intro v c₂
    cases hd : applyDelta v stream with
    | ok bytes => rfl
    | error err =>
      dsimp only
      rw [applyDelta_not_missing hd]
      rfl
  cases hout with
  | kept hin => exact .inr ⟨_, _, .inl ⟨hin, rfl⟩, hok _ _⟩
  | fetched hin hp _ => exact .inr ⟨_, _, .inr ⟨hin, hp, rfl⟩, hok _ _⟩
  | @refused err c' hin hp hc =>
    refine .inl ?_
    dsimp only
    by_cases hm : isDeltaBaseMissing err = true
    · rw [if_pos hm, restore_eq hc hframe hcap]
      exact ⟨_, _, rfl, fun _ => rfl, hin, .inl hp⟩
    · rw [if_neg hm]
      exact ⟨_, _, rfl, fun h => absurd h hm, hin, .inl hp⟩
  | @exceeded len c' hin hl hb hc =>
    refine .inl ⟨_, _, rfl, fun h => ?_, hin, .inr ⟨rfl, len, hl, hb⟩⟩
    cases h

/-- Delivering an object extends the invariant by its entry. -/
theorem Inv.deliver_of_holding (h : Inv B full limits fs es past (e :: todo) made c)
    {c' : PackDecodeCursor} {d : DecodedEntry}
    (hc : Holding B full limits fs es (past.length + 1) todo made
      (fetchedFrom [] (past ++ [e]) (made ++ [(d.id, d.bytes)])) c')
    (hnext : c'.next = c.next) (hreport : c'.report = c.report)
    (hdelta : d.from_delta = e.base?.isSome) :
    Inv B full limits fs es (past ++ [e]) todo (made ++ [(d.id, d.bytes)])
      (PackDecodeCursor.deliver d c') where
  es_eq := by rw [List.append_assoc, List.singleton_append, h.es_eq]
  length_fs := h.length_fs
  length_le := h.length_le
  length_made := by rw [List.length_append, List.length_append, h.length_made]; rfl
  next_eq := by
    change c'.next + 1 = _
    rw [hnext, h.next_eq, List.length_append]
    rfl
  report_eq := by
    change c'.report.map _ = _
    rw [hreport, h.report_eq, Option.map_some, hdelta]
    cases hb : e.base? <;> simp [reportOf, hb]
  holding := by
    have hlen : (past ++ [e]).length = past.length + 1 := by simp
    rw [hlen]
    exact hc.deliver d

/-- **One step delivers the object of the plain reading, or leaves the cursor as it was because a
base is missing, or fails for good.** -/
theorem decodeNext_step (h : Inv B full limits fs es past (e :: todo) made c)
    (hsrc : src.Within B full) (hframe : c.entries[past.length]? = some (some frame))
    (hentry : frame.entry = e) (hbase : frame.delta_base = e.base?) (hcap : frame.cap = none) :
    (∃ d c', exec (decodeNext B src fun _ => .ok ()) c = (.ok (decodedEntry frame d), c') ∧
      decodeOne B full made e = .ok d ∧
      Inv B full limits fs es (past ++ [e]) todo (made ++ [d.2])
        (PackDecodeCursor.deliver (decodedEntry frame d) c')) ∨
    (∃ err c', exec (decodeNext B src fun _ => .ok ()) c = (.error err, c') ∧
      (isDeltaBaseMissing err = true → c' = c) ∧ StepFailure (B := B) full src c e made err) := by
  rw [← h.next_eq] at hframe
  have hlen : past.length + 1 ≤ es.length := by
    rw [h.es_eq, List.length_append, List.length_cons]
    omega
  have htake := h.holding.take h.next_eq hlen
  cases e with
  | raw bytes =>
    rw [exec_decodeNext_raw hframe hentry hbase hcap]
    cases hid : identify B bytes with
    | error err =>
      refine .inr ⟨err, _, rfl, fun hm => ?_, .plain ?_ (identify_not_missing B hid)⟩
      · rw [identify_not_missing B hid] at hm
        cases hm
      · rw [decodeOne, hid]
        rfl
    | ok x =>
      refine .inl ⟨(x.1, x.2, bytes), _, rfl, ?_, ?_⟩
      · rw [decodeOne, hid]
        rfl
      · have hdelta : (decodedEntry frame (x.1, x.2, bytes)).from_delta =
            (PackEntry.raw bytes).base?.isSome := congrArg Option.isSome hbase
        have hheld : Holding B full limits fs es (past.length + 1) todo made
            (fetchedFrom [] (past ++ [.raw bytes]) (made ++ [(x.2, bytes)]))
            { c with entries := c.entries.set c.next none } := by
          rw [fetchedFrom_snoc h.length_made]
          simpa [PackEntry.base?] using htake.raw
        refine h.deliver_of_holding hheld ?_ ?_ hdelta
        · rfl
        · rfl
  | delta base stream =>
    rw [exec_decodeNext_delta hframe hentry hbase hcap]
    rcases @exec_resolveOrRestore B c frame base stream src hframe hcap with
      ⟨err, c', hexec, hmissing, hnone, hfail⟩ | ⟨v, c', hbaseBytes, hexec⟩
    · rw [hexec]
      refine .inr ⟨err, c', rfl, hmissing, ?_⟩
      have hlatest : latest made base = none := by
        by_contra hne
        have := (h.holding.mem_in_pack base List.mem_cons_self).2 (.inl hne)
        exact Finmap.lookup_eq_none.1 hnone this
      rcases hfail with hp | ⟨rfl, len, hl, hb⟩
      · exact .source rfl hlatest hnone hp
      · exact .budget rfl hlatest hnone hl hb
    · rw [hexec]
      have hv : baseOf B full made base = .ok v := by
        rcases hbaseBytes with ⟨hin, -⟩ | ⟨hnone, hp, -⟩
        · exact (h.holding.cached base v hin).2
        · have hlatest : latest made base = none := by
            by_contra hne
            have := (h.holding.mem_in_pack base List.mem_cons_self).2 (.inl hne)
            exact Finmap.lookup_eq_none.1 hnone this
          rw [baseOf, hlatest]
          exact hsrc base v hp
      have hone : decodeOne B full made (.delta base stream) = rebuild B v stream := by
        rw [decodeOne, hv]
        rfl
      rw [rebuild_eq] at hone
      cases happly : applyDelta v stream with
      | error err =>
        rw [happly] at hone
        refine .inr ⟨err, c', rfl, fun hm => ?_, .plain hone (applyDelta_not_missing happly)⟩
        rw [applyDelta_not_missing happly] at hm
        cases hm
      | ok bytes =>
        rw [happly] at hone
        dsimp only
        cases hid : identify B bytes with
        | error err =>
          refine .inr ⟨err, useBase base c', rfl, fun hm => ?_,
            .plain ?_ (identify_not_missing B hid)⟩
          · rw [identify_not_missing B hid] at hm
            cases hm
          · rw [hone]
            change (identify B bytes >>= _) = _
            rw [hid]
            rfl
        | ok x =>
          refine .inl ⟨(x.1, x.2, bytes), useBase base c', rfl, ?_, ?_⟩
          · rw [hone]
            change (identify B bytes >>= _) = _
            rw [hid]
            rfl
          · have hfetched : fetchedFrom [] (past ++ [.delta base stream])
                (made ++ [(x.2, bytes)]) = fetchedFrom [] past made ++
                  if latest made base = none then [base] else [] := by
              rw [fetchedFrom_snoc h.length_made]
              cases hl : latest made base <;> simp [PackEntry.base?, Option.filter, hl]
            have hcount := length_fetchedFrom [] made past
            have hheld : Holding B full limits fs es (past.length + 1)
                (.delta base stream :: todo) made (fetchedFrom [] past made ++
                  if latest made base = none then [base] else []) c' := by
              rcases hbaseBytes with ⟨hin, rfl⟩ | ⟨hnone, hp, rfl⟩
              · refine htake.congr_fetched (fun b => ?_) ?_
                · split_ifs with hl
                  · rw [List.mem_append, List.mem_singleton, iff_self_or]
                    rintro rfl
                    have hmem := Finmap.mem_of_lookup_eq_some hin
                    rcases (h.holding.mem_in_pack b List.mem_cons_self).1 hmem with hne | hb
                    · exact absurd hl hne
                    · exact hb
                  · rw [List.append_nil]
                · split_ifs <;> simp <;> omega
              · have hlatest : latest made base = none := by
                  by_contra hne
                  have := (h.holding.mem_in_pack base List.mem_cons_self).2 (.inl hne)
                  exact Finmap.lookup_eq_none.1 hnone this
                rw [if_pos hlatest]
                refine htake.fetch (by omega) ?_ (claims_sum_lt h.length_le h.length_fs.symm)
                  List.mem_cons_self hnone (hsrc base v hp)
                have := h.length_le
                rw [h.length_fs] at this
                omega
            have hnext : c'.next = c.next := by
              rcases hbaseBytes with ⟨-, rfl⟩ | ⟨-, -, rfl⟩ <;> rfl
            have hreport : c'.report = c.report := by
              rcases hbaseBytes with ⟨-, rfl⟩ | ⟨-, -, rfl⟩ <;> rfl
            have hdelta : (decodedEntry frame (x.1, x.2, bytes)).from_delta =
                (PackEntry.delta base stream).base?.isSome := congrArg Option.isSome hbase
            refine h.deliver_of_holding ?_ ((useBase_next base c').trans hnext)
              ((useBase_report base c').trans hreport) hdelta
            change Holding B full limits fs es (past.length + 1) todo made
              (fetchedFrom [] (past ++ [.delta base stream]) (made ++ [(x.2, bytes)])) _
            rw [hfetched]
            exact hheld.use

end Mkit.Pack
