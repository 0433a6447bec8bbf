import Mkit.PackCursor

/-!
# Stopping and Resuming a Decode

A decode may stop in front of a delta whose base is missing and go on when the base has come.
`Inv` leaves nothing open about the cursor (`Inv.unique`), so a cursor that was stopped any
number of times is the very cursor of one uninterrupted decode at the same place. Whatever is
true of the rest of that decode is true of the resumed one.
-/

namespace Mkit.Pack

open Wire Effect Tally PackDecodeCursor

variable {B : Blake3} {full src : DeltaBaseSource} {limits : DecodeLimits} {fs : List Frame}
  {es past todo : List PackEntry} {e : PackEntry} {made : List (Hash × Bytes)}
  {c c' : PackDecodeCursor}

/-! ### The cursor at a place -/

/-- What has been delivered determines the cursor. -/
theorem Inv.unique (h : Inv B full limits fs es past todo made c)
    (h' : Inv B full limits fs es past todo made c') : c = c' := by
  have hcharged : c.charged = c'.charged := by
    apply Finmap.ext_lookup
    intro b
    rw [h.holding.charged_eq, h'.holding.charged_eq]
  apply PackDecodeCursor.ext
  case entries =>
    apply List.ext_getElem?
    intro i
    by_cases hi : i < past.length
    · rw [h.holding.taken i hi, h'.holding.taken i hi]
    · rw [h.holding.entries_eq i (by omega), h'.holding.entries_eq i (by omega)]
  case next => rw [h.next_eq, h'.next_eq]
  case budget =>
    have hused : c.budget.used = c'.budget.used := by
      rw [h.holding.used_eq, h'.holding.used_eq, hcharged]
    have hmax : c.budget.max = c'.budget.max := by
      rw [h.holding.max_eq, h'.holding.max_eq]
    calc c.budget = ⟨c.budget.used, c.budget.max⟩ := rfl
      _ = ⟨c'.budget.used, c'.budget.max⟩ := by rw [hused, hmax]
      _ = c'.budget := rfl
  case charged => exact hcharged
  case uses => rw [h.holding.uses_eq, h'.holding.uses_eq]
  case in_pack =>
    apply Finmap.ext_lookup
    intro b
    by_cases hb : b ∈ basesOf todo
    · have hiff : b ∈ c.in_pack ↔ b ∈ c'.in_pack := by
        rw [h.holding.mem_in_pack b hb, h'.holding.mem_in_pack b hb]
      cases hv : c.in_pack.lookup b with
      | none =>
        have hout : b ∉ c'.in_pack := fun hin => Finmap.lookup_eq_none.1 hv (hiff.2 hin)
        rw [Finmap.lookup_eq_none.2 hout]
      | some v =>
        obtain ⟨v', hv'⟩ := Finmap.mem_iff.1 (hiff.1 (Finmap.mem_of_lookup_eq_some hv))
        have heq := (h.holding.cached b v hv).2.symm.trans (h'.holding.cached b v' hv').2
        rw [hv', Except.ok.inj heq]
    · have hnone : ∀ x, Inv B full limits fs es past todo made x → x.in_pack.lookup b = none := by
        intro x hx
        cases hv : x.in_pack.lookup b with
        | none => rfl
        | some v => exact absurd (hx.holding.cached b v hv).1 hb
      rw [hnone c h, hnone c' h']
  case report => rw [h.report_eq, h'.report_eq]

/-- The frame the cursor keeps for an entry. -/
theorem getElem?_cursorFrames {offset : ℕ} (hlen : fs.length = (past ++ e :: todo).length) :
    ∃ f frame, fs[past.length]? = some f ∧
      (cursorFrames limits offset fs (past ++ e :: todo))[past.length]? = some frame ∧
      frame.entry = e ∧ frame.delta_base = e.base? ∧ frame.cap = limits.capOf f := by
  induction past generalizing offset fs with
  | nil =>
    obtain ⟨f, fs, rfl⟩ := List.exists_cons_of_length_eq_add_one hlen
    exact ⟨f, _, rfl, rfl, rfl, rfl, rfl⟩
  | cons e' past ih =>
    obtain ⟨f, fs, rfl⟩ := List.exists_cons_of_length_eq_add_one hlen
    exact ih (Nat.succ.inj hlen)

/-- The plain reading of a sequence reads its parts in turn. -/
theorem decodeAll_append (src : DeltaBaseSource) (es' : List PackEntry) :
    decodeAll B src made (es ++ es') = (do
      let ds ← decodeAll B src made es
      let ds' ← decodeAll B src (made ++ ds.map Prod.snd) es'
      .ok (ds ++ ds')) := by
  induction es generalizing made with
  | nil =>
    change decodeAll B src made es' = (decodeAll B src (made ++ []) es' >>= fun ds' => .ok ds')
    rw [List.append_nil]
    cases decodeAll B src made es' <;> rfl
  | cons e es ih =>
    rw [List.cons_append, decodeAll, decodeAll]
    cases decodeOne B src made e with
    | error err => rfl
    | ok d =>
      change (decodeAll B src (made ++ [d.2]) (es ++ es') >>= _) =
        ((decodeAll B src (made ++ [d.2]) es >>= _) >>= _)
      rw [ih]
      cases decodeAll B src (made ++ [d.2]) es with
      | error err => rfl
      | ok ds =>
        change ((decodeAll B src (made ++ [d.2] ++ ds.map Prod.snd) es' >>= _) >>= _) =
          (decodeAll B src (made ++ (d :: ds).map Prod.snd) es' >>= _)
        rw [List.map_cons, List.append_assoc, List.singleton_append]
        cases decodeAll B src (made ++ d.2 :: ds.map Prod.snd) es' <;> rfl

variable {ds : List (Object × Hash × Bytes)}

theorem length_of_decodeAll (h : decodeAll B src made es = .ok ds) : ds.length = es.length := by
  induction es generalizing made ds with
  | nil =>
    obtain rfl := Except.ok.inj h
    rfl
  | cons e es ih =>
    rw [decodeAll, Wire.bind_eq_ok] at h
    obtain ⟨d, -, h⟩ := h
    rw [Wire.bind_eq_ok] at h
    obtain ⟨rest, hrest, h⟩ := h
    obtain rfl := Except.ok.inj h
    rw [List.length_cons, List.length_cons, ih hrest]

/-- The entries a sink has received for the objects `ds`. -/
def delivered (limits : DecodeLimits) (fs : List Frame) (es : List PackEntry)
    (ds : List (Object × Hash × Bytes)) : List DecodedEntry :=
  List.zipWith decodedEntry (cursorFrames limits HEADER_LEN fs es) ds

/-- The cursor has decoded `past` to the objects `ds`, and the sink has received them. -/
structure Reached (B : Blake3) (full : DeltaBaseSource) (limits : DecodeLimits) (fs : List Frame)
    (es past todo : List PackEntry) (ds : List (Object × Hash × Bytes)) (c : PackDecodeCursor)
    (log : List DecodedEntry) : Prop where
  inv : Inv B full limits fs es past todo (ds.map Prod.snd) c
  decoded : decodeAll B full [] past = .ok ds
  log_eq : log = delivered limits fs es ds

variable {ds : List (Object × Hash × Bytes)} {log : List DecodedEntry}

variable {ds' : List (Object × Hash × Bytes)} {log' : List DecodedEntry}

/-- Two decodes that have come to the same place are in the same state. -/
theorem Reached.unique (h : Reached B full limits fs es past todo ds c log)
    (h' : Reached B full limits fs es past todo ds' c' log') : ds = ds' ∧ c = c' ∧ log = log' := by
  obtain rfl : ds = ds' := Except.ok.inj (h.decoded.symm.trans h'.decoded)
  exact ⟨rfl, h.inv.unique h'.inv, h.log_eq.trans h'.log_eq.symm⟩

/-- How a step can fail: the frame breaks a cap, or decoding it fails. -/
def Fails (B : Blake3) (full src : DeltaBaseSource) (limits : DecodeLimits) (fs : List Frame)
    (past : List PackEntry) (e : PackEntry) (made : List (Hash × Bytes)) (c : PackDecodeCursor)
    (err : PackError) : Prop :=
  (∃ f, fs[past.length]? = some f ∧ limits.capOf f = some err) ∨
    StepFailure (B := B) full src c e made err

/-! ### Steps and runs -/

variable {f : Frame} {err : PackError}

theorem checkFrame_of_capOf (h : limits.capOf f = some err) :
    limits.checkFrame f.etype f.payload = .error err := by
  rw [DecodeLimits.capOf] at h
  split at h
  · cases h
  · rename_i he
    rw [he, Option.some.inj h]

/-- A cap never reports a missing base. -/
theorem capOf_not_missing (h : limits.capOf f = some err) : isDeltaBaseMissing err = false := by
  have hclaim : ∀ payload err, zstdClaim payload = .error err → isDeltaBaseMissing err = false := by
    intro payload err h
    rw [zstdClaim] at h
    dsimp only at h
    split_ifs at h <;> cases h <;> rfl
  have hcheck := checkFrame_of_capOf h
  rw [DecodeLimits.checkFrame] at hcheck
  split at hcheck
  · cases hcheck
  · split_ifs at hcheck
    · cases hcheck
      rfl
    · cases hcheck
      rfl
    · split at hcheck
      · rename_i he
        rw [← Except.error.inj hcheck]
        exact hclaim _ _ he
      · split_ifs at hcheck
        cases hcheck
        rfl

/-- One more object delivered. -/
theorem zipWith_snoc {α β γ : Type} (f : α → β → γ) {xs : List α} {ys : List β} {x : α} (y : β)
    (h : xs[ys.length]? = some x) :
    List.zipWith f xs (ys ++ [y]) = List.zipWith f xs ys ++ [f x y] := by
  induction ys generalizing xs with
  | nil =>
    cases xs with
    | nil => simp at h
    | cons x' xs =>
      obtain rfl : x' = x := by simpa using h
      simp
  | cons y' ys ih =>
    cases xs with
    | nil => simp at h
    | cons x' xs =>
      have h : xs[ys.length]? = some x := by simpa using h
      simpa using ih h

/-- **A step of a decode moves to the next place or fails where it is.** -/
theorem Reached.step (h : Reached B full limits fs es past (e :: todo) ds c log)
    (hsrc : src.Within B full) :
    (∃ d c' log', PackDecodeCursor.advance B src (fun _ => .ok ()) collect c log =
        (.ok (), c', log') ∧
      Reached B full limits fs es (past ++ [e]) todo (ds ++ [d]) c' log') ∨
    (∃ err c', PackDecodeCursor.advance B src (fun _ => .ok ()) collect c log =
        (.error err, c', log) ∧
      (isDeltaBaseMissing err = true → c' = c) ∧
      Fails B full src limits fs past e (ds.map Prod.snd) c err) := by
  have hlen : fs.length = (past ++ e :: todo).length := by rw [h.inv.length_fs, h.inv.es_eq]
  obtain ⟨f, frame, hf, hframe, hentry, hbase, hcap⟩ :=
    @getElem?_cursorFrames limits fs past todo e HEADER_LEN hlen
  rw [← h.inv.es_eq] at hframe
  have hkept : c.entries[past.length]? = some (some frame) := by
    rw [h.inv.holding.entries_eq _ le_rfl, hframe]
    rfl
  cases hc : frame.cap with
  | some err =>
    refine .inr ⟨err, { c with entries := c.entries.set c.next none }, ?_, fun hm => ?_,
      .inl ⟨f, hf, hcap ▸ hc⟩⟩
    · have hget : c.entries.getD c.next none = some frame := by
        rw [List.getD_eq_getElem?_getD, h.inv.next_eq, hkept]
        rfl
      have hnext : exec (decodeNext B src fun _ => .ok ()) c =
          (.error err, { c with entries := c.entries.set c.next none }) := by
        rw [decodeNext, exec_get_bind, hget]
        dsimp only
        rw [exec_set_bind, hc]
        rfl
      rw [PackDecodeCursor.advance, hnext]
    · rw [capOf_not_missing (hcap ▸ hc)] at hm
      cases hm
  | none =>
    rcases decodeNext_step h.inv hsrc hkept hentry hbase hc with
      ⟨d, c', hexec, hone, hinv⟩ | ⟨err, c', hexec, hmissing, hfail⟩
    · have hds : ds.length = past.length := length_of_decodeAll h.decoded
      refine .inl ⟨d, deliver (decodedEntry frame d) c', log ++ [decodedEntry frame d], ?_, ?_⟩
      · rw [PackDecodeCursor.advance, hexec]
        rfl
      · exact
          { inv := by
              rw [List.map_append]
              exact hinv
            decoded := by
              rw [decodeAll_append, h.decoded]
              change (decodeOne B full (ds.map Prod.snd) e >>= _) >>= _ = _
              rw [hone]
              rfl
            log_eq := by
              rw [delivered, zipWith_snoc decodedEntry d (by rw [hds]; exact hframe), h.log_eq]
              rfl }
    · refine .inr ⟨err, c', ?_, hmissing, .inr hfail⟩
      rw [PackDecodeCursor.advance, hexec]

/-- How far some rounds come. -/
theorem Reached.loop {xs ys : List PackEntry}
    (h : Reached B full limits fs es past (xs ++ ys) ds c log) (hsrc : src.Within B full) :
    (∃ ds' c' log', resumeLoop B src (fun _ => .ok ()) collect xs.length c log =
        (.ok (), c', log') ∧ Reached B full limits fs es (past ++ xs) ys ds' c' log') ∨
    (∃ err c' past' e todo' ds' c₁ log', resumeLoop B src (fun _ => .ok ()) collect xs.length
        c log = (.error err, c', log') ∧
      Reached B full limits fs es past' (e :: todo') ds' c₁ log' ∧
      (isDeltaBaseMissing err = true → c' = c₁) ∧
      Fails B full src limits fs past' e (ds'.map Prod.snd) c₁ err) := by
  induction xs generalizing past ds c log with
  | nil =>
    refine .inl ⟨ds, c, log, rfl, ?_⟩
    rw [List.append_nil]
    exact h
  | cons e xs ih =>
    rw [List.length_cons, resumeLoop]
    rcases h.step hsrc with ⟨d, c', log', hadv, hr⟩ | ⟨err, c', hadv, hmissing, hfail⟩
    · rw [hadv, ← List.singleton_append, ← List.append_assoc]
      exact ih hr
    · rw [hadv]
      exact .inr ⟨err, c', past, e, xs ++ ys, ds, c, log, rfl, h, hmissing, hfail⟩

/-- Rounds split anywhere. -/
theorem resumeLoop_add {σ : Type} (src : DeltaBaseSource)
    (before : Option Hash → Except PackError Unit)
    (sink : DecodedEntry → ExceptT PackError (StateM σ) Unit) (m n : ℕ) (c : PackDecodeCursor)
    (st : σ) : resumeLoop B src before sink (m + n) c st =
      match resumeLoop B src before sink m c st with
      | (.ok _, c', st') => resumeLoop B src before sink n c' st'
      | (.error e, c', st') => (.error e, c', st') := by
  induction m generalizing c st with
  | zero => rw [Nat.zero_add, resumeLoop]
  | succ m ih =>
    rw [Nat.add_right_comm, resumeLoop, resumeLoop]
    rcases PackDecodeCursor.advance B src before sink c st with ⟨err | _, c', st'⟩
    · rfl
    · exact ih c' st'

theorem Reached.resume_eq (h : Reached B full limits fs es past todo ds c log)
    (src : DeltaBaseSource) : PackDecodeCursor.resume B src collect c log =
      match resumeLoop B src (fun _ => .ok ()) collect todo.length c log with
      | (.error e, c', st') => (.error e, c', st')
      | (.ok _, c', st') =>
          match c'.report with
          | none => (.error .packfileCorrupted, c', st')
          | some report => (.ok report, { c' with report := none }, st') := by
  have hrounds : c.entries.length - c.next = todo.length := by
    rw [h.inv.holding.length_entries, h.inv.next_eq, h.inv.es_eq, List.length_append,
      Nat.add_sub_cancel_left]
  have hreport : ¬ c.report.isNone = true := by
    rw [h.inv.report_eq]
    simp
  rw [PackDecodeCursor.resume, resumeChecked, if_neg hreport, hrounds]
  rcases resumeLoop B src (fun _ => .ok ()) collect todo.length c log with ⟨err | _, c', st'⟩
  · rfl
  · cases hr : c'.report <;> simp only [hr]

/-- **How a resumed decode ends**: all is delivered, or a step of it fails. -/
theorem Reached.resume (h : Reached B full limits fs es past todo ds c log)
    (hsrc : src.Within B full) : (∃ ds' c', PackDecodeCursor.resume B src collect c log =
        (.ok (reportOf es (ds'.map Prod.snd)), { c' with report := none },
          delivered limits fs es ds') ∧
      Reached B full limits fs es es [] ds' c' (delivered limits fs es ds')) ∨
    (∃ err c' past' e todo' ds' c₁ log', PackDecodeCursor.resume B src collect c log =
        (.error err, c', log') ∧
      Reached B full limits fs es past' (e :: todo') ds' c₁ log' ∧
      (isDeltaBaseMissing err = true → c' = c₁) ∧
      Fails B full src limits fs past' e (ds'.map Prod.snd) c₁ err) := by
  rw [h.resume_eq]
  have h' : Reached B full limits fs es past (todo ++ []) ds c log := by
    rw [List.append_nil]
    exact h
  rcases h'.loop hsrc with ⟨ds', c', log', hloop, hr⟩ | ⟨err, c', past', e, todo', ds', c₁, log',
    hloop, hr, hmissing, hfail⟩
  · rw [← h.inv.es_eq] at hr
    obtain rfl := hr.log_eq
    refine .inl ⟨ds', c', ?_, hr⟩
    rw [hloop]
    dsimp only
    rw [hr.inv.report_eq]
  · refine .inr ⟨err, c', past', e, todo', ds', c₁, log', ?_, hr, hmissing, hfail⟩
    rw [hloop]

/-- The same for a fresh cursor. -/
theorem reached_start (full : DeltaBaseSource) (limits : DecodeLimits) (hfs : fs.length = es.length)
    (hlen : fs.length ≤ MAX_ENTRIES) :
    Reached B full limits fs es [] es [] (PackDecodeCursor.start limits fs es) [] where
  inv := inv_start B full limits hfs hlen
  decoded := rfl
  log_eq := by rw [delivered, List.zipWith_nil_right]

/-- A source is within itself. -/
theorem DeltaBaseSource.Within.rfl (src : DeltaBaseSource) : src.Within B src :=
  fun _ _ h => h

/-- A source without objects is within every source. -/
theorem within_noExternalBases (full : DeltaBaseSource) : NoExternalBases.Within B full := by
  intro id bytes h
  rw [DeltaBaseSource.provides, NoExternalBases] at h
  cases h

/-- What the sink has received, as objects. -/
theorem map_delivered (hfs : fs.length = es.length) (hds : ds.length ≤ es.length) :
    (delivered limits fs es ds).map (fun x => (x.id, x.bytes)) = ds.map Prod.snd := by
  have hframes : ds.length ≤ (cursorFrames limits HEADER_LEN fs es).length := by
    have := congrArg List.length (@map_entry_cursorFrames limits HEADER_LEN fs es hfs.symm)
    rw [List.length_map] at this
    omega
  rw [delivered, List.map_zipWith]
  generalize cursorFrames limits HEADER_LEN fs es = frames at hframes
  clear hds hfs
  induction ds generalizing frames with
  | nil => simp
  | cons d ds ih =>
    cases frames with
    | nil => simp at hframes
    | cons frame frames =>
      rw [List.zipWith_cons_cons, List.map_cons, ih _ (by simpa using hframes)]
      rfl

/-- Fewer objects delivered are a first part of more. -/
theorem delivered_append (ds ds' : List (Object × Hash × Bytes)) :
    delivered limits fs es ds = (delivered limits fs es (ds ++ ds')).take ds.length := by
  rw [delivered, delivered]
  generalize cursorFrames limits HEADER_LEN fs es = frames
  induction ds generalizing frames with
  | nil => simp
  | cons d ds ih =>
    cases frames with
    | nil => simp
    | cons frame frames => simpa using ih frames

/-! ### Attempts -/

/-- The cursors, and what the sink has received, after some attempts that each stopped at a
missing base. Every source provides only what `full` provides. -/
inductive Stopped (B : Blake3) (full : DeltaBaseSource) (c₀ : PackDecodeCursor) :
    PackDecodeCursor → List DecodedEntry → Prop
  | fresh : Stopped B full c₀ c₀ []
  | attempt {c c' : PackDecodeCursor} {log log' : List DecodedEntry} {src : DeltaBaseSource}
      {base : Bytes} (h : Stopped B full c₀ c log) (hsrc : src.Within B full)
      (hr : PackDecodeCursor.resume B src collect c log =
        (.error (.deltaBaseMissing base), c', log')) : Stopped B full c₀ c' log'

/-- An attempt that stops leaves the cursor at a place of the decode. -/
theorem Reached.of_stop {c' : PackDecodeCursor} {base : Bytes}
    (h : Reached B full limits fs es past todo ds c log) (hsrc : src.Within B full)
    (hr : PackDecodeCursor.resume B src collect c log =
      (.error (.deltaBaseMissing base), c', log')) :
    ∃ past' e todo' ds', Reached B full limits fs es past' (e :: todo') ds' c' log' ∧
      Fails B full src limits fs past' e (ds'.map Prod.snd) c' (.deltaBaseMissing base) := by
  rcases h.resume hsrc with ⟨ds', c₁, hres, -⟩ | ⟨err, c₁, past', e, todo', ds', c₂, log₁, hres, hreach,
    hmissing, hfail⟩
  · rw [hr] at hres
    cases hres
  · rw [hr] at hres
    cases hres
    obtain rfl := hmissing rfl
    exact ⟨past', e, todo', ds', hreach, hfail⟩

theorem Stopped.reached {c₀ : PackDecodeCursor} (h : Stopped B full c₀ c log)
    (h₀ : Reached B full limits fs es [] es [] c₀ []) :
    ∃ past todo ds, Reached B full limits fs es past todo ds c log := by
  induction h with
  | fresh => exact ⟨[], es, [], h₀⟩
  | attempt _ hsrc hr ih =>
    obtain ⟨past, todo, ds, hreach⟩ := ih
    obtain ⟨past', e, todo', ds', hreach', -⟩ := hreach.of_stop hsrc hr
    exact ⟨past', e :: todo', ds', hreach'⟩

variable {report : DecodeReport}

/-- **From any place of a decode that succeeds, the rest of it is the rest of that decode.** -/
theorem Reached.resume_full {c₀ cf : PackDecodeCursor}
    {log_f : List DecodedEntry} (h : Reached B full limits fs es past todo ds c log)
    (h₀ : Reached B full limits fs es [] es [] c₀ [])
    (hfull : PackDecodeCursor.resume B full collect c₀ [] = (.ok report, cf, log_f)) :
    PackDecodeCursor.resume B full collect c log = (.ok report, cf, log_f) := by
  rw [h₀.resume_eq, h.inv.es_eq, List.length_append, resumeLoop_add] at hfull
  rw [h.resume_eq]
  have h₁ : Reached B full limits fs es [] (past ++ todo) [] c₀ [] := by
    rw [← h.inv.es_eq]
    exact h₀
  rcases h₁.loop (.rfl full) with ⟨ds', c', log', hloop, hr⟩ | ⟨err, c', _, _, _, _, _, log', hloop, -⟩
  · obtain ⟨-, rfl, rfl⟩ := h.unique hr
    rw [hloop] at hfull
    exact hfull
  · rw [hloop] at hfull
    cases hfull

/-! ### What a stopped cursor has charged -/

/-- The charge is the claims of the whole pack and the external bases in memory. -/
theorem Inv.used_eq_held (h : Inv B full limits fs es past todo made c) :
    c.budget.used = (claims fs es).sum +
      ∑ b ∈ heldBases past todo made, full.baseLen B b := by
  have hkeys : c.charged.keys = heldBases past todo made := by
    ext b
    rw [Finmap.mem_keys, ← Finmap.lookup_isSome, h.holding.charged_eq, heldBases,
      Finset.mem_filter, List.mem_toFinset]
    split_ifs with hb <;> simp [hb]
  rw [h.holding.used_eq, total_eq_sum, hkeys]
  congr 1
  refine Finset.sum_congr rfl fun b hb => ?_
  rw [heldBases, Finset.mem_filter, List.mem_toFinset] at hb
  rw [h.holding.charged_eq, if_pos hb, Option.getD_some]

/-- The base in front of which an attempt stopped is not charged. -/
theorem Reached.uncharged_of_stop
    {base : Bytes} (h : Reached B full limits fs es past (e :: todo) ds' c log')
    (hfail : Fails B full src limits fs past e (ds'.map Prod.snd) c (.deltaBaseMissing base)) :
    ∃ frame id, c.entries[c.next]? = some (some frame) ∧ frame.delta_base = some id ∧
      c.charged.lookup id = none := by
  have hlen : fs.length = (past ++ e :: todo).length := by rw [h.inv.length_fs, h.inv.es_eq]
  obtain ⟨f, frame, hf, hframe, -, hbase, -⟩ :=
    @getElem?_cursorFrames limits fs past todo e HEADER_LEN hlen
  rw [← h.inv.es_eq] at hframe
  have hkept : c.entries[c.next]? = some (some frame) := by
    rw [h.inv.next_eq, h.inv.holding.entries_eq _ le_rfl, hframe]
    rfl
  rcases hfail with ⟨f, -, hcap⟩ | hfail
  · cases capOf_not_missing hcap
  · cases hfail with
    | plain _ hm => cases hm
    | @source _ id he _ hin _ =>
      refine ⟨frame, id, hkept, hbase.trans he, ?_⟩
      have hmem : id ∈ basesOf (e :: todo) := by
        rw [basesOf, List.filterMap_cons_some he]
        exact List.mem_cons_self
      have hout := mt (h.inv.holding.mem_in_pack id hmem).2 (Finmap.lookup_eq_none.1 hin)
      rw [h.inv.holding.charged_eq, if_neg fun hb => hout (.inr hb.1)]

/-- **A decode that is stopped at missing bases, any number of times, delivers what one
uninterrupted decode delivers.** After every stop the sink has a first part of the entries, the
charge is the claims of the pack and the external bases in memory, and nothing is charged for
the base that was missing. -/
theorem resume_of_stopped (Z : Zstd) {pack : Bytes} {c₀ cf : PackDecodeCursor}
    {report : DecodeReport} {log_f : List DecodedEntry}
    (hnew : PackDecodeCursor.new Z B pack limits = .ok c₀)
    (hfull : PackDecodeCursor.resume B full collect c₀ [] = (.ok report, cf, log_f))
    (hstop : Stopped B full c₀ c log) :
    (∃ version fs es ds, LegalPack version MAX_TOTAL_PAYLOAD fs ∧
      pack = packBytes B version fs ∧ Decodes Z version fs es ∧
      decodeAll B full [] es = .ok ds ∧ log_f = delivered limits fs es ds ∧
      log_f.length = es.length ∧
      c.budget.used = (claims fs es).sum + ∑ b ∈ heldBases (es.take c.next) (es.drop c.next)
        (log.map fun x => (x.id, x.bytes)), full.baseLen B b) ∧
    log = log_f.take c.next ∧ log.length = c.next ∧
    (∀ src base c' log', src.Within B full →
      PackDecodeCursor.resume B src collect c log = (.error (.deltaBaseMissing base), c', log') →
      ∃ frame id, c'.entries[c'.next]? = some (some frame) ∧ frame.delta_base = some id ∧
        c'.charged.lookup id = none) ∧
    (∀ src report' c' log', src.Within B full →
      PackDecodeCursor.resume B src collect c log = (.ok report', c', log') →
      report' = report ∧ log' = log_f) ∧
    PackDecodeCursor.resume B full collect c log = (.ok report, cf, log_f) := by
  obtain ⟨version, fs, es, hlegal, hpack, hes, -, rfl⟩ := (new_eq_ok_iff Z B).1 hnew
  have hlen : fs.length = es.length := hes.length_eq
  have h₀ : Reached B full limits fs es [] es [] (PackDecodeCursor.start limits fs es) [] :=
    reached_start full limits hlen hlegal.length_le
  obtain ⟨past, todo, ds, h⟩ := hstop.reached h₀
  -- the uninterrupted decode, and its end
  rcases h₀.resume (.rfl full) with ⟨ds_f, c_f, hres, hend⟩ | ⟨err, _, _, _, _, _, _, _, hres, -⟩
  swap
  · rw [hfull] at hres
    cases hres
  rw [hfull, Prod.mk.injEq, Prod.mk.injEq] at hres
  obtain ⟨hreport, -, hlog_f⟩ := hres
  have hdecoded := hend.decoded
  rw [h.inv.es_eq, decodeAll_append, h.decoded] at hdecoded
  change (decodeAll B full (ds.map Prod.snd) todo >>= _) = _ at hdecoded
  rw [Wire.bind_eq_ok] at hdecoded
  obtain ⟨rest, -, hds⟩ := hdecoded
  have hds : ds ++ rest = ds_f := Except.ok.inj hds
  have hdslen : ds.length = c.next := by
    rw [h.inv.next_eq]
    exact length_of_decodeAll h.decoded
  have hnext : c.next ≤ es.length := by
    rw [h.inv.next_eq, h.inv.es_eq, List.length_append]
    omega
  have hpast : es.take c.next = past ∧ es.drop c.next = todo := by
    rw [h.inv.next_eq, h.inv.es_eq, List.take_left, List.drop_left]
    exact ⟨rfl, rfl⟩
  have hmade : log.map (fun x => (x.id, x.bytes)) = ds.map Prod.snd := by
    rw [h.log_eq]
    exact map_delivered hlen (by omega)
  have hlength : ∀ ds', ds'.length ≤ es.length →
      (delivered limits fs es ds').length = ds'.length := by
    intro ds' hle
    have := congrArg List.length (@map_delivered limits fs es ds' hlen hle)
    rwa [List.length_map, List.length_map] at this
  have hfulllen : ds_f.length = es.length := length_of_decodeAll hend.decoded
  refine ⟨⟨version, fs, es, ds_f, hlegal, hpack, hes, hend.decoded, hlog_f, ?_, ?_⟩, ?_, ?_,
    ?_, ?_, h.resume_full h₀ hfull⟩
  · rw [hlog_f, hlength ds_f hfulllen.le, hfulllen]
  · rw [hpast.1, hpast.2, hmade]
    exact h.inv.used_eq_held
  · rw [hlog_f, h.log_eq, ← hds, ← hdslen]
    exact delivered_append ds rest
  · rw [h.log_eq, hlength ds (by omega), hdslen]
  · intro src base c' log' hsrc hr
    obtain ⟨past', e, todo', ds', hreach, hfail⟩ := h.of_stop hsrc hr
    exact hreach.uncharged_of_stop hfail
  · intro src report' c' log' hsrc hr
    rcases h.resume hsrc with ⟨ds', c₁, hres, hend'⟩ | ⟨err, _, _, _, _, _, _, _, hres, -⟩
    · rw [hr, Prod.mk.injEq, Prod.mk.injEq] at hres
      obtain ⟨hreport', -, hlog'⟩ := hres
      obtain rfl : ds' = ds_f := Except.ok.inj (hend'.decoded.symm.trans hend.decoded)
      exact ⟨(Except.ok.inj hreport').trans (Except.ok.inj hreport).symm, hlog'.trans hlog_f.symm⟩
    · rw [hr] at hres
      cases hres

/-! ### When a decode succeeds -/

/-- The lengths of all external bases that a decode to the objects `made` needs. -/
def externalBytes (B : Blake3) (src : DeltaBaseSource) (es : List PackEntry)
    (made : List (Hash × Bytes)) : ℕ :=
  ∑ b ∈ (fetchedFrom [] es made).toFinset, src.baseLen B b

variable {ds_f : List (Object × Hash × Bytes)}

/-- In a sequence that the plain reading decodes, every entry decodes. -/
theorem decodeOne_of_decodeAll
    (hall : decodeAll B src [] es = .ok ds_f) (hes : es = past ++ e :: todo)
    (hpast : decodeAll B src [] past = .ok ds) :
    ∃ d rest, decodeOne B src (ds.map Prod.snd) e = .ok d ∧ ds_f = ds ++ d :: rest := by
  rw [hes, decodeAll_append, hpast] at hall
  change (decodeAll B src (ds.map Prod.snd) (e :: todo) >>= _) = _ at hall
  rw [Wire.bind_eq_ok] at hall
  obtain ⟨tail, htail, hall⟩ := hall
  rw [decodeAll, Wire.bind_eq_ok] at htail
  obtain ⟨d, hd, htail⟩ := htail
  rw [Wire.bind_eq_ok] at htail
  obtain ⟨rest, -, htail⟩ := htail
  obtain rfl := Except.ok.inj htail
  exact ⟨d, rest, hd, (Except.ok.inj hall).symm⟩

/-- The length a source admits for a base it provides. -/
theorem admits_of_provides {id : Hash} {v : Bytes} (h : src.provides B id = .ok v) :
    src.admits id = some v.length := by
  rw [DeltaBaseSource.provides] at h
  rw [DeltaBaseSource.admits]
  split at h
  · cases h
  · cases h
  · rename_i bytes hf
    rw [hf]
    split at h
    · cases h
    · rw [Except.ok.inj h]
    · cases h

/-- A base that is fetched fits next to the claims and the other external bases. -/
theorem Reached.fits {base : Hash} (h : Reached B src limits fs es past (e :: todo) ds c log)
    (hall : decodeAll B src [] es = .ok ds_f)
    (hfit : (claims fs es).sum + externalBytes B src es (ds_f.map Prod.snd) ≤
      limits.max_decoded_bytes)
    (he : e.base? = some base) (hl : latest (ds.map Prod.snd) base = none)
    (hin : c.in_pack.lookup base = none) : ¬ Exceeds c (src.baseLen B base) := by
  obtain ⟨d, rest, -, rfl⟩ := decodeOne_of_decodeAll hall h.inv.es_eq h.decoded
  have hmade : (ds.map Prod.snd).length = past.length := h.inv.length_made
  have hmem : base ∈ basesOf (e :: todo) := by
    rw [basesOf, List.filterMap_cons_some he]
    exact List.mem_cons_self
  have hout := mt (h.inv.holding.mem_in_pack base hmem).2 (Finmap.lookup_eq_none.1 hin)
  -- the bases in memory and this one are among those the decode needs
  have hsub : insert base (heldBases past (e :: todo) (ds.map Prod.snd)) ⊆
      (fetchedFrom [] es ((ds ++ d :: rest).map Prod.snd)).toFinset := by
    rw [h.inv.es_eq, List.map_append, fetchedFrom_append hmade, List.toFinset_append,
      List.map_cons, fetchedFrom, he]
    intro b hb
    rw [Finset.mem_insert] at hb
    rw [Finset.mem_union]
    rcases hb with rfl | hb
    · right
      rw [List.toFinset_append, Finset.mem_union]
      left
      simp [Option.filter, hl]
    · left
      exact (Finset.mem_filter.1 hb).1
  have hnew : base ∉ heldBases past (e :: todo) (ds.map Prod.snd) := by
    intro hb
    rw [heldBases, Finset.mem_filter, List.mem_toFinset] at hb
    exact hout (.inr hb.1)
  have hsum := Finset.sum_le_sum_of_subset (f := src.baseLen B) hsub
  rw [Finset.sum_insert hnew] at hsum
  have hused := h.inv.used_eq_held
  have hmax := h.inv.holding.max_eq
  rw [externalBytes] at hfit
  rw [Exceeds, hmax, hused]
  omega

/-- Of entries that the plain reading decodes, a step fails at a cap or at the budget only. -/
theorem Reached.fails_cases (h : Reached B src limits fs es past (e :: todo) ds c log)
    (hall : decodeAll B src [] es = .ok ds_f)
    (hfail : Fails B src src limits fs past e (ds.map Prod.snd) c err) :
    (∃ f ∈ fs, limits.capOf f = some err) ∨
    (err = .packfileTooLarge ∧ ∃ base, e.base? = some base ∧
      latest (ds.map Prod.snd) base = none ∧ c.in_pack.lookup base = none ∧
      Exceeds c (src.baseLen B base)) := by
  obtain ⟨d, rest, hone, -⟩ := decodeOne_of_decodeAll hall h.inv.es_eq h.decoded
  -- a base that is not provided would have failed the plain reading
  have hprov : ∀ base, e.base? = some base → latest (ds.map Prod.snd) base = none →
      ∃ v, src.provides B base = .ok v := by
    intro base he hl
    cases e with
    | raw bytes => cases he
    | delta base' stream =>
      obtain rfl := Option.some.inj he
      rw [decodeOne, Wire.bind_eq_ok] at hone
      obtain ⟨v, hv, -⟩ := hone
      rw [baseOf, hl] at hv
      exact ⟨v, hv⟩
  rcases hfail with ⟨f, hf, hcap⟩ | hfail
  · exact .inl ⟨f, List.mem_of_getElem? hf, hcap⟩
  · cases hfail with
    | plain hplain _ =>
      rw [hone] at hplain
      cases hplain
    | source he hl _ hp =>
      obtain ⟨v, hv⟩ := hprov _ he hl
      rw [hv] at hp
      cases hp
    | budget he hl hin ha hb =>
      obtain ⟨v, hv⟩ := hprov _ he hl
      rw [admits_of_provides hv] at ha
      obtain rfl := Option.some.inj ha
      rw [← baseLen_eq B hv] at hb
      exact .inr ⟨rfl, _, he, hl, hin, hb⟩

/-- **Of entries that the plain reading decodes, a decode delivers exactly the objects, or a cap
or the budget refuses it.** -/
theorem resume_start_cases {ds : List (Object × Hash × Bytes)} (hlen : fs.length = es.length)
    (hmax : fs.length ≤ MAX_ENTRIES) (hall : decodeAll B src [] es = .ok ds) :
    (∃ c, PackDecodeCursor.resume B src collect (PackDecodeCursor.start limits fs es) [] =
      (.ok (reportOf es (ds.map Prod.snd)), c, delivered limits fs es ds)) ∨
    (∃ err c log, PackDecodeCursor.resume B src collect (PackDecodeCursor.start limits fs es) [] =
        (.error err, c, log) ∧
      ((∃ f ∈ fs, limits.capOf f = some err) ∨ err = .packfileTooLarge ∧
        limits.max_decoded_bytes <
          (claims fs es).sum + externalBytes B src es (ds.map Prod.snd))) := by
  have h₀ : Reached B src limits fs es [] es [] (PackDecodeCursor.start limits fs es) [] :=
    reached_start src limits hlen hmax
  rcases h₀.resume (.rfl src) with ⟨ds', c, hres, hend⟩ | ⟨err, c', past, e, todo, ds', c, log, hres,
    h, -, hfail⟩
  · obtain rfl : ds' = ds := Except.ok.inj (hend.decoded.symm.trans hall)
    exact .inl ⟨_, hres⟩
  · refine .inr ⟨err, c', log, hres, ?_⟩
    rcases h.fails_cases hall hfail with hcap | ⟨rfl, base, he, hl, hin, hb⟩
    · exact .inl hcap
    · refine .inr ⟨rfl, ?_⟩
      by_contra hfit
      exact h.fits hall (by omega) he hl hin hb

/-- The same for a whole pack. -/
theorem decodeEntriesWith_cases (Z : Zstd) {version : ℕ}
    (hlegal : LegalPack version MAX_TOTAL_PAYLOAD fs) (hes : Decodes Z version fs es)
    (hall : decodeAll B src [] es = .ok ds) (limits : DecodeLimits) :
    decodeEntriesWith Z B (packBytes B version fs) src limits collect [] =
      (.ok (reportOf es (ds.map Prod.snd)), delivered limits fs es ds) ∨
    ∃ err log, decodeEntriesWith Z B (packBytes B version fs) src limits collect [] =
        (.error err, log) ∧
      ((∃ f ∈ fs, limits.capOf f = some err) ∨ err = .packfileTooLarge ∧
        limits.max_decoded_bytes <
          (claims fs es).sum + externalBytes B src es (ds.map Prod.snd)) := by
  have hlen : fs.length = es.length := hes.length_eq
  rw [decodeEntriesWith]
  by_cases hmax : (claims fs es).sum ≤ limits.max_decoded_bytes
  · rw [(new_packBytes_eq_ok_iff Z B hlegal).2 ⟨es, hes, hmax, rfl⟩]
    dsimp only
    rcases @resume_start_cases B src limits fs es ds hlen hlegal.length_le hall with
      ⟨c, hres⟩ | ⟨err, c, log, hres, hwhy⟩
    · rw [hres]
      exact .inl rfl
    · rw [hres]
      exact .inr ⟨err, log, rfl, hwhy⟩
  · cases hnew : PackDecodeCursor.new Z B (packBytes B version fs) limits with
    | ok c =>
      obtain ⟨es', hes', hmax', -⟩ := (new_packBytes_eq_ok_iff Z B hlegal).1 hnew
      rw [hes.unique hes'] at hmax
      exact absurd hmax' hmax
    | error err =>
      obtain rfl := new_packBytes_eq_error Z B hlegal hes hnew
      refine .inr ⟨_, [], rfl, .inr ⟨rfl, ?_⟩⟩
      omega

/-- The bases of what the sink has received. -/
theorem map_delta_base_delivered (hfs : fs.length = es.length) (hds : ds.length = es.length) :
    (delivered limits fs es ds).map DecodedEntry.delta_base = es.map PackEntry.base? := by
  rw [delivered]
  generalize HEADER_LEN = offset
  induction fs generalizing es ds offset with
  | nil =>
    obtain rfl : es = [] := List.length_eq_zero_iff.1 hfs.symm
    rfl
  | cons f fs ih =>
    obtain ⟨e, es, rfl⟩ := List.exists_cons_of_length_eq_add_one hfs.symm
    obtain ⟨d, ds, rfl⟩ := List.exists_cons_of_length_eq_add_one hds
    rw [cursorFrames, List.zipWith_cons_cons, List.map_cons, List.map_cons,
      ih (Nat.succ.inj hfs) (Nat.succ.inj hds)]
    rfl

/-! ### Other sinks -/

/-- A blob of three zeros as a delta against itself. -/
def selfDelta : Bytes := DeltaStream.writeHeader 13 13 ++ DeltaStream.emitCopy 0 13

/-- A source that has one object. -/
def oneBase (id : Hash) (bytes : Bytes) : DeltaBaseSource :=
  { VERIFIED := false, fetch := fun h => if h = id then .found bytes else .absent }

/-- The frame of a delta whose base is not in its pack. -/
def thinFrame : Frame := ⟨0x02, (toyBlake3.hash (zeroBlob 3)).bytes ++ selfDelta⟩

def thinEntry : PackEntry := .delta (toyBlake3.hash (zeroBlob 3)) selfDelta

theorem new_thin (Z : Zstd) :
    LegalPack VERSION MAX_TOTAL_PAYLOAD [thinFrame] ∧ Decodes Z VERSION [thinFrame] [thinEntry] ∧
    PackDecodeCursor.new Z toyBlake3 (packBytes toyBlake3 VERSION [thinFrame]) .default =
      .ok (PackDecodeCursor.start .default [thinFrame] [thinEntry]) := by
  have hlegal : LegalPack VERSION MAX_TOTAL_PAYLOAD [thinFrame] :=
    { version_eq := .inl rfl
      length_le := by decide
      legal := by
        intro f hf
        obtain rfl := List.mem_singleton.1 hf
        exact ⟨by decide +kernel, by decide +kernel⟩
      payload_le := by decide +kernel }
  have hdecodes : Decodes Z VERSION [thinFrame] [thinEntry] := .cons rfl .nil
  exact ⟨hlegal, hdecodes, (new_packBytes_eq_ok_iff Z toyBlake3 hlegal).2
    ⟨_, hdecodes, by decide +kernel, rfl⟩⟩

theorem resume_thin_missing : ∃ c, PackDecodeCursor.resume toyBlake3 NoExternalBases collect
      (PackDecodeCursor.start .default [thinFrame] [thinEntry]) [] =
        (.error (.deltaBaseMissing (toHex (toyBlake3.hash (zeroBlob 3)))), c, []) ∧
      c.budget.used = 13 ∧ total c.charged = 0 :=
  ⟨_, rfl, by decide +kernel, rfl⟩

/-- **The charge runs ahead of what is delivered**: opening a cursor charges what all deltas of
its pack declare, also those that are still to come. -/
theorem charge_ahead_of_delivery :
    ¬ ∀ (Z : Zstd) (B : Blake3) (limits : DecodeLimits) (version : ℕ) (fs : List Frame)
        (es : List PackEntry) (c₀ c : PackDecodeCursor) (src : DeltaBaseSource) (base : Bytes)
        (log : List DecodedEntry), LegalPack version MAX_TOTAL_PAYLOAD fs → Decodes Z version fs es →
      PackDecodeCursor.new Z B (packBytes B version fs) limits = .ok c₀ →
      PackDecodeCursor.resume B src collect c₀ [] = (.error (.deltaBaseMissing base), c, log) →
      c.budget.used = (fs.filterMap fun f => compressedClaim f.etype f.payload).sum +
        ((es.take log.length).filterMap PackEntry.deltaClaim?).sum + total c.charged := by
  intro h
  obtain ⟨hlegal, hdecodes, hnew⟩ := new_thin .unavailable
  obtain ⟨c, hres, hused, htotal⟩ := resume_thin_missing
  have := h .unavailable toyBlake3 .default VERSION [thinFrame] [thinEntry] _ c NoExternalBases _
    [] hlegal hdecodes hnew hres
  rw [hused, htotal] at this
  exact absurd this (by decide +kernel)

/-- A decode that stops once in front of its only entry, and then goes on. -/
theorem resume_of_stopped_once : ∃ c₀ c cf report log_f,
      PackDecodeCursor.new .unavailable toyBlake3 (packBytes toyBlake3 VERSION [thinFrame])
        .default = .ok c₀ ∧
      PackDecodeCursor.resume toyBlake3 (oneBase (toyBlake3.hash (zeroBlob 3)) (zeroBlob 3)) collect
        c₀ [] = (.ok report, cf, log_f) ∧
      Stopped toyBlake3 (oneBase (toyBlake3.hash (zeroBlob 3)) (zeroBlob 3)) c₀ c [] ∧
      c.next = 0 ∧
      PackDecodeCursor.resume toyBlake3 (oneBase (toyBlake3.hash (zeroBlob 3)) (zeroBlob 3)) collect
        c [] = (.ok report, cf, log_f) := by
  obtain ⟨hlegal, hdecodes, hnew⟩ := new_thin .unavailable
  obtain ⟨c, hres, -, -⟩ := resume_thin_missing
  have hid : identify toyBlake3 (zeroBlob 3) = _ := identify_zeroBlob (by decide)
  have hprovides : (oneBase (toyBlake3.hash (zeroBlob 3)) (zeroBlob 3)).provides toyBlake3
      (toyBlake3.hash (zeroBlob 3)) = .ok (zeroBlob 3) := by
    simp only [DeltaBaseSource.provides, oneBase, if_true, externalBaseMatches,
      Bool.false_eq_true, if_false, hid, decide_true]
  have hall : decodeAll toyBlake3 (oneBase (toyBlake3.hash (zeroBlob 3)) (zeroBlob 3)) []
      [thinEntry] =
        .ok [(.blob ⟨List.replicate 3 0⟩, toyBlake3.hash (zeroBlob 3), zeroBlob 3)] := by
    have hone : decodeOne toyBlake3 (oneBase (toyBlake3.hash (zeroBlob 3)) (zeroBlob 3)) []
        thinEntry = .ok (.blob ⟨List.replicate 3 0⟩, toyBlake3.hash (zeroBlob 3), zeroBlob 3) := by
      rw [thinEntry, decodeOne, baseOf]
      change (DeltaBaseSource.provides toyBlake3 _ _ >>= _) = _
      rw [hprovides]
      have hdecode : DeltaStream.decode (zeroBlob 3) selfDelta = .ok (zeroBlob 3) := rfl
      exact rebuild_of_decode hdecode hid
    rw [decodeAll, hone]
    rfl
  have hbudget : (claims [thinFrame] [thinEntry]).sum + externalBytes toyBlake3
      (oneBase (toyBlake3.hash (zeroBlob 3)) (zeroBlob 3)) [thinEntry]
      [(toyBlake3.hash (zeroBlob 3), zeroBlob 3)] ≤ DecodeLimits.default.max_decoded_bytes := by
    decide +kernel
  have hlen : [thinFrame].length = [thinEntry].length := rfl
  rcases resume_start_cases hlen (by decide) hall with ⟨cf, hfull⟩ | ⟨err, _, _, -, hwhy⟩
  · have hstop : Stopped toyBlake3 (oneBase (toyBlake3.hash (zeroBlob 3)) (zeroBlob 3)) _ c [] :=
      .attempt .fresh (within_noExternalBases _) hres
    obtain ⟨-, -, hnext, -, -, hlast⟩ := resume_of_stopped .unavailable hnew hfull hstop
    exact ⟨_, c, cf, _, _, hnew, hfull, hstop, hnext.symm, hlast⟩
  · exfalso
    rcases hwhy with ⟨f, -, hcap⟩ | ⟨-, hover⟩
    · cases hcap
    · exact absurd hbudget (Nat.not_le.2 hover)

end Mkit.Pack
