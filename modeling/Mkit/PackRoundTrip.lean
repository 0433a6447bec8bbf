import Mkit.PackResume

/-!
# Written Packs Are Read Back

What is pushed into a writer comes out of the decoder: the same objects, in the same order.
The writer decides entry by entry what it compresses and patches version and count into the
header at the end; the decoder starts over from the bytes.

A decode has limits of its own. They bound what it allocates, not what a writer may write, so
a pack can be too large for them; then the decode fails with `packfileTooLarge` and never with
anything else (`decode_finish`).
-/

namespace Mkit.Pack

open Wire Effect Tally

variable {Z : Zstd} {B : Blake3}

/-! ### What a sequence of pushes stands for -/

/-- The objects behind a sequence of pushes, after the objects `made`. A raw push carries a
storable object under its own id; a delta rebuilds a storable object from a base that is made
before it or provided by the source. -/
inductive Objects (B : Blake3) (src : DeltaBaseSource) :
    List (Hash × Bytes) → List Push → List (Hash × Bytes) → Prop
  | nil {made : List (Hash × Bytes)} : Objects B src made [] []
  | raw {made objs : List (Hash × Bytes)} {ps : List Push} {id : Hash} {bytes : Bytes} {o : Object}
      (h : identify B bytes = .ok (o, id)) (hrest : Objects B src (made ++ [(id, bytes)]) ps objs) :
      Objects B src made (.raw id bytes :: ps) ((id, bytes) :: objs)
  | delta {made objs : List (Hash × Bytes)} {ps : List Push} {base id : Hash}
      {stream v bytes : Bytes} {o : Object} (hbase : baseOf B src made base = .ok v)
      (hdecode : DeltaStream.decode v stream = .ok bytes) (h : identify B bytes = .ok (o, id))
      (hrest : Objects B src (made ++ [(id, bytes)]) ps objs) :
      Objects B src made (.delta base stream :: ps) ((id, bytes) :: objs)

variable {src : DeltaBaseSource} {objs : List (Hash × Bytes)} {ps : List Push}

/-- The plain reading of what was pushed gives the objects. -/
theorem Objects.decodeAll {made : List (Hash × Bytes)} (h : Objects B src made ps objs) :
    ∃ ds, Pack.decodeAll B src made (ps.map Push.entry) = .ok ds ∧ ds.map Prod.snd = objs := by
  induction h with
  | nil => exact ⟨[], rfl, rfl⟩
  | @raw made objs ps id bytes o hid _ ih =>
    obtain ⟨ds, hds, hmap⟩ := ih
    refine ⟨(o, id, bytes) :: ds, ?_, by rw [List.map_cons, hmap]⟩
    rw [List.map_cons, Pack.decodeAll, Push.entry, decodeOne, hid]
    change (Pack.decodeAll B src (made ++ [(id, bytes)]) (ps.map Push.entry) >>= _) = _
    rw [hds]
    rfl
  | @delta made objs ps base id stream v bytes o hbase hdecode hid _ ih =>
    obtain ⟨ds, hds, hmap⟩ := ih
    refine ⟨(o, id, bytes) :: ds, ?_, by rw [List.map_cons, hmap]⟩
    have hone : decodeOne B src made (.delta base stream) = .ok (o, id, bytes) := by
      rw [decodeOne, hbase]
      exact rebuild_of_decode hdecode hid
    rw [List.map_cons, Pack.decodeAll, Push.entry, hone]
    change (Pack.decodeAll B src (made ++ [(id, bytes)]) (ps.map Push.entry) >>= _) = _
    rw [hds]
    rfl

/-! ### The round trip -/

variable {f : Frame} {e : PackEntry}

/-- A compressed delta that can be decompressed carries its base and a length. -/
theorem exists_claim_of_decodes {version : ℕ} (hkind : f.etype = 0x04)
    (he : (f.entry version >>= decodeEncodedPayload Z) = .ok e) :
    ¬ f.payload.length < HASH_LEN ∧ ∃ x, zstdClaim (f.payload.drop HASH_LEN) = .ok x := by
  rw [Wire.bind_eq_ok] at he
  obtain ⟨entry, hentry, hdecode⟩ := he
  rw [Frame.entry, encodedPayload, hkind, if_neg (by decide), if_neg (by simp)] at hentry
  split_ifs at hentry with hor hshort htwo
  · exact absurd htwo (by decide)
  · refine ⟨hshort, ?_⟩
    obtain rfl := Except.ok.inj hentry
    change (decompressZstdEntry Z (f.payload.drop HASH_LEN) >>= _) = _ at hdecode
    rw [Wire.bind_eq_ok] at hdecode
    obtain ⟨bytes, hbytes, -⟩ := hdecode
    rw [decompressZstdEntry, Wire.bind_eq_ok] at hbytes
    obtain ⟨x, hx, -⟩ := hbytes
    exact ⟨x, hx⟩

/-- An entry that can be decompressed breaks a cap only by its size. -/
theorem capOf_of_decodes {limits : DecodeLimits} {version : ℕ}
    {err : PackError} (he : (f.entry version >>= decodeEncodedPayload Z) = .ok e)
    (h : limits.capOf f = some err) : err = .packfileTooLarge := by
  have hcheck := checkFrame_of_capOf h
  rw [DecodeLimits.checkFrame] at hcheck
  split at hcheck
  · cases hcheck
  · split_ifs at hcheck with hsize hkind hshort
    · exact (Except.error.inj hcheck).symm
    · exact absurd hshort (exists_claim_of_decodes hkind he).1
    · obtain ⟨x, hx⟩ := (exists_claim_of_decodes hkind he).2
      rw [show (32 : ℕ) = HASH_LEN from rfl, hx] at hcheck
      dsimp only at hcheck
      split_ifs at hcheck
      exact (Except.error.inj hcheck).symm

variable {fs : List Frame}

theorem exists_entry_of_decodes {version : ℕ} {es : List PackEntry}
    (h : Decodes Z version fs es) (hf : f ∈ fs) :
    ∃ e, (f.entry version >>= decodeEncodedPayload Z) = .ok e := by
  obtain ⟨i, hi, rfl⟩ := List.mem_iff_getElem.1 hf
  exact ⟨_, List.Forall₂.get h hi (h.length_eq ▸ hi)⟩

/-- The frames of a sequence of pushes are read back as what was pushed. -/
theorem decodes_frames (hZ : Z.Lossless) (raw_only : Bool) (ps : List Push) :
    Decodes Z (versionOf (ps.map (Push.frame Z raw_only))) (ps.map (Push.frame Z raw_only))
      (ps.map Push.entry) := by
  have hversion : ∀ p ∈ ps, (p.frame Z raw_only).Compressed →
      versionOf (ps.map (Push.frame Z raw_only)) = VERSION_V2 := by
    intro p hp hc
    rw [versionOf, if_pos ⟨_, List.mem_map_of_mem hp, hc⟩]
  generalize versionOf (ps.map (Push.frame Z raw_only)) = version at hversion
  rw [Decodes, List.forall₂_map_left_iff, List.forall₂_map_right_iff]
  refine List.forall₂_same.2 fun p hp => ?_
  exact p.decode_frame hZ raw_only (hversion p hp)

/-- The writer a caller starts with. -/
def PackWriter.fresh (raw_only : Bool) : PackWriter :=
  if raw_only then .newRawOnly else .new

theorem PackWriter.holds_fresh (raw_only : Bool) : (PackWriter.fresh raw_only).Holds [] := by
  cases raw_only
  · exact PackWriter.holds_new
  · exact PackWriter.holds_newRawOnly

theorem PackWriter.raw_only_fresh (raw_only : Bool) :
    (PackWriter.fresh raw_only).raw_only = raw_only := by
  cases raw_only <;> rfl

/-- The version field of a pack. -/
def packVersion (pack : Bytes) : ℕ :=
  ofLeBytes ((pack.drop VERSION_OFFSET).take 4)

theorem packVersion_packBytes {version : ℕ} (fs : List Frame) (h : version < 2 ^ 32) :
    packVersion (packBytes B version fs) = version := by
  have htake : ((packBytes B version fs).drop VERSION_OFFSET).take 4 = leBytes 4 version := rfl
  rw [packVersion, htake, ofLeBytes_leBytes]
  exact Nat.mod_eq_of_lt h

theorem versionOf_eq_two_iff (fs : List Frame) : versionOf fs = 2 ↔ ∃ f ∈ fs, f.Compressed := by
  rw [versionOf]
  split_ifs with h
  · exact iff_of_true rfl h
  · exact iff_of_false (by decide) h

/-- What a decode of the frames of some pushes delivers, and when. -/
theorem decode_pushed (hZ : Z.Lossless) {raw_only : Bool}
     (hobjs : Objects B src [] ps objs) (hfs : fs = ps.map (Push.frame Z raw_only))
    (hlegal : LegalPack (versionOf fs) MAX_TOTAL_PAYLOAD fs) (limits : DecodeLimits) :
    (∃ report log,
      decodeEntriesWith Z B (packBytes B (versionOf fs) fs) src limits collect [] =
        (.ok report, log) ∧ log.map (fun e => (e.id, e.bytes)) = objs ∧
      log.map DecodedEntry.delta_base = ps.map fun p => p.entry.base?) ∨
    ((∃ log, decodeEntriesWith Z B (packBytes B (versionOf fs) fs) src limits collect [] =
        (.error .packfileTooLarge, log)) ∧
      ((∃ f ∈ fs, limits.capOf f ≠ none) ∨ limits.max_decoded_bytes <
        (claims fs (ps.map Push.entry)).sum + externalBytes B src (ps.map Push.entry) objs)) := by
  have hes := decodes_frames hZ raw_only ps
  rw [← hfs] at hes
  obtain ⟨ds, hds, rfl⟩ := hobjs.decodeAll
  have hlen := length_of_decodeAll hds
  rcases decodeEntriesWith_cases Z hlegal hes hds limits with hok | ⟨err, log, herr, hwhy⟩
  · refine .inl ⟨_, _, hok, map_delivered hes.length_eq hlen.le, ?_⟩
    rw [map_delta_base_delivered hes.length_eq hlen, List.map_map]
    rfl
  · rcases hwhy with ⟨f, hf, hcap⟩ | ⟨rfl, hover⟩
    · obtain ⟨e, he⟩ := exists_entry_of_decodes hes hf
      obtain rfl := capOf_of_decodes he hcap
      exact .inr ⟨⟨log, herr⟩, .inl ⟨f, hf, by rw [hcap]; exact Option.some_ne_none _⟩⟩
    · exact .inr ⟨⟨log, herr⟩, .inr hover⟩

/-- **What is pushed into a pack is what a decode of it delivers.** The pack has version 2
exactly when an entry is stored compressed, and preparing entries first changes nothing. A
decode delivers the objects in order, or refuses the pack because of its own limits; it
delivers them whenever no frame breaks a cap and the budget has room for the claims of the
frames and for the external bases. -/
theorem decode_finish (hZ : Z.Lossless) {raw_only : Bool} {pushes : List (Bool × Push)}
    {w : PackWriter} {src : DeltaBaseSource} {objs : List (Hash × Bytes)}
    (hpush : Yields (pushAll Z pushes) (PackWriter.fresh raw_only) () w)
    (hobjs : Objects B src [] (pushes.map Prod.snd) objs) : ∃ pack, w.finish B = .ok pack ∧
      (packVersion pack = 2 ↔
        ∃ p ∈ pushes, (p.2.frame Z raw_only).Compressed) ∧
      (∀ pushes' : List (Bool × Push), pushes'.map Prod.snd = pushes.map Prod.snd →
        Yields (pushAll Z pushes') (PackWriter.fresh raw_only) () w) ∧
      ∀ limits : DecodeLimits,
        ((∃ report log, decodeEntriesWith Z B pack src limits collect [] = (.ok report, log) ∧
            log.map (fun e => (e.id, e.bytes)) = objs) ∨
          ∃ log, decodeEntriesWith Z B pack src limits collect [] =
            (.error .packfileTooLarge, log)) ∧
        ((∀ p ∈ pushes, limits.capOf (p.2.frame Z raw_only) = none) →
          (claims (pushes.map fun p => p.2.frame Z raw_only)
              (pushes.map fun p => p.2.entry)).sum +
            externalBytes B src (pushes.map fun p => p.2.entry) objs ≤ limits.max_decoded_bytes →
          ∃ report log, decodeEntriesWith Z B pack src limits collect [] = (.ok report, log) ∧
            log.map (fun e => (e.id, e.bytes)) = objs) := by
  have hplain : ∀ ps : List (Bool × Push), pushAll Z ps =
      pushAll Z ((ps.map Prod.snd).map fun p => (false, p)) := by
    intro ps
    rw [pushAll_eq, List.map_map]
    rfl
  have hframes : (pushes.map fun p => p.2.frame Z raw_only) =
      (pushes.map Prod.snd).map (Push.frame Z raw_only) := by rw [List.map_map]; rfl
  have hentries : (pushes.map fun p => p.2.entry) = (pushes.map Prod.snd).map Push.entry := by
    rw [List.map_map]; rfl
  have hpush' := hpush
  rw [hplain] at hpush'
  have hholds := holds_pushAll Z (PackWriter.holds_fresh raw_only) hpush'
  rw [PackWriter.raw_only_fresh, List.nil_append, ← hframes] at hholds
  obtain ⟨hfinish, hlegal⟩ := hholds.finish B
  have hdecode := decode_pushed hZ hobjs hframes hlegal
  rw [← hentries] at hdecode
  have hversion : versionOf (pushes.map fun p => p.2.frame Z raw_only) < 2 ^ 32 := by
    rw [versionOf]
    split_ifs <;> decide
  refine ⟨_, hfinish, ?_, ?_, fun limits => ⟨?_, ?_⟩⟩
  · rw [packVersion_packBytes _ hversion, versionOf_eq_two_iff]
    simp only [List.mem_map, exists_exists_and_eq_and]
  · intro pushes' h'
    rw [hplain, h', ← hplain]
    exact hpush
  · rcases hdecode limits with ⟨report, log, hok, hlog, -⟩ | ⟨herr, -⟩
    · exact .inl ⟨report, log, hok, hlog⟩
    · exact .inr herr
  · intro hcaps hfit
    rcases hdecode limits with ⟨report, log, hok, hlog, -⟩ | ⟨-, hwhy⟩
    · exact ⟨report, log, hok, hlog⟩
    · exfalso
      rcases hwhy with ⟨f, hf, hcap⟩ | hover
      · obtain ⟨p, hp, rfl⟩ := List.mem_map.1 hf
        exact hcap (hcaps p hp)
      · omega

/-! ### Small and large packs -/

/-- A blob of three zeros, and the same blob as a delta against itself. -/
def smallPushes (B : Blake3) : List Push :=
  [.raw (B.hash (zeroBlob 3)) (zeroBlob 3),
    .delta (B.hash (zeroBlob 3)) selfDelta]

theorem objects_smallPushes (src : DeltaBaseSource) : Objects B src [] (smallPushes B)
      [(B.hash (zeroBlob 3), zeroBlob 3), (B.hash (zeroBlob 3), zeroBlob 3)] := by
  have hid : identify B (zeroBlob 3) = _ := identify_zeroBlob (by decide)
  have hbase : baseOf B src ([] ++ [(B.hash (zeroBlob 3), zeroBlob 3)]) (B.hash (zeroBlob 3)) =
      .ok (zeroBlob 3) := by rw [baseOf, latest_snoc, if_pos rfl]
  exact .raw hid (.delta hbase rfl hid .nil)

/-- A pack that stores a blob and twice rebuilds it from itself. -/
def doubledPushes (B : Blake3) (large stream : Bytes) : List Push :=
  [.raw (B.hash large) large, .delta (B.hash large) stream, .delta (B.hash large) stream]

theorem objects_doubledPushes {large stream : Bytes} {o : Object} (src : DeltaBaseSource)
    (hid : identify B large = .ok (o, B.hash large))
    (hdecode : DeltaStream.decode large stream = .ok large) :
    Objects B src [] (doubledPushes B large stream)
      [(B.hash large, large), (B.hash large, large), (B.hash large, large)] := by
  have hbase : ∀ made, baseOf B src (made ++ [(B.hash large, large)]) (B.hash large) =
      .ok large := by
    intro made
    rw [baseOf, latest_snoc, if_pos rfl]
  exact .raw hid (.delta (hbase _) hdecode hid (.delta (hbase _) hdecode hid .nil))

/-- A build without a compressor stores everything as it is. -/
theorem maybeCompress_unavailable (data : Bytes) : maybeCompress .unavailable data = none := by
  rw [maybeCompress]
  split_ifs <;> rfl

/-- The frame of a push that is not compressed. -/
def Push.plainFrame : Push → Frame
  | .raw _ bytes => ⟨0x00, bytes⟩
  | .delta base stream => ⟨0x02, base.bytes ++ stream⟩

theorem Push.frame_unavailable (p : Push) : p.frame .unavailable false = p.plainFrame := by
  cases p with
  | raw id bytes =>
    rw [Push.frame, if_neg (by decide), maybeCompress_unavailable]
    rfl
  | delta base stream =>
    rw [Push.frame, maybeCompress_unavailable]
    rfl

/-- Two rebuilt objects of almost 1 GiB are more than a decode buffers by default. -/
theorem doubled_refused {large stream : Bytes} (hlarge : large.length = 1073725450)
    (hstream : stream.length = 114708) (hdecode : DeltaStream.decode large stream = .ok large) :
    ∃ w pack,
      Yields (pushAll .unavailable ((doubledPushes toyBlake3 large stream).map
        fun p => (false, p))) PackWriter.new () w ∧
      w.finish toyBlake3 = .ok pack ∧
      ∀ src report log,
        decodeEntriesWith .unavailable toyBlake3 pack src .default collect [] ≠
          (.ok report, log) := by
  have hid : (toyBlake3.hash large).bytes.length = 32 := ByteArr.length_bytes _
  have hframes : (doubledPushes toyBlake3 large stream).map (Push.frame .unavailable false) =
      [⟨0x00, large⟩, ⟨0x02, (toyBlake3.hash large).bytes ++ stream⟩,
        ⟨0x02, (toyBlake3.hash large).bytes ++ stream⟩] := by
    rw [doubledPushes, List.map_cons, List.map_cons, List.map_cons, List.map_nil,
      Push.frame_unavailable, Push.frame_unavailable]
    rfl
  have hlen : ∀ f ∈ (doubledPushes toyBlake3 large stream).map (Push.frame .unavailable false),
      f.payload.length < 2 ^ 32 := by
    rw [hframes]
    simp [hlarge, hstream, hid]
  have htotal : payloadSum ((doubledPushes toyBlake3 large stream).map
      (Push.frame .unavailable false)) ≤ MAX_TOTAL_PAYLOAD := by
    rw [hframes]
    simp [payloadSum_cons, payloadSum_nil, hlarge, hstream, hid, MAX_TOTAL_PAYLOAD]
  obtain ⟨w, hw, hfinish, hlegal⟩ := exists_finish .unavailable toyBlake3
    (show (doubledPushes toyBlake3 large stream).length ≤ MAX_ENTRIES by
      simp [doubledPushes, MAX_ENTRIES]) htotal hlen
  refine ⟨w, _, hw, hfinish, fun src report log hread => ?_⟩
  rw [decodeEntriesWith] at hread
  generalize hnew : PackDecodeCursor.new .unavailable toyBlake3 (packBytes toyBlake3 _ _)
    .default = opened at hread
  cases opened with
  | error err => cases hread
  | ok c =>
    obtain ⟨es, hes, hmax, -⟩ :=
      (PackDecodeCursor.new_packBytes_eq_ok_iff .unavailable toyBlake3 hlegal).1 hnew
    obtain rfl := hes.unique (decodes_frames Zstd.lossless_unavailable false _)
    have hdelta := @deltaClaim?_of_decode large stream large (toyBlake3.hash large) hdecode
    have hclaims : (claims ((doubledPushes toyBlake3 large stream).map
          (Push.frame .unavailable false))
        ((doubledPushes toyBlake3 large stream).map Push.entry)) =
          [large.length, large.length] := by
      have hentries : (doubledPushes toyBlake3 large stream).map Push.entry = [.raw large,
        .delta (toyBlake3.hash large) stream, .delta (toyBlake3.hash large) stream] := rfl
      have hraw : (PackEntry.raw large).deltaClaim? = none := rfl
      rw [claims, hframes, hentries, List.filterMap_cons_none hraw,
        List.filterMap_cons_some hdelta, List.filterMap_cons_some hdelta]
      simp [compressedClaim]
    rw [hclaims, hlarge] at hmax
    simp [DecodeLimits.default, MAX_RAW_OBJECT_SIZE] at hmax

/-- **A pack the writer accepts can be too large for the default limits of a decode.** -/
theorem large_pack_refused :
    ¬ ∀ (Z : Zstd) (B : Blake3) (src : DeltaBaseSource) (ps : List Push) (w : PackWriter)
        (objs : List (Hash × Bytes)) (pack : Bytes), Z.Lossless →
      Yields (pushAll Z (ps.map fun p => (false, p))) PackWriter.new () w →
      Objects B src [] ps objs → w.finish B = .ok pack →
      ∃ report log, decodeEntriesWith Z B pack src .default collect [] = (.ok report, log) ∧
        log.map (fun e => (e.id, e.bytes)) = objs := by
  intro h
  -- The blob of zeros just under 1 GiB, and the stream that copies it.
  have hdecode : DeltaStream.decode (zeroBlob (65535 * 16384)) (zeroDelta 16384 16384) =
      .ok (zeroBlob (65535 * 16384)) := decode_zeroDelta (by decide) (by decide) (by decide)
  obtain ⟨w, pack, hw, hfinish, hrefused⟩ :=
    doubled_refused (length_zeroBlob _) (length_zeroDelta _ _) hdecode
  have hobjects := objects_doubledPushes NoExternalBases
    (@identify_zeroBlob toyBlake3 (65535 * 16384) (by decide)) hdecode
  obtain ⟨report, log, hread, -⟩ := h .unavailable toyBlake3 NoExternalBases _ w _ _
    Zstd.lossless_unavailable hw hobjects hfinish
  exact hrefused _ report log hread

/-- The small pack is written and read back. -/
theorem small_pack_read_back : ∃ w pack report log,
      Yields (pushAll .unavailable ((smallPushes toyBlake3).map fun p => (false, p)))
        (PackWriter.fresh false) () w ∧
      w.finish toyBlake3 = .ok pack ∧
      decodeEntriesWith .unavailable toyBlake3 pack NoExternalBases .default collect [] =
        (.ok report, log) ∧
      log.map (fun e => (e.id, e.bytes)) =
        [(toyBlake3.hash (zeroBlob 3), zeroBlob 3), (toyBlake3.hash (zeroBlob 3), zeroBlob 3)] := by
  obtain ⟨w, hw, -⟩ := @exists_finish .unavailable toyBlake3 (smallPushes toyBlake3) (by decide)
    (by decide +kernel) (by decide +kernel)
  have hmap : ((smallPushes toyBlake3).map fun p => (false, p)).map Prod.snd =
      smallPushes toyBlake3 := rfl
  obtain ⟨pack, hfinish, -, -, hdecode⟩ := @decode_finish .unavailable toyBlake3
    Zstd.lossless_unavailable false _ w NoExternalBases _ hw
    (by rw [hmap]; exact objects_smallPushes _)
  obtain ⟨report, log, hlog⟩ := (hdecode .default).2 (by decide +kernel) (by decide +kernel)
  exact ⟨w, pack, report, log, hw, hfinish, hlog⟩

end Mkit.Pack
