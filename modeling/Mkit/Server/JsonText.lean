import Mkit.Lib.Format
import Mkit.Server.Json
import Mkit.Server.Outbox

/-!
# The JSON of Stored Values

What the JSON library writes for relay rows, the backlog and storage changes: compact text with
the fields in their order, byte strings in hex and an empty list of deletes left out. The formats
read what they write, so a serialiser that writes these texts exists (`jsonSerde`).
-/

namespace Mkit.Server

open Computability (Encoding)

/-! ### Records -/

def closeBrace : Bytes := jsonText "\x7d"

theorem head?_quoted_ne (s t : Bytes) : (Format.quoted.write s ++ t).head? ≠ some Format.CLOSE := by
  change some Format.QUOTE ≠ some Format.CLOSE
  decide

/-- `["key","value"]`. -/
def putJson : Format (Bytes × Bytes) :=
  .after [Format.OPEN]
    ((Format.quoted.before [Format.COMMA]).pair (Format.quoted.before [Format.CLOSE]))

theorem head?_putJson_ne (p : Bytes × Bytes) (t : Bytes) :
    (putJson.write p ++ t).head? ≠ some Format.CLOSE := by
  change some Format.OPEN ≠ some Format.CLOSE
  decide

/-- The end of a relay row: its deletes, unless there are none. -/
def deletesJson : Format (List Bytes) :=
  .orEnd (.after (jsonText ",\"deletes\":")
      ((Format.quoted.array head?_quoted_ne).before closeBrace))
    closeBrace [] List.isEmpty (fun _ => List.isEmpty_iff) fun _ _ => rfl

/-- `{"at_ms":1,"target":"00","puts":[["00","00"]],"deletes":["00"]}`. -/
def relayJson : Format RelayDtoV1 :=
  .via (.after (jsonText "\x7b\"at_ms\":") ((Format.u64 Format.COMMA (by decide)).pair
      (.after (jsonText "\"target\":") (Format.quoted.pair
        (.after (jsonText ",\"puts\":") ((putJson.array head?_putJson_ne).pair deletesJson))))))
    (fun dto => (dto.atMs, dto.target, dto.puts, dto.deletes))
    (fun t => some ⟨t.1, t.2.1, t.2.2.1, t.2.2.2⟩) fun _ => rfl

/-- `{"rows":1,"bytes":1}`. -/
def backlogJson : Format Backlog :=
  .via (.after (jsonText "\x7b\"rows\":") ((Format.u64 Format.COMMA (by decide)).pair
      (.after (jsonText "\"bytes\":") (Format.u64 0x7d (by decide)))))
    (fun backlog => (backlog.rows, backlog.bytes)) (fun t => some ⟨t.1, t.2⟩) fun _ => rfl

/-- The fields of a storage change as they are stored. -/
structure StoredChange where
  repository : Str
  occurredAtMs : UInt64
  storedBytes : UInt64
  version : UInt64

/-- The record of a storage change. -/
def StoredChange.record (c : StoredChange) : ReservationV1 :=
  .repoStorageChanged c.repository c.occurredAtMs c.storedBytes c.version

/-- The storage change a record is. -/
def storedChange? : ReservationV1 → Option StoredChange
  | .repoStorageChanged repository occurredAtMs storedBytes version =>
    some ⟨repository, occurredAtMs, storedBytes, version⟩
  | _ => none

/-- `{"state":"repo_storage_changed","repository":"r","occurred_at_ms":1,"stored_bytes":1,
"version":1}`. -/
def changeJson : Format StoredChange :=
  .via (.after (jsonText "\x7b\"state\":\"repo_storage_changed\",\"repository\":")
      (Format.quoted.pair (.after (jsonText ",\"occurred_at_ms\":")
        ((Format.u64 Format.COMMA (by decide)).pair (.after (jsonText "\"stored_bytes\":")
          ((Format.u64 Format.COMMA (by decide)).pair (.after (jsonText "\"version\":")
            (Format.u64 0x7d (by decide)))))))))
    (fun c => (c.repository.bytes, c.occurredAtMs, c.storedBytes, c.version))
    (fun t => (Str.fromUtf8 t.1).map fun repository => ⟨repository, t.2.1, t.2.2.1, t.2.2.2⟩)
    fun c => by simp [Str.fromUtf8, c.repository.valid]

/-- The serialiser writes relay rows, the backlog and storage changes as JSON. -/
structure Serde.WritesJson (S : Serde) : Prop where
  relay : ∀ dto, S.relay.encode dto = relayJson.write dto
  backlog : ∀ backlog, S.backlog.encode backlog = backlogJson.write backlog
  change : ∀ c : StoredChange, S.reservation.encode c.record = changeJson.write c

/-- A serialiser that does; what it writes for other records stands for their JSON. -/
def jsonSerde : Serde where
  reservation := Encoding.besides 0 changeJson.encoding StoredChange.record storedChange?
    (fun r c h => by
      cases r with
      | repoStorageChanged =>
        obtain rfl := Option.some.inj h
        rfl
      | _ => cases h)
    fun c => by
      change some (0x7b : UInt8) ≠ some 0
      decide
  backlog := backlogJson.encoding
  relay := relayJson.encoding
  relayScan := Encoding.unary RelayScanDtoV1 0

theorem writesJson_jsonSerde : jsonSerde.WritesJson :=
  ⟨fun _ => rfl, fun _ => rfl, fun _ => rfl⟩

/-! ### Lengths -/

theorem length_toHexBytes (bytes : Bytes) : (toHexBytes bytes).length = 2 * bytes.length :=
  length_flatMap_hexByte bytes

/-- Hex is quoted as it is. -/
theorem length_quoted_hex (bytes : Bytes) :
    (Format.quoted.write (toHexBytes bytes)).length = 2 * bytes.length + 2 := by
  have hall : ∀ n : Fin 256, (hexByte (UInt8.ofNat n)).all Format.isPlain = true := by
    decide +kernel
  have hplain : ∀ b ∈ toHexBytes bytes, Format.isPlain b = true := by
    intro b hb
    obtain ⟨c, -, hb⟩ := List.mem_flatMap.1 hb
    have hc := hall ⟨c.toNat, c.toNat_lt⟩
    rw [UInt8.ofNat_toNat, List.all_eq_true] at hc
    exact hc b hb
  rw [Format.length_quoted hplain, length_toHexBytes]

/-- What an upsert takes of a row: two hex strings, their quotes and brackets. -/
def putSize (p : Key × Value) : ℕ :=
  7 + 2 * (p.1.length + p.2.length)

/-- What a delete takes of a row at most: a comma, quotes and two hex digits a byte. -/
def deleteSize (k : Key) : ℕ :=
  3 + 2 * k.length

theorem length_putJson (p : Key × Value) :
    (putJson.write (toHexBytes p.1, toHexBytes p.2)).length = putSize p := by
  have hk := length_quoted_hex p.1
  have hv := length_quoted_hex p.2
  change ((Format.quoted.write (toHexBytes p.1) ++ [Format.COMMA]) ++
    (Format.quoted.write (toHexBytes p.2) ++ [Format.CLOSE])).length + 1 = _
  rw [List.length_append, List.length_append, List.length_append, List.length_singleton,
    List.length_singleton, putSize]
  omega

/-- What the deletes take of a row, less than estimated by a byte for each. -/
theorem length_deletesJson (deletes : List Key) :
    (deletesJson.write (deletes.map toHexBytes)).length + deletes.length =
      1 + if deletes.isEmpty then 0
        else RELAY_DELETE_FIELD_BYTES + (deletes.map deleteSize).sum + (deletes.length - 1) := by
  cases deletes with
  | nil => rfl
  | cons k rest =>
    have hsum : ∀ l : List Key,
        ((l.map toHexBytes).map fun s => (Format.quoted.write s).length).sum + l.length =
          (l.map deleteSize).sum := by
      intro l
      induction l with
      | nil => rfl
      | cons k l ih =>
        have hk := length_quoted_hex k
        simp only [List.map_cons, List.sum_cons, List.length_cons, hk, deleteSize]
        omega
    have htotal := hsum (k :: rest)
    change (jsonText ",\"deletes\":" ++
      (Format.writeArray Format.quoted ((k :: rest).map toHexBytes) ++ closeBrace)).length + _ = _
    have htext : (jsonText ",\"deletes\":").length = 11 := by decide
    have hbrace : closeBrace.length = 1 := by decide
    rw [List.length_append, List.length_append, Format.length_writeArray, List.length_map, htext,
      hbrace, List.isEmpty_cons, if_neg (by decide), RELAY_DELETE_FIELD_BYTES]
    have hpos : 0 < (k :: rest).length := List.length_pos_of_ne_nil (List.cons_ne_nil k rest)
    omega

/-- What the row's operations take behind the empty row, as it is estimated. -/
def opsEstimate (puts : List (Key × Value)) (deletes : List Key) : ℕ :=
  (puts.map putSize).sum + (puts.length - 1) +
    if deletes.isEmpty then 0
    else RELAY_DELETE_FIELD_BYTES + (deletes.map deleteSize).sum + (deletes.length - 1)

/-- What a row takes, part by part. -/
theorem length_relayJson (atMs : UInt64) (target : Bytes) (puts : List (Key × Value))
    (deletes : List Key) :
    (relayJson.write ⟨atMs, toHexBytes target, puts.map fun p => (toHexBytes p.1, toHexBytes p.2),
      deletes.map toHexBytes⟩).length + deletes.length =
        9 + ((Format.u64 Format.COMMA (by decide)).write atMs).length + 9 +
          (2 * target.length + 2) + 8 + 2 + 1 + opsEstimate puts deletes := by
  have hputs : (puts.map fun p => (putJson.write (toHexBytes p.1, toHexBytes p.2)).length).sum =
      (puts.map putSize).sum :=
    congrArg List.sum (List.map_congr_left fun p _ => length_putJson p)
  have hdeletes := length_deletesJson deletes
  have htarget := length_quoted_hex target
  change (jsonText "\x7b\"at_ms\":" ++ ((Format.u64 Format.COMMA (by decide)).write atMs ++
    (jsonText "\"target\":" ++ (Format.quoted.write (toHexBytes target) ++
      (jsonText ",\"puts\":" ++
        (Format.writeArray putJson (puts.map fun p => (toHexBytes p.1, toHexBytes p.2)) ++
          deletesJson.write (deletes.map toHexBytes))))))).length + _ = _
  have hat : (jsonText "\x7b\"at_ms\":").length = 9 := by decide
  have htext : (jsonText "\"target\":").length = 9 := by decide
  have hfield : (jsonText ",\"puts\":").length = 8 := by decide
  simp only [List.length_append, Format.length_writeArray, List.map_map, List.length_map,
    Function.comp_def, hputs, hat, htext, hfield, htarget, opsEstimate]
  omega

/-- A row takes what is estimated behind the empty row, less a byte for each delete. -/
theorem length_encodeRelay {S : Serde} (hS : S.WritesJson) {atMs : UInt64} {target : Partition}
    {puts : List (Key × Value)} {deletes : List Key} {base value : Value}
    (hbase : encodeRelay S ⟨atMs, target, [], []⟩ = .ok base)
    (h : encodeRelay S ⟨atMs, target, puts, deletes⟩ = .ok value) :
    value.length + deletes.length = base.length + opsEstimate puts deletes := by
  have hvalue : ∀ {puts : List (Key × Value)} {deletes : List Key} {value : Value},
      encodeRelay S ⟨atMs, target, puts, deletes⟩ = .ok value →
      ∃ encoded, target.encode = .ok encoded ∧ value = CODEC_V1 :: relayJson.write
        ⟨atMs, toHexBytes encoded, puts.map fun p => (toHexBytes p.1, toHexBytes p.2),
          deletes.map toHexBytes⟩ := by
    intro puts deletes value h
    rw [encodeRelay] at h
    obtain ⟨-, h⟩ := Wire.check_eq_ok.1 h
    obtain ⟨encoded, hencoded, h⟩ := Wire.bind_eq_ok.1 h
    obtain ⟨-, h⟩ := Wire.check_eq_ok.1 h
    obtain ⟨-, h⟩ := Wire.check_eq_ok.1 h
    refine ⟨encoded, hencoded, ?_⟩
    rw [← Except.ok.inj h, encodeJson, hS.relay]
  obtain ⟨encoded, hencoded, rfl⟩ := hvalue h
  obtain ⟨encoded', hencoded', rfl⟩ := hvalue hbase
  obtain rfl := Except.ok.inj (hencoded.symm.trans hencoded')
  have hrow := length_relayJson atMs encoded puts deletes
  have hempty := length_relayJson atMs encoded [] []
  have hnone : opsEstimate [] [] = 0 := rfl
  rw [hnone, List.length_nil] at hempty
  rw [List.length_cons, List.length_cons]
  omega

/-- The backlog takes few bytes. -/
theorem length_encodeBacklog_le {S : Serde} (hS : S.WritesJson) (backlog : Backlog) :
    (encodeBacklog S backlog).length ≤ 64 := by
  have hrows := Format.length_u64_le Format.COMMA (by decide) backlog.rows
  have hbytes := Format.length_u64_le 0x7d (by decide) backlog.bytes
  rw [encodeBacklog, encodeJson, hS.backlog, List.length_cons]
  change (jsonText "\x7b\"rows\":" ++ ((Format.u64 Format.COMMA (by decide)).write backlog.rows ++
    (jsonText "\"bytes\":" ++ (Format.u64 0x7d (by decide)).write backlog.bytes))).length + 1 ≤ 64
  have htext : (jsonText "\x7b\"rows\":").length = 8 := by decide
  have hfield : (jsonText "\"bytes\":").length = 8 := by decide
  rw [List.length_append, List.length_append, List.length_append, htext, hfield]
  omega

/-- A storage change takes few bytes more than its repository does escaped. -/
theorem length_encodeReservation_le {S : Serde} (hS : S.WritesJson) (c : StoredChange) :
    (encodeReservation S c.record).length ≤ 6 * c.repository.bytes.length + 256 := by
  have hrepository := Format.length_quoted_le c.repository.bytes
  have hat := Format.length_u64_le Format.COMMA (by decide) c.occurredAtMs
  have hstored := Format.length_u64_le Format.COMMA (by decide) c.storedBytes
  have hversion := Format.length_u64_le 0x7d (by decide) c.version
  rw [encodeReservation, encodeJson, hS.change, List.length_cons]
  change (jsonText "\x7b\"state\":\"repo_storage_changed\",\"repository\":" ++
    (Format.quoted.write c.repository.bytes ++ (jsonText ",\"occurred_at_ms\":" ++
      ((Format.u64 Format.COMMA (by decide)).write c.occurredAtMs ++ (jsonText "\"stored_bytes\":" ++
        ((Format.u64 Format.COMMA (by decide)).write c.storedBytes ++ (jsonText "\"version\":" ++
          (Format.u64 0x7d (by decide)).write c.version))))))).length + 1 ≤ _
  have htexts : (jsonText "\x7b\"state\":\"repo_storage_changed\",\"repository\":").length +
      (jsonText ",\"occurred_at_ms\":").length + (jsonText "\"stored_bytes\":").length +
        (jsonText "\"version\":").length ≤ 128 := by decide
  simp only [List.length_append]
  omega

end Mkit.Server
