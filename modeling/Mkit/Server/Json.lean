import Mathlib.Tactic.DeriveEncodable
import Mkit.Lib.Tabled
import Mkit.Server.Codec

/-!
# Written-Out JSON

A serialiser whose strings for some records are given. The stored records are countable, so the
rest can be written in unary behind a zero byte, which starts no JSON text.
-/

namespace Mkit.Server

open Computability (Encoding)

instance encodableByte : Encodable UInt8 :=
  Encodable.ofLeftInjection UInt8.toNat (fun n => some (UInt8.ofNat n)) fun n => by simp

instance encodableWord : Encodable UInt64 :=
  Encodable.ofLeftInjection UInt64.toNat (fun n => some (UInt64.ofNat n)) fun n => by simp

instance : Encodable Str :=
  Encodable.ofLeftInjection Str.bytes Str.fromUtf8 fun s => by simp [Str.fromUtf8, s.valid]

instance (n : ℕ) : Encodable (ByteArr n) :=
  Encodable.ofLeftInjection ByteArr.bytes
    (fun bs => if h : bs.length = n then some ⟨bs, h⟩ else none) fun a => by simp [a.length_bytes]

deriving instance Encodable for AbortReason, PendingOp, StoredVisibility, StoredProcedure,
  OutcomeRef, ReservationV1, Backlog, RelayDtoV1, RelayScanDtoV1

/-- The records whose JSON is written out. -/
structure JsonTables where
  reservations : List (ReservationV1 × Bytes)
  backlogs : List (Backlog × Bytes)
  relays : List (RelayDtoV1 × Bytes)
  relayScans : List (RelayScanDtoV1 × Bytes)

/-- No two records have the same JSON, and none of it starts with a zero byte. -/
def JsonTables.Ok (t : JsonTables) : Prop :=
  Encoding.IsTable 0 t.reservations ∧ Encoding.IsTable 0 t.backlogs ∧
    Encoding.IsTable 0 t.relays ∧ Encoding.IsTable 0 t.relayScans

instance (t : JsonTables) : Decidable t.Ok :=
  inferInstanceAs (Decidable (_ ∧ _))

/-- The serialiser that writes the records of the tables as given. -/
def JsonTables.serde (t : JsonTables) (h : t.Ok) : Serde where
  reservation := Encoding.ofTable 0 t.reservations h.1
  backlog := Encoding.ofTable 0 t.backlogs h.2.1
  relay := Encoding.ofTable 0 t.relays h.2.2.1
  relayScan := Encoding.ofTable 0 t.relayScans h.2.2.2

/-- The bytes of a text. -/
def jsonText (s : String) : Bytes :=
  ascii s.toList

end Mkit.Server
