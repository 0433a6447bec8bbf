import Mathlib.Data.List.AList
import Mkit.ObjectId

/-!
# The Object Store

The store keeps one file for each object, named by its id. A file is trusted only as far as
its content hashes to its name: every read that hands out an object recomputes the id first.

The id computation panics on trees too large to be written (`verifiedIdAndObject` is `none`
there); that panic is the error `StoreError.panicked` here, and `readObject_ne_panicked`
shows that no read ever runs into it.
-/

namespace Mkit

/-- Failures of the object store. -/
inductive StoreError where
  | objectNotFound (hex : Bytes)
  | objectTooLarge
  | hashMismatch (expected actual : Bytes)
  | decode (e : MkitError)
  | io
  | treeTooDeep
  | panicked
deriving DecidableEq

/-- Largest object the store reads, 1 GiB. -/
def MAX_RAW_OBJECT_SIZE : ℕ := 1024 * 1024 * 1024

/-- An object file. -/
structure ObjectFile where
  /-- What reading it gives; `none` when reading fails. -/
  content : Option Bytes
  /-- Its modification time in seconds; `none` when the time is unknown or before the
  epoch. -/
  mtime : Option ℕ
deriving DecidableEq

/-- The object files of a repository, by id. -/
abbrev ObjectStore := AList fun _ : Hash => ObjectFile

namespace ObjectStore

/-- Is there a file for this id? -/
def contains (s : ObjectStore) (h : Hash) : Bool :=
  (s.lookup h).isSome

/-- Read a file whole, up to the size bound. -/
def readRaw (s : ObjectStore) (h : Hash) : Except StoreError Bytes :=
  match s.lookup h with
  | none => .error (.objectNotFound (toHex h))
  | some file =>
    match file.content with
    | none => .error .io
    | some bytes =>
      if bytes.length > MAX_RAW_OBJECT_SIZE then .error .objectTooLarge else .ok bytes

variable (B : Blake3)

/-- Read an object and check its id. -/
def readObject (s : ObjectStore) (h : Hash) : Except StoreError Object := do
  let bytes ← s.readRaw h
  match verifiedIdAndObject B bytes with
  | none => .error .panicked
  | some (actual, decoded) =>
    if actual ≠ h then .error (.hashMismatch (toHex h) (toHex actual))
    else
      match decoded with
      | some obj => .ok obj
      | none => (deserialize bytes).mapError .decode

/-- The type tag of an object, from its prologue alone: the body is neither read nor
verified. -/
def objectType (s : ObjectStore) (h : Hash) : Except StoreError ObjectType :=
  match s.lookup h with
  | none => .error (.objectNotFound (toHex h))
  | some file =>
    match file.content with
    | none => .error .io
    | some bytes =>
      if bytes.length < PROLOGUE_LEN then .error (.decode .emptyData)
      else if (bytes.drop 1).take 4 ≠ MAGIC then .error (.decode .invalidMagic)
      else if bytes.getD 5 0 ≠ SCHEMA_VERSION then
        .error (.decode .unsupportedObjectVersion)
      else (ObjectType.fromU8 (bytes.headD 0)).mapError .decode

/-- The id computation on stored bytes gives an id, and decodes only what `deserialize`
does. -/
theorem verifiedIdAndObject_eq_some (bytes : Bytes) :
    ∃ id decoded, verifiedIdAndObject B bytes = some (id, decoded) ∧
      ∀ o ∈ decoded, deserialize bytes = .ok o := by
  rw [verifiedIdAndObject]
  by_cases hm : isMerkleTag bytes.head? = true
  · rw [if_pos hm]
    cases hd : deserialize bytes with
    | error e => exact ⟨_, none, rfl, by simp⟩
    | ok o =>
      obtain ⟨hdec, -⟩ := deserialize_eq_ok_iff.1 hd
      refine ⟨B.hash (o.addressed B bytes), some o, ?_,
        fun o' ho' => congrArg _ (Option.some.inj ho')⟩
      simp only [idFromObject_of_decodable hdec, Option.bind_eq_bind, Option.bind_some]
  · rw [if_neg hm]
    exact ⟨_, none, rfl, by simp⟩

variable {s : ObjectStore} {h : Hash} {o : Object}

/-- Reading an object reads bytes that hash to its id and decode to it. -/
theorem readObject_eq_ok : s.readObject B h = .ok o ↔
      ∃ bytes, s.readRaw h = .ok bytes ∧ objectIdFromBytes B bytes = some h ∧
        deserialize bytes = .ok o := by
  rw [readObject, Wire.bind_eq_ok]
  refine exists_congr fun bytes => and_congr_right fun _ => ?_
  obtain ⟨id, decoded, hv, hdec⟩ := verifiedIdAndObject_eq_some B bytes
  have hid : objectIdFromBytes B bytes = some id := by
    rw [objectIdFromBytes, hv]
    rfl
  rw [hv, hid]
  by_cases h' : id = h
  · subst h'
    cases decoded with
    | some obj => simp [hdec obj rfl]
    | none => cases deserialize bytes <;> simp [Except.mapError]
  · simp [h']

/-- An object whose type can be told has a file. -/
theorem contains_of_objectType {ty : ObjectType}
    (hty : s.objectType h = .ok ty) : s.contains h = true := by
  rw [objectType] at hty
  rw [contains]
  cases hf : s.lookup h with
  | none =>
    rw [hf] at hty
    cases hty
  | some file => rfl

/-- An object that reads has the type its prologue tells. -/
theorem objectType_of_readObject
    (ho : s.readObject B h = .ok o) : s.objectType h = .ok o.objectType := by
  obtain ⟨bytes, hraw, -, hdec⟩ := (readObject_eq_ok B).1 ho
  obtain ⟨file, hf, hcontent⟩ : ∃ file, s.lookup h = some file ∧ file.content = some bytes := by
    rw [readRaw] at hraw
    split at hraw
    · cases hraw
    · rename_i file hf
      split at hraw
      · cases hraw
      · rename_i bytes' hcontent
        split at hraw
        · cases hraw
        · exact ⟨file, hf, hcontent.trans (congrArg some (Except.ok.inj hraw))⟩
  have hser : serialize o = .ok bytes := (deserialize_eq_ok_iff.1 hdec).2
  rw [serialize, Wire.bind_eq_ok] at hser
  obtain ⟨body, -, hbytes⟩ := hser
  have hbytes : writePrologue o.objectType ++ body = bytes := Except.ok.inj hbytes
  have hpro : bytes = writePrologue o.objectType ++ bytes.drop PROLOGUE_LEN := by
    rw [← hbytes, List.drop_left' (by rfl)]
  obtain ⟨hlen, htag, hmagic, hver⟩ := prologue_iff.2 hpro
  rw [objectType, hf]
  simp only [hcontent]
  rw [if_neg hlen, if_neg (not_not.2 hmagic), if_neg (not_not.2 hver), htag]
  rfl

/-- No read runs into the panic of the id computation. -/
theorem readObject_ne_panicked (s : ObjectStore) (h : Hash) :
    s.readObject B h ≠ .error .panicked := by
  rw [readObject]
  cases hraw : s.readRaw h with
  | error e =>
    rw [readRaw] at hraw
    intro he
    obtain rfl : e = .panicked := Except.error.inj he
    split at hraw
    · cases hraw
    · split at hraw
      · cases hraw
      · split at hraw <;> cases hraw
  | ok bytes =>
    obtain ⟨id, decoded, hv, -⟩ := verifiedIdAndObject_eq_some B bytes
    change (match verifiedIdAndObject B bytes with
      | none => _
      | some (actual, decoded) => _) ≠ _
    rw [hv]
    by_cases hid : id = h
    · cases decoded with
      | some o => simp [hid]
      | none => cases deserialize bytes <;> simp [hid, Except.mapError]
    · simp [hid]

/-- Whatever `s` reads, `s'` reads as well, as happens when objects are added. -/
def Kept (s s' : ObjectStore) : Prop :=
  ∀ h o, s.readObject B h = .ok o → s'.readObject B h = .ok o

theorem Kept.refl (s : ObjectStore) : Kept B s s :=
  fun _ _ h => h

end ObjectStore

end Mkit
