import Mkit.Lib.FileTree
import Mkit.Lib.Text
import Mkit.Store

/-!
# The Staging Index

Reading the staging index of a worktree (`index.rs`): a header, one entry for each staged
path, and the digest of all bytes before it. The reader is strict; a file that is not a
well-formed index is an error, never a shorter list of entries.
-/

namespace Mkit

open Wire Text FileTree

/-- The magic of an index file. -/
def INDEX_MAGIC : Bytes := ascii ['M', 'K', 'I', 'X']

/-- The index format that is read. -/
def FORMAT_VERSION : UInt8 := 0x03

/-- Longest index file, 64 MiB. -/
def MAX_INDEX_BYTES : ℕ := 64 * 1024 * 1024

/-- Longest staged path. -/
def MAX_PATH_LEN : ℕ := 4096

/-- Failures of the index. -/
inductive IndexError where
  | badMagic
  | unsupportedVersion (b : UInt8)
  | badStatus (b : UInt8)
  | corrupt
  | tooLarge
  | invalidPath (path : Bytes)
  | duplicatePath (path : Bytes)
  | removedHasHash (path : Bytes)
  | invalidPathEncoding
  | io
  | store (e : StoreError)
  | notTree
  | treeTooDeep
deriving DecidableEq

/-- The status of an index entry. -/
inductive EntryStatus where
  | removed
  | blob
  | tree
  | symlink
  | executable
deriving DecidableEq

/-- Decode a status byte. -/
def EntryStatus.fromByte (b : UInt8) : Option EntryStatus :=
  match b with
  | 0x00 => some .removed
  | 0x01 => some .blob
  | 0x02 => some .tree
  | 0x03 => some .symlink
  | 0x04 => some .executable
  | _ => none

/-- One staged entry; the last four fields cache what `stat` said of the file when its hash
was taken, a zero `mtime_ns` meaning that nothing is cached. -/
structure IndexEntry where
  path : Bytes
  status : EntryStatus
  object_hash : Hash
  mtime_ns : UInt64
  size : UInt64
  ino : UInt64
  ctime_ns : UInt64
deriving DecidableEq

/-- One part of a staged path. -/
def validIndexPart (part : Bytes) : Bool :=
  !part.isEmpty && part != ascii ['.'] && part != ascii ['.', '.'] &&
    part.all fun c => c != 0 && c != 0x5c

/-- Validate a staged path. -/
def validateIndexPath (path : Bytes) : Bool :=
  if path.isEmpty then false
  else if path.head? = some 0x2f then false
  else if path.length > MAX_PATH_LEN then false
  else if path = ascii ['.', 'm', 'k', 'i', 't'] ∨ path = ascii ['.', 'g', 'i', 't'] then false
  else if (ascii ['.', 'm', 'k', 'i', 't', '/']).isPrefixOf path ||
      (ascii ['.', 'g', 'i', 't', '/']).isPrefixOf path then false
  else (path.splitOn 0x2f).all validIndexPart

/-- Shortest entry on the wire: status, hash, the four cached fields and the path length. -/
def MIN_ENTRY_LEN : ℕ := 1 + HASH_LEN + 32 + 2

/-- One round of the entry loop, given the entries read so far. -/
def readIndexEntry (entries : List IndexEntry) : Parser IndexError IndexEntry := do
  Wire.need .corrupt MIN_ENTRY_LEN
  let tag ← byte .corrupt
  match EntryStatus.fromByte tag with
  | none => throw (.badStatus tag)
  | some status => do
    let object_hash ← ByteArr.read .corrupt HASH_LEN
    let mtime_ns ← word .corrupt 8 UInt64.ofNat
    let size ← word .corrupt 8 UInt64.ofNat
    let ino ← word .corrupt 8 UInt64.ofNat
    let ctime_ns ← word .corrupt 8 UInt64.ofNat
    let path_len ← word .corrupt 2 UInt16.ofNat
    if path_len.toNat > MAX_PATH_LEN then throw .corrupt
    else do
      let path ← take .corrupt path_len.toNat
      if !isUtf8 path then throw .invalidPathEncoding
      else if !validateIndexPath path then throw (.invalidPath path)
      else if path ∈ entries.map (·.path) then throw (.duplicatePath path)
      else if status = .removed ∧ object_hash ≠ ZERO then throw (.removedHasHash path)
      else pure { path, status, object_hash, mtime_ns, size, ino, ctime_ns }

section Read

variable (B : Blake3)

/-- Deserialise an index. -/
def deserializeIndex (data : Bytes) : Except IndexError (List IndexEntry) :=
  if data.length > MAX_INDEX_BYTES then .error .tooLarge
  else if data.length < 9 then .error .corrupt
  else if data.take 4 ≠ INDEX_MAGIC then .error .badMagic
  else if data.getD 4 0 ≠ FORMAT_VERSION then .error (.unsupportedVersion (data.getD 4 0))
  else if data.length < 9 + HASH_LEN then .error .corrupt
  else
    let body := data.take (data.length - HASH_LEN)
    let checksum := data.drop (data.length - HASH_LEN)
    if (B.hash body).bytes ≠ checksum then .error .corrupt
    else
      let count := ofLeBytes ((body.drop 5).take 4)
      -- A count that cannot fit is refused before anything is allocated for it.
      if count * MIN_ENTRY_LEN > body.length then .error .corrupt
      else do
        let (entries, rest) ← repeatWith readIndexEntry count [] (body.drop 9)
        if rest ≠ [] then .error .corrupt else .ok entries

/-- An entry modified this close to the index write cannot trust its cache. -/
def RACY_WINDOW_NS : ℕ := 1000000000

/-- Drop the cache of an entry that may have changed after it was hashed: its time is not
safely before that of the index file. -/
def smudgeRacy (index_mtime_ns : ℕ) (e : IndexEntry) : IndexEntry :=
  if e.mtime_ns = 0 then e
  else
    let window :=
      if index_mtime_ns % 1000000000 ≠ 0 ∧ e.mtime_ns.toNat % 1000000000 ≠ 0 then
        RACY_WINDOW_NS / 100
      else RACY_WINDOW_NS
    if e.mtime_ns.toNat ≥ index_mtime_ns - window then
      { e with mtime_ns := 0, size := 0, ino := 0, ctime_ns := 0 }
    else e

/-- Read the index of a worktree; no file is an empty index, an empty file is corrupt. -/
def readIndex (path : Path) : Except IndexError (List IndexEntry) := do
  match ← (present path.openFile).mapError fun _ => .io with
  | none => pure []
  | some node =>
    if node.len = 0 then .error .corrupt
    else if node.len > MAX_INDEX_BYTES then .error .tooLarge
    else do
      let bytes ← path.read.mapError fun _ => .io
      let entries ← deserializeIndex B bytes
      pure (entries.map (smudgeRacy (min node.mtime (2 ^ 64 - 1))))

end Read

end Mkit
