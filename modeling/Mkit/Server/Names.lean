import Mkit.Lib.Text
import Mkit.Refs

/-!
# Names the Server Stores

The texts a stored key or value may hold: repository names, namespaces, repository identities
and served ref names, each with the grammar that admits it. A text whose grammar is part of its
type carries the check as a field.
-/

namespace Mkit.Server

/-- A key of the store. -/
abbrev Key := Bytes

/-- A value of the store. -/
abbrev Value := Bytes

/-- Longest accepted key, in bytes. -/
def MAX_KEY_BYTES : ℕ := 1024

/-- Longest accepted value, in bytes; below `MAX_BATCH_BYTES`. -/
def MAX_VALUE_BYTES : ℕ := 512 * 1024

/-- Why a storage call failed. A failed precondition is not an error. -/
inductive StoreError where
  /-- The request breaks the contract. -/
  | invalid (what : String)
  /-- The store's capabilities exclude the request. -/
  | unsupported (what : String)
  /-- A stored value failed to decode. -/
  | corrupt (what : String)
  /-- The partition is at its storage cap. -/
  | full
deriving DecidableEq

/-- A `String`: bytes that are valid UTF-8. -/
structure Str where
  bytes : Bytes
  valid : Text.isUtf8 bytes = true
deriving DecidableEq

@[ext] theorem Str.ext {a b : Str} (h : a.bytes = b.bytes) : a = b := by
  cases a
  cases b
  simpa using h

/-- `String::from_utf8`. -/
def Str.fromUtf8 (bs : Bytes) : Option Str :=
  if h : Text.isUtf8 bs = true then some ⟨bs, h⟩ else none

/-- Two strings put together. -/
def Str.append (a b : Str) : Str :=
  ⟨a.bytes ++ b.bytes, Text.isUtf8_append a.valid b.valid⟩

/-- Longest repository name, in bytes. -/
def MAX_REPO_NAME_BYTES : ℕ := 255

/-- The grammar of repository names: printable ASCII without whitespace. -/
def isRepoName (name : Bytes) : Bool :=
  !name.isEmpty && name.length ≤ MAX_REPO_NAME_BYTES && name.all fun b => 0x21 ≤ b && b ≤ 0x7e

/-- A repository name. -/
structure RepoName where
  name : Bytes
  valid : isRepoName name = true
deriving DecidableEq

@[ext] theorem RepoName.ext {a b : RepoName} (h : a.name = b.name) : a = b := by
  cases a
  cases b
  simpa using h

/-- Validate a name. -/
def RepoName.new (name : Bytes) : Except String RepoName :=
  if h : isRepoName name = true then .ok ⟨name, h⟩
  else .error "repository name must be 1-255 printable ASCII bytes without whitespace"

/-- A namespace key. It selects the namespace coordinator and prefixes every shard key. -/
structure NamespaceKey where
  key : Str
deriving DecidableEq

/-- A key read back from storage. -/
def NamespaceKey.fromStored (key : Str) : NamespaceKey :=
  ⟨key⟩

/-- The namespace of deployments without namespaces: the reserved `root`. -/
def NamespaceKey.deploymentDefault : NamespaceKey :=
  ⟨ascii ['r', 'o', 'o', 't'], by decide⟩

/-! ### Repository identities -/

/-- Longest valid identity in bytes. -/
def MAX_IDENTITY_LEN : ℕ := 173

/-- Longest valid repository name of an identity, in bytes. -/
def MAX_NAME_LEN : ℕ := 100

/-- Longest authority-mode namespace in bytes. -/
def MAX_OPAQUE_NAMESPACE_LEN : ℕ := 72

/-- `ed25519-`. -/
def ED25519_PREFIX : Bytes :=
  ascii ['e', 'd', '2', '5', '5', '1', '9', '-']

/-- `0x`. -/
def ADDRESS_PREFIX : Bytes :=
  ascii ['0', 'x']

/-- Why a string is not an identity. -/
inductive IdentityError where
  | tooLong
  | namespace
  | name
  | bareName
deriving DecidableEq

/-- A self-certifying namespace. -/
inductive OwnerNamespace where
  /-- Owned by that Ed25519 public key. -/
  | ed25519 (key : ByteArr 32)
  /-- Owned by any key whose derived address matches. -/
  | address (addr : ByteArr 20)
deriving DecidableEq

/-- Lowercase fixed-length hex digits. -/
def isHex (value : Bytes) (bytes : ℕ) : Bool :=
  value.length == bytes * 2 &&
    value.all fun b => (0x30 ≤ b && b ≤ 0x39) || (0x61 ≤ b && b ≤ 0x66)

/-- Lowercase fixed-length hex into `n` bytes. -/
def decodeHex (n : ℕ) (hex : Bytes) : Except IdentityError (ByteArr n) :=
  if !isHex hex n then .error .namespace
  else .ok (.pad n ((joinNibbles lowercaseNibble hex).getD []))

/-- Parse the canonical lowercase text form. -/
def OwnerNamespace.parse (s : Bytes) : Except IdentityError OwnerNamespace :=
  if ED25519_PREFIX.isPrefixOf s then
    (decodeHex 32 (s.drop ED25519_PREFIX.length)).map .ed25519
  else if ADDRESS_PREFIX.isPrefixOf s then
    (decodeHex 20 (s.drop ADDRESS_PREFIX.length)).map .address
  else .error .namespace

/-- The first byte of a name. -/
def isNameLead (b : UInt8) : Bool :=
  (0x61 ≤ b && b ≤ 0x7a) || (0x30 ≤ b && b ≤ 0x39)

/-- A later byte of a name: a first byte, `.`, `_` or `-`. -/
def isNameTail (b : UInt8) : Bool :=
  isNameLead b || b == 0x2e || b == 0x5f || b == 0x2d

/-- Validate the name of an identity. -/
def validateName : Bytes → Except IdentityError Unit
  | first :: rest =>
    if rest.length + 1 ≤ MAX_NAME_LEN && isNameLead first && rest.all isNameTail then .ok ()
    else .error .name
  | [] => .error .name

/-- An opaque namespace, which certifies no owner. -/
def parseOpaqueNamespace (s : Bytes) : Except IdentityError Bytes := do
  if MAX_OPAQUE_NAMESPACE_LEN < s.length || s == ascii ['r', 'o', 'o', 't'] ||
      ED25519_PREFIX.isPrefixOf s || ADDRESS_PREFIX.isPrefixOf s then
    throw .namespace
  match validateName s with
  | .ok () => pure s
  | .error _ => throw .namespace

/-- A validated namespace with explicit ownership semantics. -/
inductive Namespace where
  | selfCertifying (ns : OwnerNamespace)
  | authority (name : Bytes)
deriving DecidableEq

/-- Parse either grammar for a stored selector. -/
def Namespace.parseStored (text : Bytes) : Except IdentityError Namespace :=
  match OwnerNamespace.parse text with
  | .ok ns => .ok (.selfCertifying ns)
  | .error _ => (parseOpaqueNamespace text).map .authority

/-- A server repository identity. -/
structure RepositoryIdentity where
  ns : Option Namespace
  name : Bytes
deriving DecidableEq

/-- `str::split_once('/')`. -/
def splitOnceSlash (text : Bytes) : Option (Bytes × Bytes) :=
  match text.span (· != SLASH) with
  | (_, []) => none
  | (head, _ :: tail) => some (head, tail)

/-- Parse either grammar for a stored identity; a bare name is allowed. -/
def RepositoryIdentity.parseStoredBareAllowed (text : Bytes) :
    Except IdentityError RepositoryIdentity := do
  if MAX_IDENTITY_LEN < text.length then throw .tooLong
  match splitOnceSlash text with
  | some (ns, name) => do
    let ns ← Namespace.parseStored ns
    validateName name
    pure ⟨some ns, name⟩
  | none => do
    validateName text
    pure ⟨none, text⟩

/-! ### Refs the server serves -/

/-- `refs/`. -/
def SERVED_REFS_PREFIX : Bytes :=
  ascii ['r', 'e', 'f', 's', '/']

/-- The grammar of ref names and its length bound. -/
def validateRefName (name : Bytes) : Bool :=
  name.length ≤ MAX_REF_NAME_BYTES && validateRefNameGrammar name

/-- Is the ref one the server serves? -/
def isServedRefName (name : Bytes) : Bool :=
  SERVED_REFS_PREFIX.isPrefixOf name && validateRefName name

end Mkit.Server
