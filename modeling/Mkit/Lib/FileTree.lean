import Mathlib.Data.List.Basic

/-!
# A File Tree, Read Only

What the file system shows of a directory to a program that only reads it: files, directories
and links, and the places where reading fails. Names and contents are byte strings.

A path is given by what lies there, `Path`: the entry itself (a link is not followed until the
path is used), or the error of reaching it. Errors are told apart only as far as readers do:
nothing there, or any other failure.
-/

namespace FileTree

/-- Why an operation on a path failed. -/
inductive IoError where
  | notFound
  | other
deriving DecidableEq

/-- An entry of a directory. -/
inductive Node where
  /-- A regular file: its content, its modification time in nanoseconds (0 when unknown), and
  whether it can be read. -/
  | file (data : List UInt8) (mtime : ℕ) (readable : Bool)
  /-- A directory: its own length, whether it can be listed, and its entries in the order the
  file system lists them. -/
  | dir (len : ℕ) (listable : Bool) (entries : List (List UInt8 × Node))
  /-- A symbolic link that leads to `target`. -/
  | symlink (target : Node)
  /-- A symbolic link that leads nowhere. -/
  | dangling
  /-- A socket, a device or the like; reading it as a file or a directory fails. -/
  | special
  /-- An entry of which not even the kind can be learned. -/
  | fault

/-- What lies at a path. -/
abbrev Path := Except IoError Node

namespace Node

/-- Follow links to what they lead to. -/
def follow : Node → Path
  | .symlink target => follow target
  | .dangling => .error .notFound
  | .fault => .error .other
  | node => .ok node

/-- The length of what was reached. -/
def len : Node → ℕ
  | .file data _ _ => data.length
  | .dir n _ _ => n
  | _ => 0

/-- The modification time of what was reached. -/
def mtime : Node → ℕ
  | .file _ t _ => t
  | _ => 0

end Node

namespace Path

/-- `fs::metadata`: links are followed. -/
def metadata (p : Path) : Path :=
  p >>= Node.follow

/-- `File::open` for reading. Opening a directory succeeds; reading from it does not. -/
def openFile (p : Path) : Path := do
  match ← p.metadata with
  | .file _ _ false => .error .other
  | node => .ok node

/-- `fs::read`. -/
def read (p : Path) : Except IoError (List UInt8) := do
  match ← p.metadata with
  | .file data _ true => .ok data
  | _ => .error .other

/-- `fs::read_dir`: the entries with their names. -/
def readDir (p : Path) : Except IoError (List (List UInt8 × Node)) := do
  match ← p.metadata with
  | .dir _ true entries => .ok entries
  | _ => .error .other

/-- `Path::is_dir`, which takes every failure for a no. -/
def isDir (p : Path) : Bool :=
  match p.metadata with
  | .ok (.dir _ _ _) => true
  | _ => false

/-- The entry `name` of the directory at `p`. -/
def join (p : Path) (name : List UInt8) : Path := do
  match ← p.metadata with
  | .dir _ _ entries =>
    match entries.lookup name with
    | some node => .ok node
    | none => .error .notFound
  | _ => .error .other

/-- Descend along a list of names. -/
def joinAll (p : Path) (names : List (List UInt8)) : Path :=
  names.foldl join p

end Path

/-- Take "nothing there" for an answer rather than a failure. -/
def present {α : Type} : Except IoError α → Except IoError (Option α)
  | .ok a => .ok (some a)
  | .error .notFound => .ok none
  | .error .other => .error .other

/-- A reader that goes on from `present` succeeds on what was found or on nothing there. -/
theorem bind_present_eq_ok {α β ε : Type} {x : Except IoError α} {g : IoError → ε}
    {k : Option α → Except ε β} {out : β} : ((present x).mapError g >>= k) = .ok out ↔
      (∃ a, x = .ok a ∧ k (some a) = .ok out) ∨ (x = .error .notFound ∧ k none = .ok out) := by
  rcases x with (_ | _) | a <;> simp [present, Except.mapError, bind, Except.bind]

/-- Read a file of at most `cap` bytes, by its length first; a longer one is an error. -/
def Path.readCapped (p : Path) (cap : ℕ) : Except IoError (List UInt8) := do
  let node ← p.metadata
  if node.len > cap then .error .other else p.read

end FileTree
