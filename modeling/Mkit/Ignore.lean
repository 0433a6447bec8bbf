import Mathlib.Data.List.DropRight
import Mkit.Object

/-!
# Ignore Patterns

The ignore matcher (`ignore.rs`): a pattern is parsed from a line of an ignore file, and matched
against the segments of a path. Three recursions are nested: over the segments, where `**` tries
every number of path segments; over the bytes of a segment, where `*` tries every length; and over
the items of a character class. A pattern of one segment that may match at any depth takes a
shortcut past the first two.

Patterns and paths are UTF-8 texts in the source; every test made on them is on an ASCII byte, so
they are byte strings here.
-/

namespace Mkit.Ignore

def STAR : UInt8 := 0x2a
def QUESTION : UInt8 := 0x3f
def OPEN : UInt8 := 0x5b
def CLOSE : UInt8 := 0x5d
def ESCAPE : UInt8 := 0x5c
def BANG : UInt8 := 0x21
def CARET : UInt8 := 0x5e
def DASH : UInt8 := 0x2d
def SLASH : UInt8 := 0x2f
def HASH : UInt8 := 0x23
def SPACE : UInt8 := 0x20
def NEWLINE : UInt8 := 0x0a
def RETURN : UInt8 := 0x0d

/-! ### Matching -/

/-- The members of a class from index `i` on; `text` is the pattern behind `i`. A `]` closes the
class unless it is the first member. -/
def scanClass (ch : Option UInt8) (negate : Bool) (start : ℕ) :
    ℕ → Bool → Bytes → Option (Bool × ℕ)
  | _, _, [] => none
  | i, matched, c :: text =>
    if c = CLOSE ∧ start < i then some (ch.isSome && (matched ^^ negate), i + 1)
    else match text with
      | dash :: hi :: rest =>
        if dash = DASH ∧ hi ≠ CLOSE then
          scanClass ch negate start (i + 3)
            (matched || ch.any fun b => decide (c ≤ b) && decide (b ≤ hi)) rest
        else scanClass ch negate start (i + 1) (matched || ch == some c) (dash :: hi :: rest)
      | [dash] => scanClass ch negate start (i + 1) (matched || ch == some c) [dash]
      | [] => none
termination_by structural _ _ text => text

/-- Evaluate a `[...]` class at the front of `p` against `ch`: whether it matched and how many
bytes it takes with its brackets, or `none` when it has no closing `]`. -/
def matchClass (p : Bytes) (ch : Option UInt8) : Option (Bool × ℕ) :=
  let negate := p[1]? = some BANG ∨ p[1]? = some CARET
  let start := if negate then 2 else 1
  scanClass ch negate start start false (p.drop start)

theorem lt_of_scanClass {ch : Option UInt8} {negate : Bool} {start i : ℕ} {matched : Bool}
    {text : Bytes} {r : Bool × ℕ} (h : scanClass ch negate start i matched text = some r) :
    i < r.2 := by
  fun_induction scanClass ch negate start i matched text with
  | case1 => cases h
  | case2 => 
    obtain rfl := Option.some.inj h
    exact Nat.lt_succ_self _
  | case3 i matched c _ dash hi rest _ ih => exact lt_trans (by omega) (ih h)
  | case4 i matched c _ dash hi rest _ ih => exact lt_trans (by omega) (ih h)
  | case5 i matched c _ dash ih => exact lt_trans (by omega) (ih h)
  | case6 => cases h

theorem one_lt_of_matchClass {p : Bytes} {ch : Option UInt8} {r : Bool × ℕ}
    (h : matchClass p ch = some r) : 1 < r.2 := by
  refine lt_of_le_of_lt ?_ (lt_of_scanClass h)
  split_ifs <;> omega

/-- Match a path segment against a single-level glob. -/
def segmentMatch : Bytes → Bytes → Bool
  | [], s => s.isEmpty
  | c :: rest, s =>
    if c = STAR then
      (List.range (s.length + 1)).any fun i =>
        segmentMatch (rest.dropWhile (· = STAR)) (s.drop i)
    else if c = QUESTION then !s.isEmpty && segmentMatch rest (s.drop 1)
    else if c = OPEN then
      match _h : matchClass (c :: rest) s.head? with
      | some (matched, plen) => matched && segmentMatch ((c :: rest).drop plen) (s.drop 1)
      -- A class without a closing `]` is a literal `[`.
      | none => decide (s.head? = some OPEN) && segmentMatch rest (s.drop 1)
    else if c = ESCAPE then
      match rest with
      | c :: rest => decide (s.head? = some c) && segmentMatch rest (s.drop 1)
      | [] => decide (s.head? = some ESCAPE ∧ s.length = 1)
    else decide (s.head? = some c) && segmentMatch rest (s.drop 1)
termination_by p => p.length
decreasing_by
  · have hstars := (List.dropWhile_suffix (· = STAR) : rest.dropWhile (· = STAR) <:+ rest)
    exact Nat.lt_succ_of_le hstars.length_le
  · simp
  · have hplen := one_lt_of_matchClass _h
    simp only [List.length_drop, List.length_cons] at hplen ⊢
    omega
  · simp
  · simp only [List.length_cons]
    omega
  · simp

/-- A `**` segment, which crosses `/`, or a single-level glob. -/
inductive Segment where
  | doubleStar
  | glob (g : Bytes)
deriving DecidableEq

/-- Match a list of segments against a path. -/
def matchSegments : List Segment → List Bytes → Bool
  | [], path => path.isEmpty
  | .doubleStar :: rest, path =>
    -- A trailing `**` matches one or more segments, any other zero or more.
    if rest.isEmpty then !path.isEmpty
    else (List.range (path.length + 1)).any fun k => matchSegments rest (path.drop k)
  | .glob _ :: _, [] => false
  | .glob g :: rest, first :: tail => segmentMatch g first && matchSegments rest tail

/-! ### Patterns -/

/-- The shape of a pattern that only the last path segment decides. -/
inductive BasenameKind where
  | literal (s : Bytes)
  | suffix (s : Bytes)
  | prefixed (s : Bytes)
  | glob (g : Bytes)
deriving DecidableEq

def BasenameKind.matches : BasenameKind → Bytes → Bool
  | .literal s, base => base = s
  | .suffix s, base => s.isSuffixOf base
  | .prefixed s, base => s.isPrefixOf base
  | .glob g, base => segmentMatch g base

def isSpecial (b : UInt8) : Bool :=
  b = STAR ∨ b = QUESTION ∨ b = OPEN ∨ b = ESCAPE

def hasSpecial (s : Bytes) : Bool :=
  s.any isSpecial

/-- `str::strip_prefix` of one ASCII character. -/
def stripFirst (b : UInt8) (s : Bytes) : Option Bytes :=
  if s.head? = some b then some s.tail else none

/-- `str::strip_suffix` of one ASCII character. -/
def stripLast (b : UInt8) (s : Bytes) : Option Bytes :=
  if s.getLast? = some b then some s.dropLast else none

/-- Classify a single-segment glob. -/
def classifyBasenameGlob (g : Bytes) : BasenameKind :=
  if ¬ hasSpecial g then .literal g
  else match (stripFirst STAR g).filter (¬ hasSpecial ·) with
    | some rest => .suffix rest
    | none =>
      match (stripLast STAR g).filter fun start => start ≠ [] ∧ ¬ hasSpecial start with
      | some start => .prefixed start
      | none => .glob g

/-- A single ignore pattern with its modifiers. -/
structure Pattern where
  pattern : Bytes
  negated : Bool
  dirOnly : Bool
  anchored : Bool
  segments : List Segment
  basenameKind : Option BasenameKind
deriving DecidableEq

def Pattern.matches (pattern : Pattern) (path : List Bytes) : Bool :=
  match pattern.basenameKind with
  | some kind => path.getLast?.any kind.matches
  | none => matchSegments pattern.segments path

def DOUBLE_STAR : Bytes := [STAR, STAR]

def Segment.of (s : Bytes) : Segment :=
  if s = DOUBLE_STAR then .doubleStar else .glob s

/-- Build a pattern from a body. -/
def finishPattern (body : Bytes) (negated : Bool) : Option Pattern :=
  let dirOnly := (stripLast SLASH body).isSome
  let body := (stripLast SLASH body).getD body
  if body = [] then none
  else
    let anchored := decide (SLASH ∈ body)
    let core := (stripFirst SLASH body).getD body
    if core = [] then none
    else
      let basenameKind :=
        if ¬ anchored ∧ core ≠ DOUBLE_STAR then some (classifyBasenameGlob core) else none
      let segments := ((core.splitOn SLASH).filter (· ≠ [])).map Segment.of
      if segments = [] then none
      else
        some ⟨core, negated, dirOnly, anchored,
          if anchored then segments else .doubleStar :: segments, basenameKind⟩

/-- Parse one line; blanks and comments have no pattern. -/
def parseLine (line : Bytes) : Option Pattern :=
  if line = [] ∨ line.head? = some HASH then none
  else
    let line := line.rdropWhile (· = SPACE)
    if line = [] then none
    else if line.head? = some BANG then finishPattern line.tail true
    else if line.take 2 = [ESCAPE, BANG] then finishPattern (BANG :: line.drop 2) false
    else if line.take 2 = [ESCAPE, HASH] then finishPattern (HASH :: line.drop 2) false
    else finishPattern line false

/-- Parse the content of an ignore file. -/
def parse (content : Bytes) : List Pattern :=
  (content.splitOn NEWLINE).filterMap fun raw => parseLine ((stripLast RETURN raw).getD raw)

/-! ### Ignored paths -/

/-- `str::trim_matches` of `/`. -/
def trimSlashes (relPath : Bytes) : Bytes :=
  (relPath.dropWhile (· = SLASH)).rdropWhile (· = SLASH)

/-- The segments of a path. -/
def pathSegments (relPath : Bytes) : List Bytes :=
  ((trimSlashes relPath).splitOn SLASH).filter (· ≠ [])

def MKIT_DIR : Bytes := ascii ".mkit".toList
def GIT_DIR : Bytes := ascii ".git".toList

/-- The paths that are always ignored, by their last segment. -/
def isReserved (relPath : Bytes) : Bool :=
  let base := ((trimSlashes relPath).splitOn SLASH).getLastD []
  eqIgnoreAsciiCase base MKIT_DIR || eqIgnoreAsciiCase base GIT_DIR

/-- Whether a path is ignored; the last pattern that matches decides. -/
def isIgnored (patterns : List Pattern) (relPath : Bytes) (isDir : Bool) : Bool :=
  if isReserved relPath then true
  else
    let path := pathSegments relPath
    if path = [] then false
    else match patterns.reverse.find? fun p => !(p.dirOnly && !isDir) && p.matches path with
      | some p => !p.negated
      | none => false

end Mkit.Ignore
