import Mkit.Object

/-!
# Bindings and Refusals

The identities the verification primitives exchange with their host — repositories, immutable
sources, rulesets, observation revisions — and the refusal every primitive returns: a stable
code, the frame or offset it concerns, and a bounded detail.
-/

namespace Mkit

/-- A logical repository, independent of storage routing. -/
abbrev RepositoryId := Hash

/-- An immutable source version supplied by the caller. -/
abbrev SourceBinding := Hash

/-- A logical revision from an authoritative host observation. -/
abbrev Revision := Hash

/-- The exact identity, length and immutable version of a pack. -/
structure PackSource where
  id : Hash
  len : UInt64
  binding : SourceBinding
deriving DecidableEq

/-- The semantic verification profile. -/
inductive ProfileId where
  | indexed
deriving DecidableEq

/-- The ruleset and profile a result establishes. -/
structure RulesetBinding where
  ruleset : UInt32
  profile : ProfileId
deriving DecidableEq

/-- A repository-scoped verified member, as a trusted host supplies it. -/
structure MemberFact where
  repository : RepositoryId
  incarnation : Revision
  object : Hash
  kind : ObjectType
  canonicalLen : UInt64
  supplier : PackSource
  canonicalBinding : SourceBinding
  revision : Revision
  deltaDepth : UInt32
  published : Bool
  held : Bool
deriving DecidableEq

/-! ### Refusals -/

/-- Stable refusal categories. -/
inductive FailureCode where
  | invalidMagic
  | unsupportedPackVersion
  | unexpectedEof
  | invalidEntryType
  | tooManyObjects
  | packfileTooLarge
  | packfileCorrupted
  | zstdEntryTruncated
  | deltaEntryTruncated
  | nonStorableObject
  | trailingData
  | decompressionFailed
  | decompressedSizeMismatch
  | decompressionLimitExceeded
  | invalidDelta
  | deltaBaseMismatch
  | deltaSizeMismatch
  | nonCanonicalObject
  | objectHashMismatch
  | badSignature
  | deltaChainTooDeep
  | externalDeltaChainTooDeep
  | externalBaseAbsent
  | packfileTooShort
  | missingClosure
  | wrongKind
  | packmapCycle
  | resourceLimit
  | unavailableInput
  | invalidResponse
  | invalidCheckpoint
  | sourceChanged
  | unsupportedCapability
  | checkpointNotReady
  | invalidRefRequest
  | forkSourceNotFound
  | forkDestinationNotEmpty
  | forkPermissionDenied
  | forkVisibilityMismatch
  | forkReservationSettled
  | forkExpired
  | forkQuotaExceeded
  | forkBindingMismatch
  | forkLifecycleUnavailable
  | invalidEnvelope
  | claimsBindingMismatch
  | unsupportedEvidenceVersion
  | evidenceProfileMismatch
  | nonCanonicalEvidence
  | evidenceBindingMismatch
  | evidenceHeadMismatch
  | unsupportedRuleset
  | invalidEvidence
  | evidenceMismatch
deriving DecidableEq

/-- Where a refusal happened, when known. -/
structure Location where
  ordinal : Option UInt64
  offset : Option UInt64
deriving DecidableEq

/-- Fixed-size diagnostic context. -/
inductive BoundedDetail where
  | none
  | bounds (expected actual : UInt64)
deriving DecidableEq

/-- A refusal with a stable code and bounded attribution. -/
structure Failure where
  code : FailureCode
  location : Location
  detail : BoundedDetail
deriving DecidableEq

/-- A refusal that names no frame and no bounds. -/
def failure (code : FailureCode) : Failure :=
  ⟨code, ⟨none, none⟩, .none⟩

section Refusals

variable {ε : Type} {c : Prop} [Decidable c] {e : ε}

/-- The early return `if c { return Err(e) }`. -/
def refuseIf (c : Prop) [Decidable c] (e : ε) : Except ε Unit :=
  if c then .error e else .ok ()

@[simp] theorem refuseIf_eq_ok {u : Unit} : refuseIf c e = .ok u ↔ ¬ c := by
  rw [refuseIf]
  split <;> simp_all

/-- What follows an early return runs when the condition fails. -/
@[simp] theorem refuseIf_bind_eq_ok {α : Type} {f : Unit → Except ε α} {a : α} :
    (refuseIf c e >>= f) = .ok a ↔ ¬ c ∧ f () = .ok a := by
  simp only [Wire.bind_eq_ok, refuseIf_eq_ok]
  exact ⟨fun ⟨_, h⟩ => h, fun h => ⟨(), h⟩⟩

/-- `Option::ok_or`. -/
def okOr {α : Type} (e : ε) : Option α → Except ε α
  | some a => .ok a
  | none => .error e

@[simp] theorem okOr_eq_ok {α : Type} {o : Option α} {a : α} : okOr e o = .ok a ↔ o = some a := by
  cases o <;> simp [okOr]

end Refusals

end Mkit
