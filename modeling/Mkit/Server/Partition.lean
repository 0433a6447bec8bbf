import Mathlib.Data.Prod.Lex
import Mkit.Lib.SortedMap
import Mkit.Server.Names

/-!
# Storage Partitions

A partition is one shard: everything that must commit atomically lives in one. Backends name a
partition by its encoding, and partitions are ordered as the source orders them: by kind, then by
their components.
-/

namespace Mkit.Server

/-- A storage partition. -/
inductive Partition where
  /-- The whole namespace: single-partition mode. -/
  | ofNamespace (ns : NamespaceKey)
  /-- The namespace coordinator. -/
  | coordinator (ns : NamespaceKey)
  /-- One per (repository, ref). -/
  | ref (ns : NamespaceKey) (repo : RepoName) (shardRef : Str)
  /-- Repository membership by object-id prefix. -/
  | repoIndex (ns : NamespaceKey) (repo : RepoName) (bucket : UInt16)
  /-- The ref-name index. -/
  | refIndex (ns : NamespaceKey) (repo : RepoName) (bucket : UInt16)
  /-- A global content index shard. -/
  | contentShard (bucket : UInt16)
deriving DecidableEq

namespace Partition

/-- What a partition is compared by: its kind and its components. -/
def rank : Partition → ℕ ×ₗ Bytes ×ₗ Bytes ×ₗ Bytes ×ₗ ℕ
  | .ofNamespace ns => toLex (0, toLex (ns.key.bytes, toLex ([], toLex ([], 0))))
  | .coordinator ns => toLex (1, toLex (ns.key.bytes, toLex ([], toLex ([], 0))))
  | .ref ns repo shardRef =>
    toLex (2, toLex (ns.key.bytes, toLex (repo.name, toLex (shardRef.bytes, 0))))
  | .repoIndex ns repo bucket =>
    toLex (3, toLex (ns.key.bytes, toLex (repo.name, toLex ([], bucket.toNat))))
  | .refIndex ns repo bucket =>
    toLex (4, toLex (ns.key.bytes, toLex (repo.name, toLex ([], bucket.toNat))))
  | .contentShard bucket => toLex (5, toLex ([], toLex ([], toLex ([], bucket.toNat))))

theorem rank_injective : Function.Injective rank := by
  intro p q h
  have hns : ∀ {n m : NamespaceKey}, n.key.bytes = m.key.bytes → n = m := by
    rintro ⟨n⟩ ⟨m⟩ h
    exact congrArg _ (Str.ext h)
  cases p <;> cases q <;> simp [rank, UInt16.toNat_inj] at h
  case ofNamespace => exact congrArg _ (hns h)
  case coordinator => exact congrArg _ (hns h)
  case ref => rw [hns h.1, RepoName.ext h.2.1, Str.ext h.2.2]
  case repoIndex => rw [hns h.1, RepoName.ext h.2.1, h.2.2]
  case refIndex => rw [hns h.1, RepoName.ext h.2.1, h.2.2]
  case contentShard => rw [h]

instance : LinearOrder Partition :=
  LinearOrder.lift' rank rank_injective

/-- The tag and the components of an encoding. -/
def parts : Partition → UInt8 × List Bytes
  | .ofNamespace ns => (0x6e, [ns.key.bytes])
  | .coordinator ns => (0x63, [ns.key.bytes])
  | .ref ns repo shardRef => (0x72, [ns.key.bytes, repo.name, shardRef.bytes])
  | .repoIndex ns repo bucket =>
    (0x69, [ns.key.bytes, repo.name, Text.decimal bucket.toNat])
  | .refIndex ns repo bucket =>
    (0x78, [ns.key.bytes, repo.name, Text.decimal bucket.toNat])
  | .contentShard bucket => (0x73, [Text.decimal bucket.toNat])

/-- The portable encoding: a tag byte, then each component followed by `0x00`. -/
def encode (p : Partition) : Except StoreError Bytes :=
  if p.parts.2.any fun part => part.contains 0 then
    .error (.invalid "partition component contains 0x00")
  else .ok (p.parts.1 :: p.parts.2.flatMap fun part => part ++ [0])

/-- A number of an encoding, in its canonical form. -/
def int (s : Bytes) : Option UInt16 :=
  (Text.parseU16 s).filter fun n => Text.decimal n.toNat == s

/-- `strip_suffix(&[0])`. -/
def stripTerminator (bytes : Bytes) : Option Bytes :=
  if bytes.getLast? = some 0 then some bytes.dropLast else none

/-- The partition with a tag and components, if there is one. -/
def ofParts (tag : UInt8) : List Str → Option Partition
  | [a] =>
    if tag = 0x6e then some (.ofNamespace (.fromStored a))
    else if tag = 0x63 then some (.coordinator (.fromStored a))
    else if tag = 0x73 then (int a.bytes).map .contentShard
    else none
  | [a, b, c] => do
    let repo := (RepoName.new b.bytes).toOption
    if tag = 0x72 then return .ref (.fromStored a) (← repo) c
    else if tag = 0x69 then return .repoIndex (.fromStored a) (← repo) (← int c.bytes)
    else if tag = 0x78 then return .refIndex (.fromStored a) (← repo) (← int c.bytes)
    else none
  | _ => none

/-- Decode what `encode` wrote. -/
def decode (bytes : Bytes) : Except StoreError Partition :=
  match bytes with
  | [] => .error (.corrupt "malformed partition encoding")
  | tag :: body =>
    match (do
      let body ← stripTerminator body
      let parts ← (body.splitOn 0).mapM Str.fromUtf8
      ofParts tag parts : Option Partition) with
    | some p => .ok p
    | none => .error (.corrupt "malformed partition encoding")

/-! ### Encoding and decoding -/

theorem int_eq_some {s : Bytes} {n : UInt16} : int s = some n ↔ s = Text.decimal n.toNat := by
  rw [int, Option.filter_eq_some_iff, beq_iff_eq]
  constructor
  · rintro ⟨-, h⟩
    exact h.symm
  · rintro rfl
    exact ⟨Text.parseU16_decimal n, rfl⟩

theorem stripTerminator_eq_some {bytes body : Bytes} :
    stripTerminator bytes = some body ↔ bytes = body ++ [0] := by
  rw [stripTerminator]
  constructor
  · intro h
    split at h
    case isTrue hlast =>
      obtain rfl := Option.some.inj h
      obtain ⟨body, rfl⟩ := List.getLast?_eq_some_iff.1 hlast
      rw [List.dropLast_concat]
    case isFalse => cases h
  · rintro rfl
    simp

theorem RepoName.isUtf8 (repo : RepoName) : Text.isUtf8 repo.name = true := by
  refine Text.isUtf8_of_ascii fun b hb => ?_
  have hvalid := repo.valid
  simp only [isRepoName, Bool.and_eq_true, List.all_eq_true, decide_eq_true_eq] at hvalid
  have hle := UInt8.le_iff_toNat_le.1 (hvalid.2 b hb).2
  have hmax : (0x7e : UInt8).toNat = 126 := rfl
  omega

theorem isUtf8_decimal (n : ℕ) : Text.isUtf8 (Text.decimal n) = true :=
  Text.isUtf8_of_ascii fun b hb => by
    have hdigit := (Text.decimal_spec n).2 b hb
    omega

/-- The components are texts. -/
theorem isUtf8_of_mem_parts (p : Partition) : ∀ part ∈ p.parts.2, Text.isUtf8 part = true := by
  intro part hpart
  cases p <;> simp only [parts, List.mem_cons, List.not_mem_nil, or_false] at hpart
  case ofNamespace ns => exact hpart ▸ ns.key.valid
  case coordinator ns => exact hpart ▸ ns.key.valid
  case ref ns repo shardRef =>
    rcases hpart with rfl | rfl | rfl
    · exact ns.key.valid
    · exact RepoName.isUtf8 repo
    · exact shardRef.valid
  case repoIndex ns repo bucket =>
    rcases hpart with rfl | rfl | rfl
    · exact ns.key.valid
    · exact RepoName.isUtf8 repo
    · exact isUtf8_decimal _
  case refIndex ns repo bucket =>
    rcases hpart with rfl | rfl | rfl
    · exact ns.key.valid
    · exact RepoName.isUtf8 repo
    · exact isUtf8_decimal _
  case contentShard bucket => exact hpart ▸ isUtf8_decimal _

theorem Str.fromUtf8_eq_some {bs : Bytes} {s : Str} : Str.fromUtf8 bs = some s ↔ bs = s.bytes := by
  rw [Str.fromUtf8]
  constructor
  · intro h
    split at h
    case isTrue => rw [← Option.some.inj h]
    case isFalse => cases h
  · rintro rfl
    rw [dif_pos s.valid]

variable {strs : List Str}

theorem mapM_fromUtf8_eq_some {parts : List Bytes} :
    parts.mapM Str.fromUtf8 = some strs ↔ parts = strs.map Str.bytes := by
  induction parts generalizing strs with
  | nil => cases strs <;> simp
  | cons part rest ih =>
    rw [List.mapM_cons]
    cases strs with
    | nil => simp [Option.bind_eq_some_iff]
    | cons s strs =>
      simp only [Option.bind_eq_bind, Option.bind_eq_some_iff, Option.pure_def,
        Option.some.injEq, List.cons.injEq, Str.fromUtf8_eq_some, ih, List.map_cons]
      constructor
      · rintro ⟨s', hpart, strs', hrest, rfl, rfl⟩
        exact ⟨hpart, hrest⟩
      · rintro ⟨hpart, hrest⟩
        exact ⟨s, hpart, strs, hrest, rfl, rfl⟩

theorem RepoName.new_eq_ok {name : Bytes} {repo : RepoName} :
    RepoName.new name = .ok repo ↔ name = repo.name := by
  rw [RepoName.new]
  constructor
  · intro h
    split at h
    case isTrue => rw [← Except.ok.inj h]
    case isFalse => cases h
  · rintro rfl
    rw [dif_pos repo.valid]

theorem toOption_new_eq_some {name : Bytes} {repo : RepoName} :
    (RepoName.new name).toOption = some repo ↔ name = repo.name := by
  rw [← RepoName.new_eq_ok]
  cases RepoName.new name <;> simp [Except.toOption]

variable {p : Partition}

/-- The partition with a tag and components has that tag and those components. -/
theorem parts_of_ofParts {tag : UInt8}
    (h : ofParts tag strs = some p) : p.parts = (tag, strs.map Str.bytes) := by
  match strs with
  | [] => cases h
  | [a] =>
    rw [ofParts] at h
    split_ifs at h with hn hc hs
    · obtain rfl := Option.some.inj h
      rw [hn]
      rfl
    · obtain rfl := Option.some.inj h
      rw [hc]
      rfl
    · obtain ⟨n, hint, rfl⟩ := Option.map_eq_some_iff.1 h
      rw [hs, parts, ← int_eq_some.1 hint]
      rfl
  | [a, b] => cases h
  | [a, b, c] =>
    rw [ofParts] at h
    split_ifs at h with hr hi hx
    · obtain ⟨repo, hrepo, h⟩ := Option.bind_eq_some_iff.1 h
      obtain rfl := Option.some.inj h
      rw [hr, parts, ← toOption_new_eq_some.1 hrepo]
      rfl
    · obtain ⟨repo, hrepo, h⟩ := Option.bind_eq_some_iff.1 h
      obtain ⟨n, hint, h⟩ := Option.bind_eq_some_iff.1 h
      obtain rfl := Option.some.inj h
      rw [hi, parts, ← toOption_new_eq_some.1 hrepo, ← int_eq_some.1 hint]
      rfl
    · obtain ⟨repo, hrepo, h⟩ := Option.bind_eq_some_iff.1 h
      obtain ⟨n, hint, h⟩ := Option.bind_eq_some_iff.1 h
      obtain rfl := Option.some.inj h
      rw [hx, parts, ← toOption_new_eq_some.1 hrepo, ← int_eq_some.1 hint]
      rfl
  | _ :: _ :: _ :: _ :: _ => cases h

theorem exists_of_map_bytes_one {x : Bytes} (h : strs.map Str.bytes = [x]) :
    ∃ a, strs = [a] ∧ a.bytes = x := by
  match strs with
  | [] => cases h
  | [a] => exact ⟨a, rfl, (List.cons.inj h).1⟩
  | _ :: _ :: _ => cases h

theorem exists_of_map_bytes_three {x y z : Bytes} (h : strs.map Str.bytes = [x, y, z]) :
    ∃ a b c, strs = [a, b, c] ∧ a.bytes = x ∧ b.bytes = y ∧ c.bytes = z := by
  match strs with
  | [] => cases h
  | [a] => cases h
  | [a, b] => cases h
  | [a, b, c] =>
    simp only [List.map_cons, List.map_nil, List.cons.injEq, and_true] at h
    exact ⟨a, b, c, rfl, h⟩
  | _ :: _ :: _ :: _ :: _ => cases h

theorem NamespaceKey.fromStored_of_bytes {ns : NamespaceKey} {a : Str}
    (h : a.bytes = ns.key.bytes) : NamespaceKey.fromStored a = ns :=
  congrArg NamespaceKey.mk (Str.ext h)

/-- A tag and the components of a partition give the partition back. -/
theorem ofParts_of_parts {tag : UInt8}
    (h : p.parts = (tag, strs.map Str.bytes)) : ofParts tag strs = some p := by
  cases p with
  | ofNamespace ns =>
    obtain ⟨rfl, hstrs⟩ := Prod.mk.inj h
    obtain ⟨a, rfl, ha⟩ := exists_of_map_bytes_one hstrs.symm
    rw [ofParts, if_pos rfl, NamespaceKey.fromStored_of_bytes ha]
  | coordinator ns =>
    obtain ⟨rfl, hstrs⟩ := Prod.mk.inj h
    obtain ⟨a, rfl, ha⟩ := exists_of_map_bytes_one hstrs.symm
    rw [ofParts, if_neg (by decide), if_pos rfl, NamespaceKey.fromStored_of_bytes ha]
  | ref ns repo shardRef =>
    obtain ⟨rfl, hstrs⟩ := Prod.mk.inj h
    obtain ⟨a, b, c, rfl, ha, hb, hc⟩ := exists_of_map_bytes_three hstrs.symm
    rw [ofParts, if_pos rfl, toOption_new_eq_some.2 hb, NamespaceKey.fromStored_of_bytes ha,
      Str.ext hc]
    rfl
  | repoIndex ns repo bucket =>
    obtain ⟨rfl, hstrs⟩ := Prod.mk.inj h
    obtain ⟨a, b, c, rfl, ha, hb, hc⟩ := exists_of_map_bytes_three hstrs.symm
    rw [ofParts, if_neg (by decide), if_pos rfl, toOption_new_eq_some.2 hb,
      NamespaceKey.fromStored_of_bytes ha, int_eq_some.2 hc]
    rfl
  | refIndex ns repo bucket =>
    obtain ⟨rfl, hstrs⟩ := Prod.mk.inj h
    obtain ⟨a, b, c, rfl, ha, hb, hc⟩ := exists_of_map_bytes_three hstrs.symm
    rw [ofParts, if_neg (by decide), if_neg (by decide), if_pos rfl, toOption_new_eq_some.2 hb,
      NamespaceKey.fromStored_of_bytes ha, int_eq_some.2 hc]
    rfl
  | contentShard bucket =>
    obtain ⟨rfl, hstrs⟩ := Prod.mk.inj h
    obtain ⟨a, rfl, ha⟩ := exists_of_map_bytes_one hstrs.symm
    rw [ofParts, if_neg (by decide), if_neg (by decide), if_pos rfl, int_eq_some.2 ha]
    rfl

theorem parts_ne_nil (p : Partition) : p.parts.2 ≠ [] := by
  cases p <;> exact List.cons_ne_nil _ _

/-- The components of a partition as texts. -/
theorem exists_strs (p : Partition) : ∃ strs : List Str, p.parts.2 = strs.map Str.bytes := by
  have hvalid := isUtf8_of_mem_parts p
  generalize p.parts.2 = parts at hvalid
  induction parts with
  | nil => exact ⟨[], rfl⟩
  | cons part rest ih =>
    rw [List.forall_mem_cons] at hvalid
    obtain ⟨strs, rfl⟩ := ih hvalid.2
    exact ⟨⟨part, hvalid.1⟩ :: strs, rfl⟩

theorem encode_eq_ok {bytes : Bytes} : p.encode = .ok bytes ↔
      (∀ part ∈ p.parts.2, 0 ∉ part) ∧ bytes = p.parts.1 :: ([0].intercalate p.parts.2 ++ [0]) := by
  rw [encode, Text.flatMap_terminated 0 p.parts_ne_nil]
  by_cases h : ∀ part ∈ p.parts.2, 0 ∉ part
  · have hany : (p.parts.2.any fun part => part.contains 0) = false := by
      simpa using h
    rw [hany, if_neg (by decide), Except.ok.injEq]
    exact ⟨fun heq => ⟨h, heq.symm⟩, fun heq => heq.2.symm⟩
  · have hany : (p.parts.2.any fun part => part.contains 0) = true := by
      simpa using h
    rw [hany, if_pos rfl]
    exact ⟨nofun, fun heq => absurd heq.1 h⟩

/-- Decoding undoes encoding and accepts nothing else. -/
theorem decode_iff_encode {bytes : Bytes} : decode bytes = .ok p ↔ p.encode = .ok bytes := by
  rw [encode_eq_ok]
  cases bytes with
  | nil => exact ⟨nofun, fun h => nomatch h.2⟩
  | cons tag body =>
    have hdecode : decode (tag :: body) = .ok p ↔
        ∃ inner strs, stripTerminator body = some inner ∧
          (inner.splitOn 0).mapM Str.fromUtf8 = some strs ∧ ofParts tag strs = some p := by
      rw [decode]
      simp only [Option.bind_eq_bind]
      cases hstrip : stripTerminator body with
      | none => simp
      | some inner =>
        cases hstrs : (inner.splitOn 0).mapM Str.fromUtf8 with
        | none => simp [hstrs]
        | some strs => cases hp : ofParts tag strs <;> simp [hstrs, hp]
    rw [hdecode]
    constructor
    · rintro ⟨inner, strs, hstrip, hstrs, hp⟩
      have hparts := parts_of_ofParts hp
      have hsplit := mapM_fromUtf8_eq_some.1 hstrs
      rw [hparts, ← hsplit, List.intercalate_splitOn, ← stripTerminator_eq_some.1 hstrip]
      exact ⟨fun part hpart => Text.notMem_of_mem_splitOn hpart, rfl⟩
    · rintro ⟨hfree, hbytes⟩
      obtain ⟨rfl, rfl⟩ := List.cons.inj hbytes
      obtain ⟨strs, hstrs⟩ := p.exists_strs
      refine ⟨_, strs, stripTerminator_eq_some.2 rfl, ?_, ofParts_of_parts (Prod.ext rfl hstrs)⟩
      rw [List.splitOn_intercalate 0 hfree p.parts_ne_nil, mapM_fromUtf8_eq_some, hstrs]

end Partition

end Mkit.Server
