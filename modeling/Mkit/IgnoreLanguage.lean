import Mkit.Ignore
import Mkit.Lib.Wildcard

/-!
# The Language of Ignore Patterns

What a pattern denotes is said without the matcher: a glob denotes a language of byte strings
(`Denotes`), product of the languages of its pieces, and a list of segments a language of paths
(`segmentsLanguage`). The matcher is compared with both, level by level.

## Main results

* `ignore_matches_language` — a glob denotes one language, which the segment matcher decides; a
  parsed pattern decides the paths that its segments denote, with the shortcut or without; and the
  last pattern that applies decides whether a path is ignored, `.mkit` and `.git` apart.
-/

namespace Mkit.Ignore

/-! ### The language of a glob -/

open Wildcard

/-- A member of a class. -/
inductive ClassItem where
  | single (c : UInt8)
  | span (lo hi : UInt8)

def ClassItem.holds : ClassItem → UInt8 → Bool
  | .single c, b => b = c
  | .span lo hi, b => lo ≤ b ∧ b ≤ hi

/-- What follows a member makes it the start of a range: a `-` is literal before the closing `]`. -/
def ContinuesSpan (text : Bytes) : Prop :=
  ∃ hi rest, text = DASH :: hi :: rest ∧ hi ≠ CLOSE

/-- The members of a class up to its closing `]`, and what follows that. Only the first member may
start with a `]`. -/
inductive Items : Bool → Bytes → List ClassItem → Bytes → Prop
  | close (rest : Bytes) : Items false (CLOSE :: rest) [] rest
  | span {isFirst : Bool} {lo hi : UInt8} {text rest : Bytes} {items : List ClassItem}
      (hlo : isFirst = false → lo ≠ CLOSE) (hhi : hi ≠ CLOSE) (h : Items false text items rest) :
      Items isFirst (lo :: DASH :: hi :: text) (.span lo hi :: items) rest
  | single {isFirst : Bool} {c : UInt8} {text rest : Bytes} {items : List ClassItem}
      (hc : isFirst = false → c ≠ CLOSE) (hspan : ¬ ContinuesSpan text)
      (h : Items false text items rest) : Items isFirst (c :: text) (.single c :: items) rest

/-- A class at the front of a pattern: whether it is negated, its members, and what follows. -/
inductive ClassText : Bytes → Bool → List ClassItem → Bytes → Prop
  | plain {body rest : Bytes} {items : List ClassItem}
      (hmark : body.head? ≠ some BANG ∧ body.head? ≠ some CARET)
      (h : Items true body items rest) : ClassText (OPEN :: body) false items rest
  | negated {mark : UInt8} {body rest : Bytes} {items : List ClassItem}
      (hmark : mark = BANG ∨ mark = CARET) (h : Items true body items rest) :
      ClassText (OPEN :: mark :: body) true items rest

/-- The language that a single-level glob denotes. -/
inductive Denotes : Bytes → Language UInt8 → Prop
  | nil : Denotes [] 1
  | star {p : Bytes} {L : Language UInt8} (h : Denotes p L) : Denotes (STAR :: p) (run * L)
  | question {p : Bytes} {L : Language UInt8} (h : Denotes p L) :
      Denotes (QUESTION :: p) (one (fun _ => True) * L)
  | bracket {p rest : Bytes} {negate : Bool} {items : List ClassItem} {L : Language UInt8}
      (hclass : ClassText p negate items rest) (h : Denotes rest L) :
      Denotes p (one (fun b => items.any (·.holds b) ≠ negate) * L)
  | malformed {p : Bytes} {L : Language UInt8}
      (hclass : ∀ negate items rest, ¬ ClassText (OPEN :: p) negate items rest)
      (h : Denotes p L) : Denotes (OPEN :: p) (one (· = OPEN) * L)
  | escape {c : UInt8} {p : Bytes} {L : Language UInt8} (h : Denotes p L) :
      Denotes (ESCAPE :: c :: p) (one (· = c) * L)
  | backslash : Denotes [ESCAPE] (one (· = ESCAPE) * 1)
  | literal {c : UInt8} {p : Bytes} {L : Language UInt8} (hc : isSpecial c = false)
      (h : Denotes p L) : Denotes (c :: p) (one (· = c) * L)

/-- The texts that a glob denotes. -/
def globLanguage (p : Bytes) : Language UInt8 :=
  {s : Bytes | ∃ L, Denotes p L ∧ s ∈ L}

/-- The paths that a list of segments denotes: a trailing `**` stands for one or more segments, any
other for zero or more. -/
def segmentsLanguage : List Segment → Language Bytes
  | [] => 1
  | [.doubleStar] => one (fun _ => True) * run
  | .doubleStar :: rest => run * segmentsLanguage rest
  | .glob g :: rest => one (· ∈ globLanguage g) * segmentsLanguage rest

/-! ### Classes -/

variable {ch : Option UInt8} {negate : Bool} {start i : ℕ} {matched : Bool}

theorem ClassItem.holds_single (c : UInt8) :
    (ch == some c) = ch.any (ClassItem.single c).holds := by
  cases ch <;> simp [ClassItem.holds, beq_eq_decide]

theorem scanClass_close {text : Bytes} (h : start < i) :
    scanClass ch negate start i matched (CLOSE :: text) =
      some (ch.isSome && (matched ^^ negate), i + 1) := by
  rw [scanClass.eq_def]
  exact if_pos ⟨rfl, h⟩

theorem scanClass_span {lo hi : UInt8} {text : Bytes} (hlo : ¬ (lo = CLOSE ∧ start < i))
    (hhi : hi ≠ CLOSE) : scanClass ch negate start i matched (lo :: DASH :: hi :: text) =
      scanClass ch negate start (i + 3) (matched || ch.any (ClassItem.span lo hi).holds) text := by
  rw [scanClass.eq_def]
  dsimp only
  rw [if_neg hlo, if_pos ⟨rfl, hhi⟩]
  simp only [← Bool.decide_and]
  rfl

variable {c : UInt8}

theorem scanClass_single {text : Bytes} (hc : ¬ (c = CLOSE ∧ start < i))
    (hspan : ¬ ContinuesSpan text) : scanClass ch negate start i matched (c :: text) =
      scanClass ch negate start (i + 1) (matched || ch.any (ClassItem.single c).holds) text := by
  rw [scanClass.eq_def]
  dsimp only
  rw [if_neg hc, ClassItem.holds_single]
  split
  · rename_i dash hi rest
    exact if_neg fun h => hspan ⟨hi, rest, by rw [h.1], h.2⟩
  · rfl
  · rw [scanClass]

/-- The scan reads the members of a class and counts their bytes. -/
theorem scanClass_of_items (ch : Option UInt8) (negate : Bool) (start i : ℕ) (matched : Bool)
    {isFirst : Bool} {text rest : Bytes} {items : List ClassItem}
    (h : Items isFirst text items rest) (hle : start ≤ i) (hfirst : isFirst = true ↔ i = start) :
    ∃ read, text = read ++ rest ∧ scanClass ch negate start i matched text =
      some (ch.any fun b => (matched || items.any (·.holds b)) ^^ negate, i + read.length) := by
  induction h generalizing i matched with
  | close rest =>
    have hlt : start < i := lt_of_le_of_ne hle fun heq => absurd (hfirst.2 heq.symm) (by simp)
    refine ⟨[CLOSE], rfl, ?_⟩
    rw [scanClass_close hlt]
    cases ch <;> simp
  | @span isFirst lo hi text rest items hlo hhi h ih =>
    have hopen : ¬ (lo = CLOSE ∧ start < i) := fun hclose => by
      cases isFirst with
      | false => exact hlo rfl hclose.1
      | true => exact hclose.2.ne' (hfirst.1 rfl)
    obtain ⟨read, rfl, hscan⟩ := ih (i + 3)
      (matched || ch.any (ClassItem.span lo hi).holds) (by omega) (by simp; omega)
    refine ⟨lo :: DASH :: hi :: read, rfl, ?_⟩
    rw [scanClass_span hopen hhi, hscan]
    cases ch <;> simp [Bool.or_assoc] <;> omega
  | @single isFirst c text rest items hc hspan h ih =>
    have hopen : ¬ (c = CLOSE ∧ start < i) := fun hclose => by
      cases isFirst with
      | false => exact hc rfl hclose.1
      | true => exact hclose.2.ne' (hfirst.1 rfl)
    obtain ⟨read, rfl, hscan⟩ := ih (i + 1)
      (matched || ch.any (ClassItem.single c).holds) (by omega) (by simp; omega)
    refine ⟨c :: read, rfl, ?_⟩
    rw [scanClass_single hopen hspan, hscan]
    cases ch <;> simp [Bool.or_assoc] <;> omega

variable {r : Bool × ℕ}

/-- A scan that succeeds has read the members of a class. -/
theorem items_of_scanClass {text : Bytes} (hle : start ≤ i)
    (h : scanClass ch negate start i matched text = some r) :
    ∃ items rest, Items (decide (i = start)) text items rest := by
  have hopen : ∀ {i : ℕ} {c : UInt8}, start ≤ i → ¬ (c = CLOSE ∧ start < i) →
      decide (i = start) = false → c ≠ CLOSE := by
    intro i c hle hc hfirst hclose
    exact hc ⟨hclose, lt_of_le_of_ne hle fun heq => of_decide_eq_false hfirst heq.symm⟩
  have hlater : ∀ {i n : ℕ}, start ≤ i → decide (i + (n + 1) = start) = false := by
    intro i n hle
    exact decide_eq_false (by omega)
  fun_induction scanClass ch negate start i matched text with
  | case1 => cases h
  | case2 i matched c text hc =>
    obtain ⟨rfl, hlt⟩ := hc
    rw [decide_eq_false hlt.ne']
    exact ⟨[], text, .close text⟩
  | case3 i matched c hc dash hi rest hspan ih =>
    obtain ⟨items, after, hitems⟩ := ih (by omega) h
    rw [hlater hle] at hitems
    rw [hspan.1]
    exact ⟨_, after, .span (hopen hle hc) hspan.2 hitems⟩
  | case4 i matched c hc dash hi rest hspan ih =>
    obtain ⟨items, after, hitems⟩ := ih (by omega) h
    rw [hlater hle] at hitems
    refine ⟨_, after, .single (hopen hle hc) ?_ hitems⟩
    rintro ⟨hi', rest', heq, hne⟩
    cases heq
    exact hspan ⟨rfl, hne⟩
  | case5 i matched c hc dash ih =>
    obtain ⟨items, after, hitems⟩ := ih (by omega) h
    rw [hlater hle] at hitems
    refine ⟨_, after, .single (hopen hle hc) ?_ hitems⟩
    rintro ⟨hi', rest', heq, -⟩
    cases heq
  | case6 => cases h

theorem matchClass_open (body : Bytes) (ch : Option UInt8) : matchClass (OPEN :: body) ch =
      if body.head? = some BANG ∨ body.head? = some CARET then
        scanClass ch true 2 2 false body.tail
      else scanClass ch false 1 1 false body := by
  have hmark : (OPEN :: body)[1]? = body.head? := by
    cases body <;> rfl
  rw [matchClass, hmark]
  by_cases h : body.head? = some BANG ∨ body.head? = some CARET
  · simp only [h, if_true, decide_true, List.drop_succ_cons, List.drop_one]
  · simp only [h, if_false, decide_false, List.drop_succ_cons, List.drop_zero]

variable {p : Bytes}

/-- A class is evaluated and skipped. -/
theorem matchClass_of_classText {rest : Bytes} {items : List ClassItem}
    (h : ClassText p negate items rest) (ch : Option UInt8) : ∃ read, p = read ++ rest ∧
      matchClass p ch = some (ch.any fun b => items.any (·.holds b) ^^ negate, read.length) := by
  cases h with
  | plain hmark h =>
    obtain ⟨read, rfl, hscan⟩ := scanClass_of_items ch false 1 1 false h le_rfl (by simp)
    refine ⟨OPEN :: read, rfl, ?_⟩
    have hlen : 1 + read.length = (OPEN :: read).length := Nat.add_comm 1 _
    rw [matchClass_open, if_neg (by simpa using hmark), hscan, hlen]
    simp only [Bool.false_or]
  | @negated mark _ _ _ hmark h =>
    obtain ⟨read, rfl, hscan⟩ := scanClass_of_items ch true 2 2 false h le_rfl (by simp)
    refine ⟨OPEN :: mark :: read, rfl, ?_⟩
    have hlen : 2 + read.length = (OPEN :: mark :: read).length := Nat.add_comm 2 _
    rw [matchClass_open, if_pos (by simpa using hmark), List.tail_cons, hscan, hlen]
    simp only [Bool.false_or]

theorem classText_of_matchClass (h : matchClass (OPEN :: p) ch = some r) :
    ∃ negate items rest, ClassText (OPEN :: p) negate items rest := by
  rw [matchClass_open] at h
  split_ifs at h with hmark
  · obtain ⟨items, rest, hitems⟩ := items_of_scanClass le_rfl h
    cases p with
    | nil => simp at hmark
    | cons mark body => exact ⟨true, items, rest, .negated (by simpa using hmark) hitems⟩
  · obtain ⟨items, rest, hitems⟩ := items_of_scanClass le_rfl h
    exact ⟨false, items, rest, .plain (not_or.1 hmark) hitems⟩

/-! ### The matcher decides the language -/

theorem segmentMatch_question (p s : Bytes) :
    segmentMatch (QUESTION :: p) s = (!s.isEmpty && segmentMatch p (s.drop 1)) := by
  rw [segmentMatch.eq_def]
  rfl

theorem segmentMatch_open (p s : Bytes) : segmentMatch (OPEN :: p) s =
    match matchClass (OPEN :: p) s.head? with
    | some (matched, plen) => matched && segmentMatch ((OPEN :: p).drop plen) (s.drop 1)
    | none => decide (s.head? = some OPEN) && segmentMatch p (s.drop 1) := by
  rw [segmentMatch.eq_def]
  dsimp only
  rw [if_neg (by decide), if_neg (by decide), if_pos rfl]
  split <;> simp only [*]

theorem segmentMatch_escape (c : UInt8) (p s : Bytes) : segmentMatch (ESCAPE :: c :: p) s =
    (decide (s.head? = some c) && segmentMatch p (s.drop 1)) := by
  rw [segmentMatch.eq_def]
  rfl

theorem segmentMatch_backslash (s : Bytes) :
    segmentMatch [ESCAPE] s = decide (s.head? = some ESCAPE ∧ s.length = 1) := by
  rw [segmentMatch.eq_def]
  rfl

theorem segmentMatch_literal (hc : isSpecial c = false) (p s : Bytes) :
    segmentMatch (c :: p) s = (decide (s.head? = some c) && segmentMatch p (s.drop 1)) := by
  simp only [isSpecial, decide_eq_false_iff_not, not_or] at hc
  rw [segmentMatch.eq_def]
  dsimp only
  rw [if_neg hc.1, if_neg hc.2.1, if_neg hc.2.2.1, if_neg hc.2.2.2]

theorem segmentMatch_stars (p s : Bytes) : segmentMatch (STAR :: p) s = true ↔
    ∃ t, t <:+ s ∧ segmentMatch (p.dropWhile (· = STAR)) t = true := by
  rw [← any_drop_iff, segmentMatch.eq_def]
  rfl

/-- A run of stars tries every length once. -/
theorem segmentMatch_star (p s : Bytes) :
    segmentMatch (STAR :: p) s = true ↔ ∃ t, t <:+ s ∧ segmentMatch p t = true := by
  rw [segmentMatch_stars]
  cases p with
  | nil => rfl
  | cons c rest =>
    by_cases hc : c = STAR
    · subst hc
      simp only [segmentMatch_stars, List.dropWhile_cons_of_pos, decide_true]
      constructor
      · rintro ⟨t, hts, ht⟩
        exact ⟨t, hts, t, List.suffix_rfl, ht⟩
      · rintro ⟨t, hts, u, hut, hu⟩
        exact ⟨u, hut.trans hts, hu⟩
    · rw [List.dropWhile_cons_of_neg (by simpa using hc)]

variable {L : Language UInt8}

/-- One byte, then the rest. -/
theorem head_match_iff {f : Bytes → Bool} (hf : ∀ t, f t = true ↔ t ∈ L) (s : Bytes) :
    (decide (s.head? = some c) && f (s.drop 1)) = true ↔ s ∈ one (· = c) * L := by
  cases s with
  | nil => simpa using nil_notMem_one_mul
  | cons b rest =>
    rw [cons_mem_one_mul, ← hf]
    simp

/-- The matcher decides the language that a glob denotes. -/
theorem segmentMatch_iff_mem (h : Denotes p L) (s : Bytes) : segmentMatch p s = true ↔ s ∈ L := by
  induction h generalizing s with
  | nil => simp [segmentMatch, Language.mem_one]
  | star h ih =>
    rw [segmentMatch_star, mem_run_mul]
    simp only [ih]
  | question h ih =>
    rw [segmentMatch_question]
    cases s with
    | nil => simpa using nil_notMem_one_mul
    | cons b rest =>
      rw [cons_mem_one_mul, ← ih]
      simp
  | @bracket p rest negate items L hclass h ih =>
    obtain ⟨read, hread, hmatch⟩ := matchClass_of_classText hclass s.head?
    obtain ⟨q, rfl⟩ : ∃ q, p = OPEN :: q := by
      cases hclass with
      | plain => exact ⟨_, rfl⟩
      | negated => exact ⟨_, rfl⟩
    rw [segmentMatch_open, hmatch]
    dsimp only
    rw [hread, List.drop_left]
    cases s with
    | nil => simpa using nil_notMem_one_mul
    | cons b rest =>
      rw [cons_mem_one_mul, ← ih, Bool.and_eq_true, List.head?_cons, Option.any_some,
        Bool.xor_iff_ne]
      rfl
  | malformed hclass h ih =>
    rw [segmentMatch_open]
    split
    · rename_i matched plen hmatch
      obtain ⟨negate, items, rest, htext⟩ := classText_of_matchClass hmatch
      exact absurd htext (hclass negate items rest)
    · exact head_match_iff ih s
  | escape h ih =>
    rw [segmentMatch_escape]
    exact head_match_iff ih s
  | backslash =>
    rw [segmentMatch_backslash]
    cases s with
    | nil => exact iff_of_false (by simp) nil_notMem_one_mul
    | cons b rest =>
      rw [cons_mem_one_mul, Language.mem_one]
      simp
  | literal hc h ih =>
    rw [segmentMatch_literal hc]
    exact head_match_iff ih s

/-- What follows a class is shorter than the pattern. -/
theorem length_lt_of_classText {rest : Bytes} {items : List ClassItem}
    (h : ClassText p negate items rest) : rest.length < p.length := by
  obtain ⟨read, rfl, hmatch⟩ := matchClass_of_classText h none
  have hread := one_lt_of_matchClass hmatch
  dsimp only at hread
  rw [List.length_append]
  omega

/-- Every glob denotes a language. -/
theorem exists_denotes (p : Bytes) : ∃ L, Denotes p L := by
  induction hn : p.length using Nat.strong_induction_on generalizing p with
  | _ n ih =>
    subst hn
    cases p with
    | nil => exact ⟨1, .nil⟩
    | cons c rest =>
      obtain ⟨L, hL⟩ := ih _ (Nat.lt_succ_self _) rest rfl
      by_cases hspecial : isSpecial c = false
      · exact ⟨_, .literal hspecial hL⟩
      · simp only [isSpecial, decide_eq_false_iff_not, not_not] at hspecial
        obtain rfl | rfl | rfl | rfl := hspecial
        · exact ⟨_, .star hL⟩
        · exact ⟨_, .question hL⟩
        · by_cases hclass : ∃ negate items after, ClassText (OPEN :: rest) negate items after
          · obtain ⟨negate, items, after, hclass⟩ := hclass
            obtain ⟨L', hL'⟩ := ih _ (length_lt_of_classText hclass) after rfl
            exact ⟨_, .bracket hclass hL'⟩
          · exact ⟨_, .malformed (fun negate items after h => hclass ⟨_, _, _, h⟩) hL⟩
        · cases rest with
          | nil => exact ⟨_, .backslash⟩
          | cons c rest =>
            have hlt : rest.length < (ESCAPE :: c :: rest).length := by
              simp only [List.length_cons]
              omega
            obtain ⟨L', hL'⟩ := ih _ hlt rest rfl
            exact ⟨_, .escape hL'⟩

/-- A glob denotes one language only. -/
theorem Denotes.unique {L' : Language UInt8} (h : Denotes p L) (h' : Denotes p L') : L = L' := by
  ext s
  rw [← segmentMatch_iff_mem h, ← segmentMatch_iff_mem h']

/-- The matcher decides the texts that a glob denotes. -/
theorem segmentMatch_iff (p s : Bytes) : segmentMatch p s = true ↔ s ∈ globLanguage p := by
  constructor
  · intro h
    obtain ⟨L, hL⟩ := exists_denotes p
    exact ⟨L, hL, (segmentMatch_iff_mem hL s).1 h⟩
  · rintro ⟨L, hL, hs⟩
    exact (segmentMatch_iff_mem hL s).2 hs

/-- The segment matcher decides the paths that the segments denote. -/
theorem matchSegments_iff (segments : List Segment) (path : List Bytes) :
    matchSegments segments path = true ↔ path ∈ segmentsLanguage segments := by
  induction segments generalizing path with
  | nil => simp [matchSegments, segmentsLanguage, Language.mem_one]
  | cons segment rest ih =>
    cases segment with
    | glob g =>
      cases path with
      | nil =>
        rw [matchSegments, segmentsLanguage]
        simpa using nil_notMem_one_mul
      | cons first tail =>
        rw [matchSegments, segmentsLanguage, cons_mem_one_mul, Bool.and_eq_true,
          segmentMatch_iff, ih]
    | doubleStar =>
      cases rest with
      | nil =>
        rw [matchSegments, segmentsLanguage, List.isEmpty_nil, if_pos rfl]
        cases path with
        | nil => simpa using nil_notMem_one_mul
        | cons first tail =>
          rw [cons_mem_one_mul]
          exact iff_of_true rfl ⟨trivial, mem_run⟩
      | cons next rest =>
        rw [matchSegments, segmentsLanguage, if_neg (by simp), any_drop_iff, mem_run_mul]
        simp only [ih]
        simp

/-! ### The shortcut -/

variable {w : Bytes}

/-- A text without special bytes matches itself. -/
theorem segmentMatch_append (h : hasSpecial w = false) (p s : Bytes) :
    segmentMatch (w ++ p) s = true ↔ ∃ t, s = w ++ t ∧ segmentMatch p t = true := by
  induction w generalizing s with
  | nil => simp
  | cons c w ih =>
    rw [hasSpecial, List.any_cons, Bool.or_eq_false_iff] at h
    rw [List.cons_append, segmentMatch_literal h.1]
    cases s with
    | nil => simp
    | cons b rest =>
      rw [Bool.and_eq_true, List.drop_one, List.tail_cons, ih h.2]
      simp [and_assoc]

theorem segmentMatch_nil (s : Bytes) : segmentMatch [] s = true ↔ s = [] := by
  rw [segmentMatch, List.isEmpty_iff]

theorem matches_literal {g : Bytes} (h : hasSpecial g = false) (base : Bytes) :
    segmentMatch g base = true ↔ base = g := by
  have happend := segmentMatch_append h [] base
  rw [List.append_nil] at happend
  rw [happend]
  simp [segmentMatch_nil]

theorem matches_suffix (h : hasSpecial w = false) (base : Bytes) :
    segmentMatch (STAR :: w) base = true ↔ w <:+ base := by
  rw [segmentMatch_star]
  simp [matches_literal h]

theorem matches_prefixed (h : hasSpecial w = false) (base : Bytes) :
    segmentMatch (w ++ [STAR]) base = true ↔ w <+: base := by
  rw [segmentMatch_append h]
  have hstar : ∀ t, segmentMatch [STAR] t = true := fun t =>
    (segmentMatch_star [] t).2 ⟨[], List.nil_suffix, (segmentMatch_nil []).2 rfl⟩
  simp only [hstar, and_true]
  exact exists_congr fun t => eq_comm

variable {b : UInt8} {s : Bytes}

theorem stripFirst_eq_some {rest : Bytes} (h : stripFirst b s = some rest) : s = b :: rest := by
  rw [stripFirst] at h
  split_ifs at h with hhead
  rw [← Option.some.inj h]
  exact (List.cons_head?_tail hhead).symm

theorem stripLast_eq_some {start : Bytes} (h : stripLast b s = some start) : s = start ++ [b] := by
  rw [stripLast] at h
  split_ifs at h with hlast
  rw [← Option.some.inj h]
  exact (List.dropLast_append_getLast? b hlast).symm

/-- The shortcut decides what the general matcher decides. -/
theorem matches_classify (g base : Bytes) :
    (classifyBasenameGlob g).matches base = segmentMatch g base := by
  rw [classifyBasenameGlob]
  by_cases hplain : ¬ hasSpecial g = true
  · rw [if_pos hplain, BasenameKind.matches, Bool.eq_iff_iff, decide_eq_true_iff,
      matches_literal (Bool.not_eq_true _ ▸ hplain)]
  · rw [if_neg hplain]
    split
    · rename_i rest hfirst
      obtain ⟨hstrip, hrest⟩ := Option.filter_eq_some_iff.1 hfirst
      obtain rfl := stripFirst_eq_some hstrip
      rw [BasenameKind.matches, Bool.eq_iff_iff, List.isSuffixOf_iff_suffix,
        matches_suffix (by simpa using hrest)]
    · split
      · rename_i start hlast
        obtain ⟨hstrip, hstart⟩ := Option.filter_eq_some_iff.1 hlast
        obtain rfl := stripLast_eq_some hstrip
        rw [decide_eq_true_iff] at hstart
        rw [BasenameKind.matches, Bool.eq_iff_iff, List.isPrefixOf_iff_prefix,
          matches_prefixed (by simpa using hstart.2)]
      · rfl

/-- `**` and a glob match a path by its last segment. -/
theorem matchSegments_basename (g : Bytes) (path : List Bytes) :
    matchSegments [.doubleStar, .glob g] path = path.getLast?.any (segmentMatch g) := by
  rw [matchSegments, if_neg (by simp), Bool.eq_iff_iff, any_drop_iff]
  have hone : ∀ t, matchSegments [.glob g] t = true ↔ ∃ s, t = [s] ∧ segmentMatch g s = true := by
    intro t
    cases t with
    | nil => simp [matchSegments]
    | cons first tail => simp [matchSegments, and_comm]
  simp only [hone]
  constructor
  · rintro ⟨_, ⟨before, rfl⟩, s, rfl, hs⟩
    simpa using hs
  · intro h
    obtain ⟨s, hs, hmatch⟩ := (Option.any_eq_true _ _).1 h
    obtain ⟨before, rfl⟩ := List.getLast?_eq_some_iff.1 hs
    exact ⟨[s], List.suffix_append before [s], s, rfl, hmatch⟩

/-- A pattern as it is parsed: it has a segment, and its shortcut decides what its segments
decide. -/
structure Pattern.Parsed (pattern : Pattern) : Prop where
  nonempty : pattern.segments ≠ []
  agrees : ∀ path, pattern.matches path = matchSegments pattern.segments path

/-- A body without a `/` is one segment. -/
theorem segments_of_notMem {body : Bytes} (hbody : body ≠ []) (h : SLASH ∉ body)
    (hstar : body ≠ DOUBLE_STAR) :
    ((body.splitOn SLASH).filter (· ≠ [])).map Segment.of = [.glob body] := by
  have hsplit : body.splitOn SLASH = [body] :=
    List.splitOn_eq_singleton (by simpa using h)
  rw [hsplit, List.filter_cons_of_pos (by simpa using hbody), List.filter_nil, List.map_singleton,
    Segment.of, if_neg hstar]

theorem stripFirst_of_notMem (h : b ∉ s) : stripFirst b s = none :=
  if_neg fun hhead => h (List.mem_of_head? hhead)

theorem parsed_of_finishPattern {body : Bytes} {negated : Bool} {pattern : Pattern}
    (h : finishPattern body negated = some pattern) : pattern.Parsed := by
  rw [finishPattern] at h
  dsimp only at h
  generalize (stripLast SLASH body).getD body = rest at h
  by_cases hslash : SLASH ∈ rest
  · simp only [hslash, decide_true, not_true, false_and, if_false, if_true] at h
    split_ifs at h with _ _ hsegments
    obtain rfl := Option.some.inj h
    exact ⟨hsegments, fun path => rfl⟩
  · rw [stripFirst_of_notMem hslash, Option.getD_none] at h
    simp only [hslash, decide_false, Bool.false_eq_true, not_false_eq_true, true_and, if_false] at h
    by_cases hstar : rest = DOUBLE_STAR
    · simp only [hstar, ne_eq, not_true, if_false] at h
      split_ifs at h
      obtain rfl := Option.some.inj h
      exact ⟨List.cons_ne_nil _ _, fun path => rfl⟩
    · split_ifs at h with hempty
      obtain rfl := Option.some.inj h
      refine ⟨List.cons_ne_nil _ _, fun path => ?_⟩
      have hkind : (classifyBasenameGlob rest).matches = segmentMatch rest :=
        funext fun base => matches_classify rest base
      rw [segments_of_notMem hempty hslash hstar, matchSegments_basename, ← hkind]
      rfl

theorem parsed_of_parseLine {line : Bytes} {pattern : Pattern}
    (h : parseLine line = some pattern) : pattern.Parsed := by
  rw [parseLine] at h
  dsimp only at h
  split_ifs at h
  · exact parsed_of_finishPattern h
  · exact parsed_of_finishPattern h
  · exact parsed_of_finishPattern h
  · exact parsed_of_finishPattern h

/-- Every parsed pattern may take its shortcut. -/
theorem parsed_of_parse {content : Bytes} {pattern : Pattern} (h : pattern ∈ parse content) :
    pattern.Parsed := by
  obtain ⟨raw, -, hline⟩ := List.mem_filterMap.1 h
  exact parsed_of_parseLine hline

/-! ### Which pattern decides -/

/-- A pattern applies to a path that its segments denote, a directory-only one to directories. -/
def Pattern.Applies (pattern : Pattern) (path : List Bytes) (isDir : Bool) : Prop :=
  (pattern.dirOnly = true → isDir = true) ∧ path ∈ segmentsLanguage pattern.segments

/-- The last pattern that applies decides, and none ignores nothing. -/
def Decides (patterns : List Pattern) (path : List Bytes) (isDir : Bool) (verdict : Bool) : Prop :=
  (∃ before pattern after, patterns = before ++ pattern :: after ∧ pattern.Applies path isDir ∧
    (∀ later ∈ after, ¬ later.Applies path isDir) ∧ verdict = !pattern.negated) ∨
    (∀ pattern ∈ patterns, ¬ pattern.Applies path isDir) ∧ verdict = false

theorem applies_iff {pattern : Pattern} (h : pattern.Parsed) (path : List Bytes) (isDir : Bool) :
    (!(pattern.dirOnly && !isDir) && pattern.matches path) = true ↔
      pattern.Applies path isDir := by
  rw [Pattern.Applies, ← matchSegments_iff, ← h.agrees path]
  cases pattern.dirOnly <;> simp

/-- No list of segments denotes the empty path. -/
theorem nil_notMem_segmentsLanguage {segments : List Segment} (hne : segments ≠ []) :
    [] ∉ segmentsLanguage segments := by
  induction segments with
  | nil => exact absurd rfl hne
  | cons segment rest ih =>
    cases segment with
    | glob g => exact nil_notMem_one_mul
    | doubleStar =>
      cases rest with
      | nil => exact nil_notMem_one_mul
      | cons next rest =>
        rw [segmentsLanguage, mem_run_mul]
        · rintro ⟨t, ht, hmem⟩
          rw [List.suffix_nil.1 ht] at hmem
          exact ih (List.cons_ne_nil _ _) hmem
        · simp

/-- The scan from the end finds the last pattern that applies. -/
theorem decides_find {patterns : List Pattern} (h : ∀ p ∈ patterns, p.Parsed) (path : List Bytes)
    (isDir : Bool) : Decides patterns path isDir
      (match patterns.reverse.find? fun p => !(p.dirOnly && !isDir) && p.matches path with
        | some p => !p.negated
        | none => false) := by
  cases hfind : patterns.reverse.find? fun p => !(p.dirOnly && !isDir) && p.matches path with
  | none =>
    refine .inr ⟨fun p hp happlies => ?_, rfl⟩
    rw [List.find?_eq_none] at hfind
    exact hfind p (List.mem_reverse.2 hp) ((applies_iff (h p hp) path isDir).2 happlies)
  | some pattern =>
    obtain ⟨hmatch, after, before, hsplit, hlater⟩ := List.find?_eq_some_iff_append.1 hfind
    have hpatterns : patterns = before.reverse ++ pattern :: after.reverse := by
      rw [← List.reverse_reverse patterns, hsplit, List.reverse_append, List.reverse_cons,
        List.append_assoc, List.singleton_append]
    have hmem : ∀ p ∈ before.reverse ++ pattern :: after.reverse, p.Parsed := hpatterns ▸ h
    refine .inl ⟨before.reverse, pattern, after.reverse, hpatterns, ?_, fun p hp happlies => ?_,
      rfl⟩
    · exact (applies_iff (hmem pattern (by simp)) path isDir).1 hmatch
    · have hparsed := hmem p (List.mem_append_right _ (List.mem_cons_of_mem _ hp))
      have hfalse := hlater p (List.mem_reverse.1 hp)
      rw [(applies_iff hparsed path isDir).2 happlies] at hfalse
      cases hfalse

/-- **Ignore matching is the pattern language.** A glob denotes one language and the segment
matcher decides it; a parsed pattern, by its shortcut or not, decides the paths that its segments
denote; and unless the last segment of a path is `.mkit` or `.git`, which are always ignored, the
last pattern that applies decides whether the path is. -/
theorem ignore_matches_language (content : Bytes) :
    (∀ p, ∃ L, Denotes p L ∧ (∀ L', Denotes p L' → L' = L) ∧
      ∀ s, segmentMatch p s = true ↔ s ∈ L) ∧
    (∀ pattern ∈ parse content, ∀ path,
      pattern.matches path = matchSegments pattern.segments path ∧
        (matchSegments pattern.segments path = true ↔
          path ∈ segmentsLanguage pattern.segments)) ∧
    ∀ relPath isDir, if isReserved relPath then isIgnored (parse content) relPath isDir = true
      else Decides (parse content) (pathSegments relPath) isDir
        (isIgnored (parse content) relPath isDir) := by
  refine ⟨fun p => ?_, fun pattern hp path => ?_, fun relPath isDir => ?_⟩
  · obtain ⟨L, hL⟩ := exists_denotes p
    exact ⟨L, hL, fun L' hL' => hL'.unique hL, segmentMatch_iff_mem hL⟩
  · exact ⟨(parsed_of_parse hp).agrees path, matchSegments_iff pattern.segments path⟩
  · split_ifs with hreserved
    · rw [isIgnored, if_pos hreserved]
    · rw [isIgnored, if_neg hreserved]
      dsimp only
      split_ifs with hempty
      · rw [hempty]
        exact .inr ⟨fun p hp happlies =>
          nil_notMem_segmentsLanguage (parsed_of_parse hp).nonempty happlies.2, rfl⟩
      · exact decides_find (fun p hp => parsed_of_parse hp) _ isDir

/-- A file that takes `.git` back. -/
def unignoreGit : Bytes := ascii "!.git".toList

/-- Its only pattern matches `.git` and is negated, and `.git` is ignored nevertheless. -/
theorem ignore_overrides_patterns :
    ∃ pattern, parse unignoreGit = [pattern] ∧ pattern.matches (pathSegments GIT_DIR) = true ∧
      pattern.negated = true ∧ isIgnored (parse unignoreGit) GIT_DIR true = true ∧
      ¬ Decides (parse unignoreGit) (pathSegments GIT_DIR) true true := by
  have hparse : parse unignoreGit = [⟨GIT_DIR, true, false, false,
      [.doubleStar, .glob GIT_DIR], some (.literal GIT_DIR)⟩] := by decide +kernel
  refine ⟨_, hparse, by decide +kernel, rfl, by decide +kernel, ?_⟩
  rw [hparse]
  rintro (⟨before, pattern, after, hsplit, -, -, hverdict⟩ | ⟨-, hverdict⟩)
  · have hmem : pattern ∈ before ++ pattern :: after := by simp
    rw [← hsplit, List.mem_singleton] at hmem
    rw [hmem] at hverdict
    cases hverdict
  · cases hverdict

end Mkit.Ignore
