import NinjaGen.Path.Basic

/-!
# Patterns for names

A pattern for the name of an entry is made of characters that stand for themselves, `?` for any
character, `*` for any characters, and classes in brackets.

* `Pattern.parse` reads the pattern between two slashes, and `Segment.parse` also the one that
  leads through any directories.
* `Pattern.accepts` says whether a pattern stands for a name: `*` stands for any number of
  characters (`Pattern.accepts_anyText_cons`), and another part for one
  (`Pattern.accepts_cons_cons`).
-/

namespace NinjaGen.Glob

/-! ## Patterns -/

/-- Characters of a class: those from one to another. -/
structure CharRange where
  first : Char
  last : Char
  deriving DecidableEq, Repr

/-- Whether a character is in a range. -/
def CharRange.contains (r : CharRange) (c : Char) : Bool := r.first ≤ c && c ≤ r.last

/-- A part of a pattern. -/
inductive Part
  /-- A character that stands for itself. -/
  | exactly (c : Char)
  /-- Any character. -/
  | anyChar
  /-- Any characters, or none. -/
  | anyText
  /-- A character in one of the ranges. -/
  | within (ranges : List CharRange)
  /-- A character in none of the ranges. -/
  | without (ranges : List CharRange)
  deriving DecidableEq, Repr

/-- A pattern for a name. -/
abbrev Pattern := List Part

/-- Why a text is no pattern. -/
inductive PatternError
  /-- More stars than two in a row. -/
  | tooManyStars
  /-- Two stars beside other characters. -/
  | starsNotAlone
  /-- A class without an end. -/
  | unclosedClass
  deriving DecidableEq, Repr

/-- The wording of an error. -/
def PatternError.message : PatternError → String
  | .tooManyStars => "Pattern syntax error: wildcards are either regular `*` or recursive `**`"
  | .starsNotAlone => "Pattern syntax error: recursive wildcards must form a single path component"
  | .unclosedClass => "Pattern syntax error: invalid range pattern"

/-! ## Names that a pattern stands for -/

/-- Whether a part of a pattern may stand for a character. -/
def Part.allows (c : Char) : Part → Bool
  | .exactly d => c = d
  | .anyChar | .anyText => true
  | .within ranges => ranges.any (·.contains c)
  | .without ranges => !ranges.any (·.contains c)

/-- For a pattern and what remains of it after each of its parts, whether it stands for the empty
name. -/
def Pattern.emptyRow : Pattern → List Bool
  | [] => [true]
  | part :: parts =>
    let row := Pattern.emptyRow parts
    (part = .anyText && row.head?.getD false) :: row

/-- For a pattern and what remains of it after each of its parts, whether it stands for a name,
given the same for the name without its first character `c`. -/
def Pattern.nextRow (c : Char) : Pattern → List Bool → List Bool
  | part :: parts, here :: after =>
    let row := Pattern.nextRow c parts after
    let stands :=
      if part = .anyText then row.head?.getD false || here
      else part.allows c && after.head?.getD false
    stands :: row
  | _, _ => [false]

/-- For a pattern and what remains of it after each of its parts, whether it stands for a name. A
name is gone through once, however many parts of the pattern stand for any characters. -/
def Pattern.row (p : Pattern) : List Char → List Bool
  | [] => p.emptyRow
  | c :: name => p.nextRow c (p.row name)

/-- Whether a pattern stands for a name. -/
def Pattern.accepts (p : Pattern) (name : List Char) : Bool := (p.row name).head?.getD false

theorem Pattern.row_cons (part : Part) (parts : Pattern) (name : List Char) :
    ∃ b, Pattern.row (part :: parts) name = b :: Pattern.row parts name := by
  induction name with
  | nil => exact ⟨_, rfl⟩
  | cons c name ih =>
    obtain ⟨b, hb⟩ := ih
    exact ⟨_, by rw [Pattern.row, hb]; rfl⟩

/-- The empty pattern stands for the empty name alone. -/
@[simp] theorem Pattern.accepts_nil (name : List Char) :
    Pattern.accepts [] name = name.isEmpty := by
  cases name <;> rfl

/-- Any characters may be none. -/
@[simp] theorem Pattern.accepts_anyText_nil (parts : Pattern) :
    Pattern.accepts (.anyText :: parts) [] = Pattern.accepts parts [] := by
  simp [Pattern.accepts, Pattern.row, Pattern.emptyRow]

/-- Any characters may be none, or one and any characters after it. -/
theorem Pattern.accepts_anyText_cons (parts : Pattern) (c : Char) (name : List Char) :
    Pattern.accepts (.anyText :: parts) (c :: name) =
      (Pattern.accepts parts (c :: name) || Pattern.accepts (.anyText :: parts) name) := by
  obtain ⟨b, hb⟩ := Pattern.row_cons .anyText parts name
  simp [Pattern.accepts, Pattern.row, hb, Pattern.nextRow]

/-- Another part does not stand for the empty name. -/
theorem Pattern.accepts_cons_nil {part : Part} (h : part ≠ .anyText) (parts : Pattern) :
    Pattern.accepts (part :: parts) [] = false := by
  simp [Pattern.accepts, Pattern.row, Pattern.emptyRow, h]

/-- Another part stands for one character, and the rest of the pattern for the rest of the name. -/
theorem Pattern.accepts_cons_cons {part : Part} (h : part ≠ .anyText) (parts : Pattern) (c : Char)
    (name : List Char) :
    Pattern.accepts (part :: parts) (c :: name) =
      (part.allows c && Pattern.accepts parts name) := by
  obtain ⟨b, hb⟩ := Pattern.row_cons part parts name
  simp [Pattern.accepts, Pattern.row, hb, Pattern.nextRow, h]

/-! ## Reading a pattern -/

/-- The ranges of a class: three characters with `-` in the middle, or a single character. -/
def ranges : List Char → List CharRange
  | a :: '-' :: b :: r => ⟨a, b⟩ :: ranges r
  | a :: r => ⟨a, a⟩ :: ranges r
  | [] => []

/-- The characters of a class up to its closing bracket, which is not the first of them, and what
follows the bracket. -/
def classBody? : List Char → Option (List Char × List Char)
  | [] => none
  | c :: r =>
    match r.dropWhile (· ≠ ']') with
    | [] => none
    | _ :: rest => some (c :: r.takeWhile (· ≠ ']'), rest)

/-- The class whose opening bracket stands before the text, and what follows it. -/
def class? : List Char → Option (Part × List Char)
  | '!' :: r => (classBody? r).map fun (body, rest) => (.without (ranges body), rest)
  | r => (classBody? r).map fun (body, rest) => (.within (ranges body), rest)

theorem length_dropWhile_le (p : Char → Bool) (cs : List Char) :
    (cs.dropWhile p).length ≤ cs.length := (List.dropWhile_suffix p).length_le

theorem length_le_of_classBody? {cs body rest : List Char}
    (h : classBody? cs = some (body, rest)) : rest.length ≤ cs.length := by
  cases cs with
  | nil => simp [classBody?] at h
  | cons c r =>
    simp only [classBody?] at h
    split at h
    next => simp at h
    next d rest' hr =>
      simp only [Option.some.injEq, Prod.mk.injEq] at h
      obtain ⟨-, rfl⟩ := h
      have hle := length_dropWhile_le (· ≠ ']') r
      rw [hr] at hle
      simp only [List.length_cons] at hle ⊢
      omega

theorem length_le_of_class? {cs rest : List Char} {part : Part}
    (h : class? cs = some (part, rest)) : rest.length ≤ cs.length := by
  unfold class? at h
  split at h
  all_goals
    obtain ⟨⟨body, rest'⟩, hb, heq⟩ := Option.map_eq_some_iff.1 h
    simp only [Prod.mk.injEq] at heq
    obtain ⟨-, rfl⟩ := heq
    have := length_le_of_classBody? hb
    simp_all <;> omega

/-- The pattern that a text without slashes describes. -/
def Pattern.parse (cs : List Char) : Except PatternError Pattern :=
  match cs with
  | [] => .ok []
  | '?' :: r => (Pattern.parse r).map (.anyChar :: ·)
  | '*' :: '*' :: '*' :: _ => .error .tooManyStars
  | '*' :: '*' :: _ => .error .starsNotAlone
  | '*' :: r => (Pattern.parse r).map (.anyText :: ·)
  | '[' :: r =>
    match _h : class? r with
    | some (part, rest) => (Pattern.parse rest).map (part :: ·)
    | none => .error .unclosedClass
  | c :: r => (Pattern.parse r).map (.exactly c :: ·)
termination_by cs.length
decreasing_by
  all_goals first
    | (have hlen := length_le_of_class? _h; simp only [List.length_cons]; omega)
    | (simp only [List.length_cons]; omega)

/-! ## Segments -/

/-- What stands between two slashes of a pattern for paths. -/
inductive Segment
  /-- A name. -/
  | name (text : List Char)
  /-- Names that a pattern stands for. -/
  | pattern (p : Pattern)
  /-- Any directories, one within another. -/
  | anyDirectories
  deriving DecidableEq, Repr

/-- The text of a pattern in which every character stands for itself. -/
def Pattern.text? : Pattern → Option (List Char)
  | [] => some []
  | .exactly c :: r => (Pattern.text? r).map (c :: ·)
  | _ => none

/-- The segment that a text without slashes describes. -/
def Segment.parse (cs : List Char) : Except PatternError Segment :=
  if cs = ['*', '*'] then .ok .anyDirectories
  else do
    let p ← Pattern.parse cs
    match Pattern.text? p with
    | some text => pure (.name text)
    | none => pure (.pattern p)

/-- Whether a segment stands for a name. -/
def Segment.accepts : Segment → String → Bool
  | .name text, s => text = s.toList
  | .pattern p, s => p.accepts s.toList
  | .anyDirectories, _ => true

/-- Whether a text has a character with which it may be a pattern. -/
def isPattern (s : String) : Bool := s.toList.any fun c => c = '*' || c = '?' || c = '['

end NinjaGen.Glob
