import NinjaGen.GenerationError
import NinjaGen.Traverse

/-!
# Escaping for Ninja files

A Ninja file is read line by line, and `$` is its only special character. Literal text doubles it;
in a path a space and a colon separate things, so they are written `$ ` and `$:`. No escape stands
for a line break, so a text that holds one cannot be written.

* `escapeText` and `escapePathText` are the two forms; `unescape` reads both
  (`unescape_escapeText`, `unescape_escapePathText`).
* `escape` and `escapePath` refuse line breaks (`escape_eq_ok_iff`, `escapePath_eq_ok_iff`), and
  so does `escapePaths` for each of its paths (`escapePaths_eq_ok_iff`).
-/

namespace NinjaGen.Ninja

/-! ## The two escaped forms -/

/-- A text with every `$` doubled. -/
def escapeText (cs : List Char) : List Char :=
  cs.flatMap fun c => if c = '$' then ['$', '$'] else [c]

/-- Whether a character of a path needs a `$` in front. -/
def isSpecial (c : Char) : Bool := c = '$' || c = ' ' || c = ':'

/-- A path with a `$` in front of every `$`, space and colon. -/
def escapePathText (cs : List Char) : List Char :=
  cs.flatMap fun c => if isSpecial c then ['$', c] else [c]

/-- The text that an escaped form stands for: a `$` vouches for the character after it. -/
def unescape : List Char → List Char
  | [] => []
  | '$' :: c :: r => c :: unescape r
  | ['$'] => []
  | c :: r => c :: unescape r

theorem unescape_cons {c : Char} (h : c ≠ '$') (r : List Char) :
    unescape (c :: r) = c :: unescape r := by
  cases r <;> simp [unescape, h]

theorem unescape_escapeText_append (cs rest : List Char) :
    unescape (escapeText cs ++ rest) = cs ++ unescape rest := by
  induction cs with
  | nil => rfl
  | cons c r ih =>
    by_cases h : c = '$'
    · subst h
      simpa [escapeText, unescape] using ih
    · simpa [escapeText, h, unescape_cons h] using ih

theorem unescape_escapeText (cs : List Char) : unescape (escapeText cs) = cs := by
  simpa [unescape] using unescape_escapeText_append cs []

theorem unescape_escapePathText_append (cs rest : List Char) :
    unescape (escapePathText cs ++ rest) = cs ++ unescape rest := by
  induction cs with
  | nil => rfl
  | cons c r ih =>
    by_cases h : isSpecial c
    · simpa [escapePathText, h, unescape] using ih
    · have hc : c ≠ '$' := by rintro rfl; exact h (by decide)
      simpa [escapePathText, h, unescape_cons hc] using ih

theorem unescape_escapePathText (cs : List Char) : unescape (escapePathText cs) = cs := by
  simpa [unescape] using unescape_escapePathText_append cs []

/-! ## Line breaks -/

/-- Whether a text holds a character that ends a line of the file. -/
def hasLineBreak (s : String) : Bool := s.toList.any fun c => c = '\n' || c = '\r'

/-- The text in its escaped form, unless it holds a line break. -/
def escape (s : String) : Except GenerationError String :=
  if hasLineBreak s then .error (.invalidText s)
  else .ok (String.ofList (escapeText s.toList))

/-- The path in its escaped form, unless it holds a line break. -/
def escapePath (s : String) : Except GenerationError String :=
  if hasLineBreak s then .error (.invalidText s)
  else .ok (String.ofList (escapePathText s.toList))

theorem escape_eq_ok_iff {s t : String} :
    escape s = .ok t ↔ hasLineBreak s = false ∧ t = String.ofList (escapeText s.toList) := by
  by_cases h : hasLineBreak s <;> simp [escape, h, eq_comm]

theorem escapePath_eq_ok_iff {s t : String} :
    escapePath s = .ok t ↔
      hasLineBreak s = false ∧ t = String.ofList (escapePathText s.toList) := by
  by_cases h : hasLineBreak s <;> simp [escapePath, h, eq_comm]

/-- The paths in their escaped form; the first that cannot be written decides. -/
def escapePaths (paths : List String) : Except GenerationError (List String) :=
  paths.mapM escapePath

theorem escapePaths_eq_ok_iff {paths texts : List String} :
    escapePaths paths = .ok texts ↔
      (∀ p ∈ paths, hasLineBreak p = false) ∧
        texts = paths.map fun p => String.ofList (escapePathText p.toList) :=
  mapM_eq_ok_iff_map fun _ _ => escapePath_eq_ok_iff

end NinjaGen.Ninja
