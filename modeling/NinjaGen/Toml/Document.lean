import NinjaGen.Toml.Table
import NinjaGen.Toml.Text

/-!
# TOML documents

A document is a sequence of lines: assignments of values to keys, and headers of the tables to
which the assignments after them belong.

* `key` reads a key with dots, `value` a value and `sections` the lines of a document; each returns
  what follows.
* `parse` reads a document as a record.

Every loop is given a number of rounds that a text cannot use up, since each round reads at least
one character.
-/

namespace NinjaGen.Toml

/-- How deeply lists and tables may be nested, and one more than the number of keys that dots may
join. -/
def nestingLimit : Nat := 80

/-! ## Blanks, comments and line ends -/

/-- The text after blanks. -/
def skipBlanks (cs : List Char) : List Char := cs.dropWhile isBlankChar

/-- The text after a comment, if there is one. -/
def skipComment : List Char → List Char
  | '#' :: r => r.dropWhile isTextChar
  | r => r

/-- The text after blanks, comments and line breaks. -/
def skipLines (inComment : Bool) : List Char → List Char
  | [] => []
  | '\r' :: '\n' :: r => skipLines false r
  | c :: r =>
    if c = '\n' then skipLines false r
    else if inComment then
      if isTextChar c then skipLines true r else c :: r
    else if isBlankChar c then skipLines false r
    else if c = '#' then skipLines true r
    else c :: r

/-- The text after the end of a line, before which blanks and a comment may stand. -/
def endLine (cs : List Char) : Except Error (List Char) :=
  match skipComment (skipBlanks cs) with
  | [] => .ok []
  | rest =>
    match lineBreak? rest with
    | some rest => .ok rest
    | none => .error (.unexpected "the end of the line")

/-! ## Keys -/

/-- A character of a key that needs no quotes. -/
def isKeyChar (c : Char) : Bool := c.isAlphanum || c = '_' || c = '-'

/-- A key without dots. -/
def simpleKey (cs : List Char) : Except Error (String × List Char) :=
  let quoted (s : Option (List Char × List Char)) : Except Error (String × List Char) :=
    match s with
    | some (s, rest) => .ok (String.ofList s, rest)
    | none => .error (.unexpected "a key")
  match cs with
  | '"' :: r => quoted (basicText r)
  | '\'' :: r => quoted (literalText r)
  | _ =>
    match cs.takeWhile isKeyChar with
    | [] => .error (.unexpected "a key")
    | name => .ok (String.ofList name, cs.dropWhile isKeyChar)

/-- The parts of a key with dots, around which blanks may stand; there may be as many as there are
`rounds`. The last part stands apart. -/
def keyParts : (rounds : Nat) → List Char → Except Error ((List String × String) × List Char)
  | 0, _ => .error .nesting
  | rounds + 1, cs => do
    let (name, rest) ← simpleKey (skipBlanks cs)
    match skipBlanks rest with
    | '.' :: more =>
      let ((path, last), rest) ← keyParts rounds more
      pure ((name :: path, last), rest)
    | rest => pure (([], name), rest)

/-- A key with dots: the way to a table, and the name within it. -/
def key (cs : List Char) : Except Error ((List String × String) × List Char) :=
  keyParts (nestingLimit - 1) cs

/-! ## Values -/

/-- A key, an equals sign and a value. -/
def assignment (value : List Char → Except Error (Value × List Char)) (cs : List Char) :
    Except Error ((List String × String × Value) × List Char) := do
  let ((path, name), rest) ← key cs
  match rest with
  | '=' :: rest =>
    let (v, rest) ← value (skipBlanks rest)
    pure ((path, name, v), skipBlanks rest)
  | _ => .error (.unexpected "an equals sign")

/-- The items of a list up to its closing bracket. A comma may follow the last one, and there may
be line breaks and comments between all parts. -/
def listItems (value : List Char → Except Error (Value × List Char)) :
    (rounds : Nat) → List Char → Except Error (List Value × List Char)
  | 0, _ => .error (.unexpected "a value")
  | rounds + 1, cs =>
    match skipLines false cs with
    | ']' :: rest => .ok ([], rest)
    | start => do
      let (v, rest) ← value start
      match skipLines false rest with
      | ']' :: rest => pure ([v], rest)
      | ',' :: more =>
        let (vs, rest) ← listItems value rounds more
        pure (v :: vs, rest)
      | _ => .error (.unexpected "a comma or a closing bracket")

/-- The assignments of an inline table up to its closing brace, at least one. -/
def inlineAssignments (value : List Char → Except Error (Value × List Char)) :
    (rounds : Nat) → List Char → Except Error ((List (List String × String × Value)) × List Char)
  | 0, _ => .error (.unexpected "a key")
  | rounds + 1, cs => do
    let (a, rest) ← assignment value cs
    match rest with
    | '\x7d' :: rest => pure ([a], rest)
    | ',' :: more =>
      let (as, rest) ← inlineAssignments value rounds more
      pure (a :: as, rest)
    | _ => .error (.unexpected "a comma or a closing brace")

/-- The inline table whose opening brace stands before the text. -/
def inlineTable (value : List Char → Except Error (Value × List Char)) (rounds : Nat)
    (cs : List Char) : Except Error (Value × List Char) :=
  match skipBlanks cs with
  | '\x7d' :: rest => .ok (.record [], rest)
  | _ => do
    let (as, rest) ← inlineAssignments value rounds cs
    let t ← Table.putAll as (.new .declared)
    pure (t.toValue, rest)

/-- A value in which lists and inline tables are nested less than `depth` deep, each with at most
as many members as there are `rounds`. -/
def value (rounds : Nat) : (depth : Nat) → List Char → Except Error (Value × List Char)
  | 0, _ => .error .nesting
  | depth + 1, cs =>
    match cs with
    | '[' :: r => do
      if depth = 0 then .error .nesting
      else
        let (vs, rest) ← listItems (value rounds depth) rounds r
        pure (.list vs, rest)
    | '\x7b' :: r =>
      if depth = 0 then .error .nesting else inlineTable (value rounds depth) rounds r
    | _ =>
      match text? cs with
      | some (s, rest) => .ok (.string (String.ofList s), rest)
      | none =>
        let (w, rest) := word cs
        match scalar? w with
        | some v => .ok (v, rest)
        | none => .error (.unexpected "a value")

/-! ## Lines -/

/-- The header of a table. -/
inductive Header
  /-- A table of its own. -/
  | table (path : List String) (name : String)
  /-- A further member of a list of tables. -/
  | member (path : List String) (name : String)
  deriving DecidableEq, Repr

/-- A line that says something. -/
inductive Line
  | assign (path : List String) (name : String) (v : Value)
  | header (h : Header)

/-- A header whose first opening bracket stands before the text. -/
def header (cs : List Char) : Except Error (Header × List Char) :=
  match cs with
  | '[' :: r => do
    let ((path, name), rest) ← key r
    match rest with
    | ']' :: ']' :: rest => pure (.member path name, rest)
    | _ => .error (.unexpected "two closing brackets")
  | _ => do
    let ((path, name), rest) ← key cs
    match rest with
    | ']' :: rest => pure (.table path name, rest)
    | _ => .error (.unexpected "a closing bracket")

/-- A line that says something, without its end. -/
def line (rounds : Nat) (cs : List Char) : Except Error (Line × List Char) :=
  match cs with
  | '[' :: r => do
    let (h, rest) ← header r
    pure (.header h, rest)
  | _ => do
    let ((path, name, v), rest) ← assignment (value rounds nestingLimit) cs
    pure (.assign path name v, rest)

/-- The lines that say something, of a document that has no more lines than there are `rounds`. -/
def linesWithin : (rounds : Nat) → List Char → Except Error (List Line)
  | 0, _ => .error (.unexpected "a line")
  | rounds + 1, cs =>
    match skipBlanks cs with
    | [] => .ok []
    | start =>
      match endLine start with
      | .ok rest => linesWithin rounds rest
      | .error _ => do
        let (l, rest) ← line (rounds + 1) start
        let rest ← endLine rest
        let ls ← linesWithin rounds rest
        pure (l :: ls)

/-- The lines of a document that say something. -/
def lines (cs : List Char) : Except Error (List Line) := linesWithin (cs.length + 1) cs

/-! ## Documents -/

/-- The assignments of a table. -/
abbrev Content := List (List String × String × Value)

/-- The assignments before the first header, and each header with the assignments after it. -/
def sections : List Line → Content × List (Header × Content)
  | [] => ([], [])
  | .assign path name v :: r =>
    let (content, rest) := sections r
    ((path, name, v) :: content, rest)
  | .header h :: r =>
    let (content, rest) := sections r
    ([], (h, content) :: rest)

/-- The table with the content of a header. -/
def addSection (t : Table) : Header × Content → Except Error Table
  | (.table path name, content) => t.declare path name content
  | (.member path name, content) => t.append path name content

/-- The record that a document describes. -/
def parse (text : String) : Except Error Value := do
  let cs := match text.toList with
    | '\ufeff' :: r => r
    | cs => cs
  let (content, rest) := sections (← lines cs)
  let root ← Table.putAll content (.new .declared)
  let t ← rest.foldlM addSection root
  pure t.toValue

end NinjaGen.Toml
