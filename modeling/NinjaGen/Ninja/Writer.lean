import NinjaGen.Ninja.Statement

/-!
# Writing a Ninja file

A writer gathers the text of a file statement by statement.

* `Writing` is work on a writer: it appends texts, and what it has appended stays when it fails.
* `Statement.perform` is the work on one statement, and `Writer.write` does it. `Writer.writeEach`
  goes on to the next statement whether or not one can be written.
* `Statement.writeAll` is the text of a whole file.
-/

namespace NinjaGen.Ninja

open Text (words fillLines)

/-- A file that is being written. -/
structure Writer where
  /-- The width at which lines are wrapped. -/
  lineWidth : Nat
  /-- The text so far. -/
  text : List Char := []
  deriving DecidableEq, Repr

/-- A file without any text. -/
def Writer.new (lineWidth : Nat) : Writer := ⟨lineWidth, []⟩

/-! ## Work on a writer -/

/-- Work on a file, which may fail on the way. -/
abbrev Writing : Type → Type := ExceptT GenerationError (StateM Writer)

/-- What comes out of the work, and the file after it. -/
def Writing.on {α : Type} (x : Writing α) (w : Writer) : Except GenerationError α × Writer :=
  x.run.run w

namespace Writing

/-- Appends a text. -/
def put (text : List Char) : Writing Unit := modify fun w => { w with text := w.text ++ text }

/-- Appends a line, wrapped at the width of the file. -/
def line (level : Nat) (text : String) : Writing Unit := do
  put (lineText (← get).lineWidth level text)

/-- Appends the words of a text as a comment, line by line. -/
def comment (text : String) : Writing Unit := do
  (fillLines ((← get).lineWidth - 2) (words text.toList)).forM fun ws =>
    put (commentLine ws ++ ['\n'])

/-- Appends a variable; nothing without a value. -/
def assign (level : Nat) (key value : String) : Writing Unit :=
  if value = "" then pure () else line level (key ++ " = " ++ value)

/-- Appends variables, one level deep. -/
def assignAll (assignments : List (String × String)) : Writing Unit :=
  assignments.forM fun v => assign 1 v.1 v.2

end Writing

/-! ## Statements -/

open Writing in
/-- Writes a statement. An edge gives its outputs back. -/
def Statement.perform : Statement → Writing (Option (List String))
  | blank => do
    put ['\n']
    pure none
  | comment text => do
    Writing.comment text
    pure none
  | assign key value level => do
    Writing.assign level key value
    pure none
  | list key values level => do
    Writing.assign level key (joinValues values)
    pure none
  | pool name depth => do
    line 0 ("pool " ++ name)
    Writing.assign 1 "depth" (toString depth)
    pure none
  | rule name command options => do
    line 0 ("rule " ++ name)
    Writing.assign 1 "command" command
    assignAll options.assignments
    pure none
  | build edge => do
    let text ← MonadExcept.ofExcept edge.line
    line 0 text
    assignAll (edge.pool.toList.map fun p => ("pool", p))
    assignAll edge.assignments
    pure (some edge.outputs)
  | includeFile path => do
    let path ← MonadExcept.ofExcept (escapePath path)
    line 0 ("include " ++ path)
    pure none
  | subninja path => do
    let path ← MonadExcept.ofExcept (escapePath path)
    line 0 ("subninja " ++ path)
    pure none
  | defaults paths =>
    if paths = [] then pure none
    else do
      let es ← MonadExcept.ofExcept (escapePaths paths)
      line 0 ("default " ++ " ".intercalate es)
      pure none

namespace Writer

/-- Writes a statement into a file. -/
def write (w : Writer) (s : Statement) : Except GenerationError (Option (List String)) × Writer :=
  s.perform.on w

/-- Writes statements one after another, also after one that cannot be written. -/
def writeEach (w : Writer) :
    List Statement → List (Except GenerationError (Option (List String))) × Writer
  | [] => ([], w)
  | s :: r =>
    let (result, v) := w.write s
    let (results, u) := v.writeEach r
    (result :: results, u)

end Writer

/-- The text of statements; the first that cannot be written decides. -/
def Statement.writeAll (lineWidth : Nat) (statements : List Statement) :
    Except GenerationError (List Char) :=
  (statements.mapM (Statement.write lineWidth)).map List.flatten

end NinjaGen.Ninja
