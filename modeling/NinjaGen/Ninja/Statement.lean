import NinjaGen.Ninja.Escape
import NinjaGen.Ninja.Wrap
import NinjaGen.Text.Blank

/-!
# Statements of a Ninja file

The file is a sequence of statements: comments, variables, rules, build edges and a few others.

* `RuleOptions` and `BuildEdge` hold what a rule and an edge are made of. Paths are given as they
  are and escaped when they are written; values of variables are written as they are given.
* `Statement` is any statement, and `Statement.write` is its text at a given line width, or the
  error that one of its paths cannot be written.
-/

namespace NinjaGen.Ninja

open Text (words fillLines joinSpaces)

/-! ## Rules and edges -/

/-- The attributes of a rule besides its command. What is left open is not written. -/
structure RuleOptions where
  description : Option String := none
  depfile : Option String := none
  generator : Bool := false
  pool : Option String := none
  restat : Bool := false
  rspfile : Option String := none
  rspfileContent : Option String := none
  deps : Option String := none
  deriving DecidableEq, Repr, Inhabited

/-- The attributes as variables, in the order in which they are written. -/
def RuleOptions.assignments (o : RuleOptions) : List (String × String) :=
  let given (key : String) (value : Option String) := value.toList.map fun v => (key, v)
  let flag (key : String) (b : Bool) := if b then [(key, "1")] else []
  given "description" o.description ++ given "depfile" o.depfile ++ flag "generator" o.generator ++
    given "pool" o.pool ++ flag "restat" o.restat ++ given "rspfile" o.rspfile ++
    given "rspfile_content" o.rspfileContent ++ given "deps" o.deps

/-- How files are made from others. -/
structure BuildEdge where
  outputs : List String
  /-- The name of the rule that is run. -/
  rule : String
  /-- The inputs that the command names. -/
  inputs : List String := []
  /-- The inputs that only make the outputs out of date. -/
  implicit : List String := []
  /-- The inputs that only have to be there before. -/
  orderOnly : List String := []
  /-- The variables of the edge. -/
  assignments : List (String × String) := []
  /-- The outputs that the command does not name. -/
  implicitOutputs : List String := []
  pool : Option String := none
  deriving DecidableEq, Repr

/-! ## Lines -/

/-- A line of a comment, which holds words. -/
def commentLine (ws : List (List Char)) : List Char := ['#', ' '] ++ joinSpaces ws

/-- The text of a comment: its words, filled into lines. -/
def commentText (lineWidth : Nat) (text : String) : List Char :=
  (fillLines (lineWidth - 2) (words text.toList)).flatMap (commentLine · ++ ['\n'])

/-- The text of a line. -/
def lineText (lineWidth level : Nat) (text : String) : List Char :=
  wrap lineWidth level text.toList

/-- The text of a variable; without a value there is none. -/
def variableText (lineWidth level : Nat) (key value : String) : List Char :=
  if value = "" then [] else lineText lineWidth level (key ++ " = " ++ value)

/-- Values with single spaces between them; empty ones are left out. -/
def joinValues (values : List String) : String := " ".intercalate (values.filter (· ≠ ""))

/-- The text of assignments to variables, one level deep. -/
def assignmentsText (lineWidth : Nat) (assignments : List (String × String)) : List Char :=
  assignments.flatMap fun v => variableText lineWidth 1 v.1 v.2

/-- Paths in their escaped form behind a mark; without paths there is no mark either. -/
def marked (mark : String) (paths : List String) : Except GenerationError (List String) := do
  let es ← escapePaths paths
  pure (if paths = [] then [] else mark :: es)

/-- The line of an edge. -/
def BuildEdge.line (e : BuildEdge) : Except GenerationError String := do
  let outputs ← escapePaths e.outputs
  let implicitOutputs ← marked "|" e.implicitOutputs
  let inputs ← escapePaths e.inputs
  let implicit ← marked "|" e.implicit
  let orderOnly ← marked "||" e.orderOnly
  pure ("build " ++ " ".intercalate (outputs ++ implicitOutputs) ++ ": " ++
    " ".intercalate (e.rule :: (inputs ++ implicit ++ orderOnly)))

/-! ## Statements -/

/-- A statement of a Ninja file. -/
inductive Statement
  | blank
  | comment (text : String)
  /-- A variable and its value. -/
  | assign (key value : String) (level : Nat)
  /-- A variable whose value is a list. -/
  | list (key : String) (values : List String) (level : Nat)
  | pool (name : String) (depth : Nat)
  | rule (name command : String) (options : RuleOptions)
  | build (edge : BuildEdge)
  /-- The statements of another file, in the scope of this one. -/
  | includeFile (path : String)
  /-- The statements of another file, in a scope of their own. -/
  | subninja (path : String)
  /-- What is built when nothing is asked for. -/
  | defaults (paths : List String)
  deriving DecidableEq, Repr

/-- The text of a statement, unless a path in it cannot be written. -/
def Statement.write (lineWidth : Nat) : Statement → Except GenerationError (List Char)
  | blank => .ok ['\n']
  | comment text => .ok (commentText lineWidth text)
  | assign key value level => .ok (variableText lineWidth level key value)
  | list key values level => .ok (variableText lineWidth level key (joinValues values))
  | pool name depth =>
    .ok (lineText lineWidth 0 ("pool " ++ name) ++
      variableText lineWidth 1 "depth" (toString depth))
  | rule name command options =>
    .ok (lineText lineWidth 0 ("rule " ++ name) ++
      assignmentsText lineWidth (("command", command) :: options.assignments))
  | build edge => do
    let line ← edge.line
    let pool := edge.pool.toList.map fun p => ("pool", p)
    pure (lineText lineWidth 0 line ++ assignmentsText lineWidth (pool ++ edge.assignments))
  | includeFile path => do
    let path ← escapePath path
    pure (lineText lineWidth 0 ("include " ++ path))
  | subninja path => do
    let path ← escapePath path
    pure (lineText lineWidth 0 ("subninja " ++ path))
  | defaults paths => do
    let es ← escapePaths paths
    pure (if paths = [] then [] else lineText lineWidth 0 ("default " ++ " ".intercalate es))

end NinjaGen.Ninja
