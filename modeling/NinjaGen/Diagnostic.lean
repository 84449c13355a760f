import NinjaGen.Path.Basic

/-!
# Diagnostics

A diagnostic is a message for the user: what went wrong, where, in which context, and what may be
done about it.

* `Diagnostic` holds the parts; `Diagnostic.suggest` and `Diagnostic.within` add to them.
* `Diagnostic.format` lays it out for a terminal, with or without colour.
-/

namespace NinjaGen

/-- How much a diagnostic matters. -/
inductive Severity
  | error
  | warning
  | note
  | help
  deriving DecidableEq, Repr

namespace Severity

/-- The word that opens a diagnostic. -/
def word : Severity → String
  | error => "error"
  | warning => "warning"
  | note => "note"
  | help => "help"

/-- The colour of that word, as the parameters of the terminal's escape sequence. -/
def colour : Severity → String
  | error => "1;31"
  | warning => "1;33"
  | note => "1;36"
  | help => "1;32"

/-- The word as it is shown. -/
def label (s : Severity) (colour : Bool) : String :=
  if colour then "\x1b[" ++ s.colour ++ "m" ++ s.word ++ "\x1b[0m" else s.word

end Severity

/-- A message for the user. -/
structure Diagnostic where
  severity : Severity
  message : String
  /-- What the message is about, one line each. -/
  context : List String := []
  /-- What may be done about it. -/
  suggestions : List String := []
  /-- The file concerned. -/
  location : Option Path := none
  deriving DecidableEq, Repr

namespace Diagnostic

/-- The diagnostic with one more suggestion, after those it has. -/
def suggest (d : Diagnostic) (suggestion : String) : Diagnostic :=
  { d with suggestions := d.suggestions ++ [suggestion] }

/-- The diagnostic with one more line of context, before those it has. -/
def within (d : Diagnostic) (line : String) : Diagnostic := { d with context := line :: d.context }

/-- The lines that number suggestions from `n` on. -/
def numbered (n : Nat) : List String → List String
  | [] => []
  | s :: r => ("  " ++ toString n ++ ". " ++ s ++ "\n") :: numbered (n + 1) r

/-- The layout of a diagnostic: the message, the location, the context, and after a blank line the
numbered suggestions. -/
def format (d : Diagnostic) (colour : Bool) : String :=
  let location := match d.location with
    | some path => ["  --> " ++ path.text ++ "\n"]
    | none => []
  let context := d.context.map fun line => "  = " ++ line ++ "\n"
  let suggestions :=
    if d.suggestions = [] then []
    else ("\n" ++ Severity.help.label colour ++ ": consider:\n") :: numbered 1 d.suggestions
  String.join
    ((d.severity.label colour ++ ": " ++ d.message ++ "\n") :: (location ++ context ++ suggestions))

end Diagnostic

end NinjaGen
