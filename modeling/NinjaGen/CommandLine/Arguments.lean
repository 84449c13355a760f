import NinjaGen.Project

/-!
# Arguments

The arguments of the program are options of its own, the name of a command, and options of the
command. Some options may stand on either side of the name.

* `Flag` lists the options, and `Flag.ofLong?` and `Flag.ofLetter?` know their spellings.
* `readFlags` reads the options up to a name; it stops at the first argument that cannot be
  understood, or that asks for the version or for help.
* `Invocation.parse` reads all arguments.
* `parseVar` reads a binding, the name of which `isVarName` tests by itself.
-/

namespace NinjaGen.CommandLine

/-! ## Options -/

/-- The name of a command. -/
inductive CommandName
  | generate
  | plan
  | clean
  deriving DecidableEq, Repr

/-- The command of a name. -/
def CommandName.ofText? : String → Option CommandName
  | "generate" => some generate
  | "plan" => some plan
  | "clean" => some clean
  | _ => none

/-- An option. -/
inductive Flag
  | verbose
  | noColour
  | directory
  | version
  | help
  | release
  | profile
  | buildDir
  | var
  | unityBatchSize
  | output
  | stdout
  deriving DecidableEq, Repr

namespace Flag

/-- Whether the option may stand on either side of the name of the command. -/
def isGlobal : Flag → Bool
  | verbose | noColour | directory | help => true
  | _ => false

/-- Whether a command has the option; `none` stands for the program itself. -/
def isKnown (level : Option CommandName) (f : Flag) : Bool :=
  f.isGlobal ||
    match level with
    | none => f = version
    | some .generate => [release, profile, buildDir, var, unityBatchSize, output, stdout].contains f
    | some .plan => [release, profile, buildDir, var, unityBatchSize].contains f
    | some .clean => [buildDir, output].contains f

/-- Whether the option has a value. -/
def hasValue : Flag → Bool
  | directory | profile | buildDir | var | unityBatchSize | output => true
  | _ => false

/-- The option of a long name. -/
def ofLong? : String → Option Flag
  | "verbose" => some verbose
  | "no-color" => some noColour
  | "directory" => some directory
  | "version" => some version
  | "help" => some help
  | "release" => some release
  | "profile" => some profile
  | "build-dir" => some buildDir
  | "var" => some var
  | "unity-batch-size" => some unityBatchSize
  | "output" => some output
  | "stdout" => some stdout
  | _ => none

/-- The option of a letter. -/
def ofLetter? : Char → Option Flag
  | 'v' => some verbose
  | 'C' => some directory
  | 'V' => some version
  | 'h' => some help
  | 'r' => some release
  | 'o' => some output
  | _ => none

end Flag

/-! ## Values -/

/-- Whether characters can be the name of a binding: the first must not be a digit. -/
def isVarName (name : List Char) : Bool :=
  name ≠ [] && name.zipIdx.all fun (c, i) => c = '_' || c.isAlpha || (0 < i && c.isDigit)

/-- The name and the value of a binding, on either side of the first equals sign, or else what is
wrong with it. -/
def parseVar (s : String) : Except String (String × String) :=
  let name := s.toList.takeWhile (· ≠ '=')
  match s.toList.dropWhile (· ≠ '=') with
  | '=' :: value =>
    if isVarName name then .ok (String.ofList name, String.ofList value)
    else .error ("`" ++ String.ofList name ++ "` is not a valid placeholder name")
  | _ => .error ("expected KEY=VALUE, got `" ++ s ++ "`")

/-- The number that digits stand for, before which there may be a plus sign. -/
def parseSize (s : String) : Option Nat :=
  let digits := match s.toList with
    | '+' :: r => r
    | r => r
  let n := Toml.digitsValue 10 digits
  if digits ≠ [] ∧ digits.all Char.isDigit ∧ n < UInt64.size then some n else none

/-- Whether an option may have a value. -/
def Flag.admits (f : Flag) (value : String) : Bool :=
  match f with
  | .profile => (Platform.ofName? value).isSome
  | .var => (parseVar value).isOk
  | .unityBatchSize => (parseSize value).isSome
  | .directory | .buildDir | .output => value ≠ ""
  | _ => true

/-! ## Reading options -/

/-- Why arguments are not acted upon. -/
inductive Stop
  /-- They cannot be understood. -/
  | misuse
  /-- They ask for the version. -/
  | version
  /-- They ask for help. -/
  | help
  deriving DecidableEq, Repr

/-- Options that were given, with their values. -/
abbrev Given := List (Flag × String)

/-- The given options with one more. Only bindings may be given again. -/
def give (level : Option CommandName) (given : Given) (f : Flag) (value : String) :
    Except Stop Given :=
  if !f.isKnown level then .error .misuse
  else
    match f with
    | .version => .error .version
    | .help => .error .help
    | _ =>
      if (f ≠ .var && given.any (·.1 = f)) || !f.admits value then .error .misuse
      else .ok (given ++ [(f, value)])

/-- The value of an option among the arguments after it: the next one, unless it looks like an
option. -/
def nextValue : List String → Except Stop (String × List String)
  | [] => .error .misuse
  | a :: r => if a.toList.head? = some '-' ∧ a ≠ "-" then .error .misuse else .ok (a, r)

/-- The given options with those of a group of letters. The rest of the group is the value of a
letter that has one; if there is no rest, the value is the argument `after` the group. -/
def giveLetters (level : Option CommandName) (given : Given) (after : List String) :
    List Char → Except Stop (Given × List String)
  | [] => .ok (given, after)
  | c :: r =>
    match Flag.ofLetter? c with
    | none => .error .misuse
    | some f =>
      if !f.isKnown level then .error .misuse
      else if f.hasValue then
        match r with
        | [] => do
          let (value, after) ← nextValue after
          let given ← give level given f value
          pure (given, after)
        | '=' :: value => do
          let given ← give level given f (String.ofList value)
          pure (given, after)
        | value => do
          let given ← give level given f (String.ofList value)
          pure (given, after)
      else do
        let given ← give level given f ""
        giveLetters level given after r

/-- The given options with the one of a long name, after which there may be an equals sign and a
value. -/
def giveLong (level : Option CommandName) (given : Given) (after : List String) (cs : List Char) :
    Except Stop (Given × List String) :=
  match Flag.ofLong? (String.ofList (cs.takeWhile (· ≠ '='))) with
  | none => .error .misuse
  | some f =>
    if !f.isKnown level then .error .misuse
    else
      match cs.dropWhile (· ≠ '='), f.hasValue with
      | '=' :: value, true => do
        let given ← give level given f (String.ofList value)
        pure (given, after)
      | _ :: _, _ => .error .misuse
      | [], true => do
        let (value, after) ← nextValue after
        let given ← give level given f value
        pure (given, after)
      | [], false => do
        let given ← give level given f ""
        pure (given, after)

/-- Whether there is help for what `help` is followed by: nothing, or one name of a command. -/
def isHelpTopic : List String → Bool
  | [] => true
  | [name] => name = "help" || (CommandName.ofText? name).isSome
  | _ => false

/-- The options at the start of the arguments, and the name of the command after them with the
arguments that follow. A command has no arguments besides options. -/
def readFlags (level : Option CommandName) (given : Given) (args : List String) :
    Except Stop (Given × Option (CommandName × List String)) :=
  match args with
  | [] => .ok (given, none)
  | a :: r =>
    match a.toList with
    | ['-', '-'] => if r = [] then .ok (given, none) else .error .misuse
    | '-' :: '-' :: name => do
      let (given, rest) ← giveLong level given r name
      if _h : rest.length ≤ r.length then readFlags level given rest else .error .misuse
    | '-' :: c :: letters => do
      let (given, rest) ← giveLetters level given r (c :: letters)
      if _h : rest.length ≤ r.length then readFlags level given rest else .error .misuse
    | _ =>
      match level, CommandName.ofText? a with
      | none, some command => .ok (given, some (command, r))
      | none, none =>
        if a = "help" ∧ isHelpTopic r then .error .help else .error .misuse
      | some _, _ => .error .misuse
termination_by args.length
decreasing_by all_goals (simp only [List.length_cons]; omega)

/-! ## Commands -/

/-- What the program is asked to do. -/
inductive Command
  /-- Write the build file, or its text to the standard output. -/
  | generate (overrides : Overrides) (toStdout : Bool)
  /-- Show the plan. -/
  | plan (overrides : Overrides)
  /-- Remove what was generated. -/
  | clean (overrides : Overrides)
  deriving DecidableEq, Repr

/-- The arguments of a run. -/
structure Invocation where
  verbose : Bool
  colour : Bool
  /-- The directory in which to run. -/
  directory : Option Path
  command : Command
  deriving DecidableEq, Repr

/-- The value of an option. -/
def Given.value? (given : Given) (f : Flag) : Option String :=
  (given.find? (·.1 = f)).map (·.2)

/-- Whether an option was given. -/
def Given.has (given : Given) (f : Flag) : Bool := given.any (·.1 = f)

/-- The choices that options make, where `asked` is the family of compilers. -/
def Given.overrides (given : Given) (asked : Option Platform) : Overrides where
  release := given.has .release
  profile := asked
  buildDir := (given.value? .buildDir).map Path.mk
  output := (given.value? .output).map Path.mk
  unityBatchSize := (given.value? .unityBatchSize).bind parseSize
  vars := given.filterMap fun g => if g.1 = .var then (parseVar g.2).toOption else none

/-- The family of compilers that an option asks for, or else the environment. -/
def Given.platform (given : Given) (environment : Option String) :
    Except Stop (Option Platform) :=
  match (given.value? .profile).or environment with
  | none => .ok none
  | some name =>
    match Platform.ofName? name with
    | some p => .ok (some p)
    | none => .error .misuse

/-- What the arguments ask for, where `environment` is the family of compilers that the environment
asks for. An option that stands on both sides of the command counts where it stands behind. That
options exclude each other shows only when all have been read. -/
def Invocation.parse (environment : Option String) (args : List String) :
    Except Stop Invocation := do
  let (outer, rest) ← readFlags none [] args
  match rest with
  | none => .error .misuse
  | some (name, rest) =>
    let (inner, _) ← readFlags (some name) [] rest
    let command ← match name with
      | .generate => do
        if inner.has .stdout && inner.has .output then .error .misuse
        else do
          let asked ← inner.platform environment
          pure (Command.generate (inner.overrides asked) (inner.has .stdout))
      | .plan => do
        let asked ← inner.platform environment
        pure (Command.plan (inner.overrides asked))
      | .clean => pure (Command.clean (inner.overrides none))
    pure
      { verbose := inner.has .verbose || outer.has .verbose
        colour := !(inner.has .noColour || outer.has .noColour)
        directory := ((inner.value? .directory).or (outer.value? .directory)).map Path.mk
        command := command }

end NinjaGen.CommandLine
