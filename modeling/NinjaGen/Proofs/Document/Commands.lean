import NinjaGen.Proofs.Document.Lines
import NinjaGen.Proofs.Ninja.Variables

/-!
# Command lines

A build file has one command for each rule, with references to the variables of the edges. What is
run for a step is the command line that the step calls for, word by word and literally.

* `Step.commandLine` is that line, written down from the step and the toolchain alone.
* `Document.tokens_command` reads the command of a rule: the words of `Rule.words` with spaces
  between them.
* `Document.fill_words` fills in the variables of the edge of a step, which turns the words of its
  rule into those of its command line.
* `BuildPlan.runs_commandLine_iff` puts this together for the steps of a plan.
-/

namespace NinjaGen

open Ninja Text

/-! ## The command line of a step -/

/-- The executable that a rule runs. Unity sources are written by the shell. -/
def ToolchainProfile.tool (t : ToolchainProfile) : Rule → String
  | .compile l => (t.compiler? l).getD ""
  | .link => t.linker
  | .archive => t.archiver
  | .unity => ""

/-- Paths as they stand on a command line. -/
def pathArgs (paths : List Path) : String := " ".intercalate (paths.map (·.text))

namespace Step

/-- The words of the command line that a step calls for. Lists of values are one word each. -/
def commandWords (t : ToolchainProfile) : Step → List String
  | unity s =>
    match t.platform with
    | .msvc =>
      ["cmd /c (for %f in (" ++ pathArgs s.members ++ ") do @echo #include \"%f\") >",
        s.output.text]
    | _ => ["printf '#include \"%s\"\\n'", pathArgs s.members, ">", s.output.text]
  | compile s =>
    let settings := [t.depsStyle.argsFor s.output.text, joinValues s.flags,
      joinValues (s.includeDirs.map t.includeArg), joinValues (s.defines.map t.defineArg)]
    let tool := t.tool (.compile s.lang)
    let output := t.outputStyle.compileArg s.output.text
    match t.platform with
    | .msvc => tool :: "/nologo" :: settings ++ ["/c", s.source.text, output]
    | _ => tool :: settings ++ ["-c", s.source.text, output]
  | link s =>
    let output := t.outputStyle.linkArg s.output.text
    match t.platform with
    | .msvc =>
      [t.linker, "/nologo", joinValues s.flags, output, pathArgs s.objects, joinValues s.libs]
    | _ => [t.linker, output, pathArgs s.objects, joinValues s.libs, joinValues s.flags]
  | archive s =>
    match t.platform with
    | .msvc => [t.archiver, "/nologo", t.outputStyle.linkArg s.output.text, pathArgs s.objects]
    | _ => [t.archiver, "rcs", s.output.text, pathArgs s.objects]

/-- **The command line that a step calls for.** -/
def commandLine (t : ToolchainProfile) (s : Step) : String := " ".intercalate (s.commandWords t)

/-- The edge of a step whose values can be written. -/
def edge (t : ToolchainProfile) : Step → BuildEdge
  | unity s =>
    { outputs := [s.output.text]
      rule := Rule.unity.name
      inputs := s.members.map (·.text) }
  | compile s =>
    { outputs := [s.output.text]
      rule := (Rule.compile s.lang).name
      inputs := [s.source.text]
      assignments :=
        [("flags", escapedValues s.flags), ("incs", escapedValues (s.includeDirs.map t.includeArg)),
          ("defines", escapedValues (s.defines.map t.defineArg))] }
  | link s =>
    { outputs := [s.output.text]
      rule := Rule.link.name
      inputs := s.objects.map (·.text)
      implicit := s.implicitInputs.map (·.text)
      assignments := [("libs", escapedValues s.libs), ("ldflags", escapedValues s.flags)] }
  | archive s =>
    { outputs := [s.output.text]
      rule := Rule.archive.name
      inputs := s.objects.map (·.text) }

@[simp] theorem rule_edge (t : ToolchainProfile) (s : Step) : (s.edge t).rule = s.rule.name := by
  cases s <;> rfl

/-- The values on the command line of a step. -/
def values (t : ToolchainProfile) : Step → List String
  | compile s => s.flags ++ s.includeDirs.map t.includeArg ++ s.defines.map t.defineArg
  | link s => s.libs ++ s.flags
  | unity _ | archive _ => []

end Step

/-! ## The words of a command -/

/-- The text between words. -/
def spaced (ws : List (List Token)) : List Token := [Token.char ' '].intercalate ws

theorem spaced_cons_cons (w v : List Token) (r : List (List Token)) :
    spaced (w :: v :: r) = w ++ .char ' ' :: spaced (v :: r) := by
  simp [spaced, List.intercalate]

theorem fill_spaced (σ : Scope) (ws : List (List Token)) :
    σ.fill (spaced ws) = joinSpaces (ws.map σ.fill) := by
  induction ws with
  | nil => rfl
  | cons w r ih =>
    cases r with
    | nil => simp [spaced, List.intercalate]
    | cons v r =>
      rw [spaced_cons_cons, Scope.fill_append, List.map_cons, List.map_cons, joinSpaces_cons_cons,
        ← List.map_cons, ← ih]
      rfl

namespace Rule

/-- The arguments that ask for headers, with a reference to the output. -/
def depsWord : DepsStyle → List Token
  | .gcc => literal "-MMD -MF ".toList ++ [.reference "out"] ++ literal ".d".toList
  | .msvc => literal "/showIncludes".toList

/-- The argument for an output of a compiler, with a reference to it. -/
def compileWord : OutputStyle → List Token
  | .gnu => literal "-o ".toList ++ [.reference "out"]
  | .msvc => literal "/Fo".toList ++ [.reference "out"]

/-- The argument for an output of a linker, with a reference to it. -/
def linkWord : OutputStyle → List Token
  | .gnu => literal "-o ".toList ++ [.reference "out"]
  | .msvc => literal "/OUT:".toList ++ [.reference "out"]

/-- The words of the command of a rule. -/
def words (t : ToolchainProfile) (r : Rule) : List (List Token) :=
  let tool := literal (t.tool r).toList
  match r with
  | compile _ =>
    let settings := [depsWord t.depsStyle, [.reference "flags"], [.reference "incs"],
      [.reference "defines"]]
    let output := compileWord t.outputStyle
    match t.platform with
    | .msvc =>
      tool :: literal "/nologo".toList :: settings ++
        [literal "/c".toList, [.reference "in"], output]
    | _ => tool :: settings ++ [literal "-c".toList, [.reference "in"], output]
  | link =>
    let output := linkWord t.outputStyle
    match t.platform with
    | .msvc =>
      [tool, literal "/nologo".toList, [.reference "ldflags"], output, [.reference "in"],
        [.reference "libs"]]
    | _ => [tool, output, [.reference "in"], [.reference "libs"], [.reference "ldflags"]]
  | archive =>
    match t.platform with
    | .msvc => [tool, literal "/nologo".toList, linkWord t.outputStyle, [.reference "in"]]
    | _ => [tool, literal "rcs".toList, [.reference "out"], [.reference "in"]]
  | unity =>
    match t.platform with
    | .msvc =>
      [literal "cmd /c (for %f in (".toList ++ [.reference "in"] ++
          literal ") do @echo #include \"%f\") >".toList,
        [.reference "out"]]
    | _ =>
      [literal "printf '#include \"%s\"\\n'".toList, [.reference "in"], literal ">".toList,
        [.reference "out"]]

end Rule

namespace Document

/-- A command whose tool is escaped and whose other words are given. -/
theorem tokens_spaced {tool : String} {rest : List Char} {w : List Token} {ws : List (List Token)}
    (h : tokens rest = some (.char ' ' :: spaced (w :: ws))) :
    tokens (escapeText tool.toList ++ rest) =
      some (spaced (literal tool.toList :: w :: ws)) := by
  rw [tokens_escapeText_append, h, spaced_cons_cons]
  rfl

theorem tool_compile {t : ToolchainProfile} {l : Language} {cc : String}
    (h : t.compiler l = .ok cc) : t.tool (.compile l) = cc := by
  rw [ToolchainProfile.tool, (ToolchainProfile.compiler_eq_ok_iff.1 h).1]
  rfl

theorem tokens_compileCommand {t : ToolchainProfile} {l : Language} {c : String}
    (h : t.compileCommand l = .ok c) :
    tokens c.toList = some (spaced ((Rule.compile l).words t)) := by
  obtain ⟨-, rfl⟩ := ToolchainProfile.compileText_of_compileCommand h
  rw [Rule.words, ToolchainProfile.tool, ToolchainProfile.compileText]
  -- Behind the compiler, the command depends on the conventions of the toolchain only.
  generalize t.depsStyle = deps, t.outputStyle = style, t.platform = platform
  cases platform <;> cases deps <;> cases style
  all_goals
    simp only [escapedText, String.toList_append, String.toList_ofList, List.append_assoc]
    exact tokens_spaced (by decide)

theorem tokens_linkCommand {t : ToolchainProfile} {c : String} (h : t.linkCommand = .ok c) :
    tokens c.toList = some (spaced (Rule.link.words t)) := by
  obtain ⟨-, rfl⟩ := ToolchainProfile.linkCommand_eq_ok_iff.1 h
  rw [Rule.words, ToolchainProfile.tool, ToolchainProfile.linkText]
  generalize t.outputStyle = style, t.platform = platform
  cases platform <;> cases style
  all_goals
    simp only [escapedText, String.toList_append, String.toList_ofList, List.append_assoc]
    exact tokens_spaced (by decide)

theorem tokens_archiveCommand {t : ToolchainProfile} {c : String} (h : t.archiveCommand = .ok c) :
    tokens c.toList = some (spaced (Rule.archive.words t)) := by
  obtain ⟨-, rfl⟩ := ToolchainProfile.archiveCommand_eq_ok_iff.1 h
  rw [Rule.words, ToolchainProfile.tool, ToolchainProfile.archiveText]
  generalize t.outputStyle = style, t.platform = platform
  cases platform <;> cases style
  all_goals
    simp only [escapedText, String.toList_append, String.toList_ofList, List.append_assoc]
    exact tokens_spaced (by decide)

theorem tokens_unityCommand (t : ToolchainProfile) :
    tokens t.unityCommand.toList = some (spaced (Rule.unity.words t)) := by
  rw [ToolchainProfile.unityCommand, Rule.words]
  generalize t.platform = platform
  cases platform <;> decide +kernel

/-- **The command of a rule** is read as the words of the rule with spaces between them. -/
theorem tokens_command {t : ToolchainProfile} {r : Rule} {d : RuleDecl} (h : ruleDecl t r = .ok d) :
    tokens d.command.toList = some (spaced (r.words t)) := by
  cases r with
  | compile l =>
    obtain ⟨c, hc, h⟩ := bind_eq_ok_iff.1 h
    obtain rfl := Except.ok.inj h
    exact tokens_compileCommand hc
  | link =>
    obtain ⟨c, hc, h⟩ := bind_eq_ok_iff.1 h
    obtain rfl := Except.ok.inj h
    exact tokens_linkCommand hc
  | archive =>
    obtain ⟨c, hc, h⟩ := bind_eq_ok_iff.1 h
    obtain rfl := Except.ok.inj h
    exact tokens_archiveCommand hc
  | unity =>
    obtain rfl := Except.ok.inj h
    exact tokens_unityCommand t

/-! ## Filling in the variables of an edge -/

theorem escapeText_joinSpaces (ws : List (List Char)) :
    escapeText (joinSpaces ws) = joinSpaces (ws.map escapeText) := by
  induction ws with
  | nil => rfl
  | cons w r ih =>
    cases r with
    | nil => simp
    | cons v r =>
      rw [joinSpaces_cons_cons, List.map_cons, List.map_cons, joinSpaces_cons_cons, ← List.map_cons,
        ← ih]
      simp [escapeText]

/-- The value of a variable for values is the escaped form of them on the command line. -/
theorem toList_escapedValues (vs : List String) :
    (escapedValues vs).toList = escapeText (joinValues vs).toList := by
  rw [escapedValues, joinValues, String.toList_intercalate, String.toList_intercalate]
  change joinSpaces _ = escapeText (joinSpaces _)
  rw [escapeText_joinSpaces, List.map_map, List.map_map]
  exact congrArg joinSpaces (List.map_congr_left fun v _ => String.toList_ofList)

/-- A step has its edge when its values have no line breaks, and none otherwise. -/
theorem stepEdge_eq_ok_iff {t : ToolchainProfile} {s : Step} {e : BuildEdge} :
    stepEdge t s = .ok e ↔ (∀ v ∈ s.values t, hasLineBreak v = false) ∧ e = s.edge t := by
  cases s with
  | unity s | archive s =>
    exact ⟨fun h => ⟨List.forall_mem_nil _, (Except.ok.inj h).symm⟩, fun ⟨_, he⟩ => he ▸ rfl⟩
  | compile s =>
    simp only [stepEdge, bind_eq_ok_iff, variableValue_eq_ok_iff, Step.values,
      List.forall_mem_append]
    constructor
    · rintro ⟨_, ⟨hflags, rfl⟩, _, ⟨hincs, rfl⟩, _, ⟨hdefines, rfl⟩, he⟩
      exact ⟨⟨⟨hflags, hincs⟩, hdefines⟩, (Except.ok.inj he).symm⟩
    · rintro ⟨⟨⟨hflags, hincs⟩, hdefines⟩, rfl⟩
      exact ⟨_, ⟨hflags, rfl⟩, _, ⟨hincs, rfl⟩, _, ⟨hdefines, rfl⟩, rfl⟩
  | link s =>
    simp only [stepEdge, bind_eq_ok_iff, variableValue_eq_ok_iff, Step.values,
      List.forall_mem_append]
    constructor
    · rintro ⟨_, ⟨hlibs, rfl⟩, _, ⟨hflags, rfl⟩, he⟩
      exact ⟨⟨hlibs, hflags⟩, (Except.ok.inj he).symm⟩
    · rintro ⟨⟨hlibs, hflags⟩, rfl⟩
      exact ⟨_, ⟨hlibs, rfl⟩, _, ⟨hflags, rfl⟩, rfl⟩

/-- No variable of an edge is assigned twice. -/
theorem nodup_assignments_edge (t : ToolchainProfile) (s : Step) :
    ((s.edge t).assignments.map (·.1)).Nodup := by
  cases s <;> simp [Step.edge]

/-- The values of the variables of an edge are escaped texts. -/
theorem exists_value_edge (t : ToolchainProfile) (s : Step) (name : String) :
    ∃ cs, (s.edge t).scope.value name = escapeText cs := by
  refine assigned_of_forall (P := fun v => ∃ cs, v.toList = escapeText cs) ⟨[], rfl⟩ ?_ name
  cases s with
  | unity s | archive s => exact List.forall_mem_nil _
  | compile s =>
    simp only [Step.edge, List.forall_mem_cons]
    exact ⟨⟨_, toList_escapedValues _⟩, ⟨_, toList_escapedValues _⟩, ⟨_, toList_escapedValues _⟩,
      List.forall_mem_nil _⟩
  | link s =>
    simp only [Step.edge, List.forall_mem_cons]
    exact ⟨⟨_, toList_escapedValues _⟩, ⟨_, toList_escapedValues _⟩, List.forall_mem_nil _⟩

theorem fill_depsWord {σ : Scope} {output : String} (h : σ.text "out" = output.toList)
    (d : DepsStyle) : σ.fill (Rule.depsWord d) = (d.argsFor output).toList := by
  cases d with
  | gcc => simp [Rule.depsWord, DepsStyle.argsFor, h]
  | msvc => exact Scope.fill_literal _

theorem fill_compileWord {σ : Scope} {output : String} (h : σ.text "out" = output.toList)
    (o : OutputStyle) : σ.fill (Rule.compileWord o) = (o.compileArg output).toList := by
  cases o <;> simp [Rule.compileWord, OutputStyle.compileArg, h]

theorem fill_linkWord {σ : Scope} {output : String} (h : σ.text "out" = output.toList)
    (o : OutputStyle) : σ.fill (Rule.linkWord o) = (o.linkArg output).toList := by
  cases o <;> simp [Rule.linkWord, OutputStyle.linkArg, h]

/-- What the variables of the edge of a step stand for. -/
theorem text_edge (t : ToolchainProfile) (s : Step) :
    (s.edge t).scope.text "out" = s.output.text.toList ∧
    match s with
    | .unity s => ((Step.unity s).edge t).scope.text "in" = (pathArgs s.members).toList
    | .compile s =>
      ((Step.compile s).edge t).scope.text "in" = s.source.text.toList ∧
        ((Step.compile s).edge t).scope.text "flags" = (joinValues s.flags).toList ∧
        ((Step.compile s).edge t).scope.text "incs" =
          (joinValues (s.includeDirs.map t.includeArg)).toList ∧
        ((Step.compile s).edge t).scope.text "defines" =
          (joinValues (s.defines.map t.defineArg)).toList
    | .link s =>
      ((Step.link s).edge t).scope.text "in" = (pathArgs s.objects).toList ∧
        ((Step.link s).edge t).scope.text "libs" = (joinValues s.libs).toList ∧
        ((Step.link s).edge t).scope.text "ldflags" = (joinValues s.flags).toList
    | .archive s => ((Step.archive s).edge t).scope.text "in" = (pathArgs s.objects).toList := by
  cases s <;>
    simp [Scope.text, BuildEdge.scope, Step.edge, pathArgs, assigned, Step.output,
      toList_escapedValues, unescape_escapeText]

/-- **The words of a command line** are those of the rule with the variables of the edge filled
in. -/
theorem fill_words (t : ToolchainProfile) (s : Step) :
    (s.rule.words t).map (s.edge t).scope.fill = (s.commandWords t).map String.toList := by
  obtain ⟨hout, htext⟩ := text_edge t s
  cases s with
  | unity s =>
    simp only [Step.rule, Rule.words, Step.commandWords]
    cases t.platform <;> simp [hout, htext, Step.output]
  | archive s =>
    simp only [Step.rule, Rule.words, Step.commandWords]
    cases t.platform <;> simp [hout, htext, Step.output, fill_linkWord hout, ToolchainProfile.tool]
  | compile s =>
    obtain ⟨hin, hflags, hincs, hdefines⟩ := htext
    simp only [Step.rule, Rule.words, Step.commandWords]
    cases t.platform <;>
      simp [hin, hflags, hincs, hdefines, Step.output, fill_depsWord hout, fill_compileWord hout]
  | link s =>
    obtain ⟨hin, hlibs, hldflags⟩ := htext
    simp only [Step.rule, Rule.words, Step.commandWords]
    cases t.platform <;>
      simp [hin, hlibs, hldflags, Step.output, fill_linkWord hout, ToolchainProfile.tool]

/-- **What is run for a step** is its command line, whether empty values are written or not. -/
theorem runs_iff {t : ToolchainProfile} {s : Step} {d : RuleDecl} (hd : ruleDecl t s.rule = .ok d)
    {line : String} :
    ((s.edge t).Runs d.command line ↔ line = s.commandLine t) ∧
      ((s.edge t).written.Runs d.command line ↔ line = s.commandLine t) := by
  have heval := Scope.evaluates_fill (exists_value_edge t s) (spaced (s.rule.words t))
  have hline : (s.edge t).scope.fill (spaced (s.rule.words t)) = (s.commandLine t).toList := by
    rw [fill_spaced, fill_words, Step.commandLine, String.toList_intercalate]
    rfl
  have hruns : (s.edge t).Runs d.command line ↔ line = s.commandLine t := by
    constructor
    · rintro ⟨ts, hts, heval'⟩
      cases (tokens_command hd).symm.trans hts
      exact String.toList_inj.1 ((heval'.unique heval).trans hline)
    · rintro rfl
      exact ⟨_, tokens_command hd, hline ▸ heval⟩
  refine ⟨hruns, ?_⟩
  rwa [BuildEdge.Runs, BuildEdge.scope_written (nodup_assignments_edge t s)]

/-! ## Rules that can be declared -/

/-- A rule can be declared when the name of its tool has no line breaks, provided that there is a
compiler if it compiles. -/
theorem exists_ruleDecl_iff {t : ToolchainProfile} {r : Rule}
    (h : ∀ l, r = .compile l → ∃ cc, t.compiler l = .ok cc) :
    (∃ d, ruleDecl t r = .ok d) ↔ hasLineBreak (t.tool r) = false := by
  cases r with
  | compile l =>
    obtain ⟨cc, hcc⟩ := h l rfl
    refine (exists_bind_eq_ok_iff fun _ => ⟨_, rfl⟩).trans ?_
    simp [ToolchainProfile.compileCommand_eq_ok_iff hcc, tool_compile hcc]
  | link =>
    refine (exists_bind_eq_ok_iff fun _ => ⟨_, rfl⟩).trans ?_
    simp [ToolchainProfile.linkCommand_eq_ok_iff, ToolchainProfile.tool]
  | archive =>
    refine (exists_bind_eq_ok_iff fun _ => ⟨_, rfl⟩).trans ?_
    simp [ToolchainProfile.archiveCommand_eq_ok_iff, ToolchainProfile.tool]
  | unity =>
    have hnone : hasLineBreak "" = false := by decide
    exact ⟨fun _ => hnone, fun _ => ⟨_, rfl⟩⟩

end Document

/-! ## Plans -/

/-- There is a compiler for the rule of every step of a plan. -/
theorem BuildPlan.exists_compiler {ctx : BuildContext} {targets : List Target} {plan : BuildPlan}
    (h : ofTargets ctx targets = .ok plan) {s : Step} (hs : s ∈ plan.steps) (l : Language)
    (hl : s.rule = .compile l) : ∃ cc, ctx.profile.compiler l = .ok cc := by
  obtain ⟨planned, hplanned, hs⟩ := List.mem_flatMap.1 hs
  obtain ⟨target, -, hexpand⟩ := exists_of_mem_of_map_ok (ofTargets_eq_ok_iff.1 h).1 hplanned
  obtain ⟨parts, hparts, rfl⟩ := expandTarget_eq_ok_iff.1 hexpand
  obtain ⟨-, -, -, hfinal⟩ := Expansion.parts_eq_ok_iff.1 hparts
  have hall := (parts.forall_mem_steps_iff ctx target
    (P := fun s => s.rule = .compile l → ∃ cc, ctx.profile.compiler l = .ok cc)).2 ⟨nofun, ?_, ?_⟩
  · exact hall s hs hl
  · rintro c hc ⟨⟩
    exact Expansion.exists_compiler hparts hc
  · have hlast : (parts.last ctx target).isFinal = true := by
      rw [Expansion.Parts.last, Step.isFinal_withObjects]
      exact (Expansion.output_of_finalStep hfinal).2
    intro hrule
    cases hstep : parts.last ctx target with
    | unity | compile =>
      rw [hstep] at hlast
      cases hlast
    | link | archive =>
      rw [hstep] at hrule
      cases hrule

/-- **What is run for a step of a plan is the command line that it calls for, literally.** The step
has an edge and a declared rule when no text on its command line has a line break; and then the
command of the rule, with the variables of the edge filled in, comes to that line and to no other,
whether the empty values of the edge are written or not. -/
theorem BuildPlan.runs_commandLine_iff {ctx : BuildContext} {targets : List Target}
    {plan : BuildPlan} (h : ofTargets ctx targets = .ok plan) {s : Step} (hs : s ∈ plan.steps) :
    ((∃ e d, Document.stepEdge ctx.profile s = .ok e ∧
        Document.ruleDecl ctx.profile s.rule = .ok d) ↔
      hasLineBreak (ctx.profile.tool s.rule) = false ∧
        ∀ v ∈ s.values ctx.profile, hasLineBreak v = false) ∧
    ∀ e d, Document.stepEdge ctx.profile s = .ok e → Document.ruleDecl ctx.profile s.rule = .ok d →
      e.rule = d.name ∧ ∀ line,
        (e.Runs d.command line ↔ line = s.commandLine ctx.profile) ∧
          (e.written.Runs d.command line ↔ line = s.commandLine ctx.profile) := by
  simp only [Document.stepEdge_eq_ok_iff,
    ← Document.exists_ruleDecl_iff (BuildPlan.exists_compiler h hs)]
  constructor
  · exact ⟨fun ⟨_, d, ⟨hvalues, _⟩, hd⟩ => ⟨⟨d, hd⟩, hvalues⟩,
      fun ⟨⟨d, hd⟩, hvalues⟩ => ⟨_, d, ⟨hvalues, rfl⟩, hd⟩⟩
  · rintro _ d ⟨-, rfl⟩ hd
    exact ⟨by rw [Step.rule_edge, Document.name_of_ruleDecl hd], fun line => Document.runs_iff hd⟩

/-- GCC with a linker whose name looks like a reference. -/
def BuildContext.oddlyLinked : BuildContext :=
  ⟨{ ToolchainProfile.ofPlatform .gcc with linker := "ld$in" }, .ofList [], {}⟩

/-- A `$` in the name of a tool and in a definition stays what it is, an empty flag is left out, and
what is linked against without naming it is not on the command line. -/
theorem BuildPlan.runs_commandLine_dollar :
    ∃ plan, ofTargets .oddlyLinked [.ofSettings "app" .exe "app" ["a.c"]
        { cflags := some [""], defines := some ["P=$out"], linkDeps := some ["z.a"] }] = .ok plan ∧
      plan.steps.map (·.commandLine BuildContext.oddlyLinked.profile) =
        ["gcc -MMD -MF build/a.c.o.d -g -I. -DP=$out -c a.c -o build/a.c.o",
          "ld$in -o build/app build/a.c.o  "] ∧
      ∀ s ∈ plan.steps, ∃ e d, Document.stepEdge BuildContext.oddlyLinked.profile s = .ok e ∧
        Document.ruleDecl BuildContext.oddlyLinked.profile s.rule = .ok d ∧
          e.Runs d.command (s.commandLine BuildContext.oddlyLinked.profile) := by
  have hcheck : (ofTargets .oddlyLinked [.ofSettings "app" .exe "app" ["a.c"]
      { cflags := some [""], defines := some ["P=$out"], linkDeps := some ["z.a"] }]).map
        (fun plan => decide (
          plan.steps.map (·.commandLine BuildContext.oddlyLinked.profile) =
            ["gcc -MMD -MF build/a.c.o.d -g -I. -DP=$out -c a.c -o build/a.c.o",
              "ld$in -o build/app build/a.c.o  "] ∧
          ∀ s ∈ plan.steps, hasLineBreak (BuildContext.oddlyLinked.profile.tool s.rule) = false ∧
            ∀ v ∈ s.values BuildContext.oddlyLinked.profile, hasLineBreak v = false)) =
        .ok true := by
    decide +kernel
  obtain ⟨plan, hplan, hcheck⟩ := map_eq_ok_iff.1 hcheck
  obtain ⟨hlines, hbreaks⟩ := of_decide_eq_true hcheck
  refine ⟨plan, hplan, hlines, fun s hs => ?_⟩
  obtain ⟨hexists, hruns⟩ := runs_commandLine_iff hplan hs
  obtain ⟨e, d, he, hd⟩ := hexists.2 (hbreaks s hs)
  exact ⟨e, d, he, hd, (((hruns e d he hd).2 _).1).2 rfl⟩

end NinjaGen
