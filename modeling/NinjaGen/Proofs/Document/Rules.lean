import NinjaGen.Document
import NinjaGen.Proofs.Ninja.Statements

/-!
# The rules of a build file

A build file declares the rules that its steps use, each with the command that it runs.

* `Rule.named` are the rules by their names, in the order of a build file, and `Step.ruleName` is
  the name of the one that a step uses.
* `Rule.assignments` are the variables of a rule: its command, with the tool of the toolchain in
  front and the variables of an edge in the place of its files and flags, its description, and where
  a compiler reports headers. The toolchain puts the same commands together
  (`ToolchainProfile.compileCommand_eq_ok_iff` and its like), and a rule is declared with these
  variables (`Document.assignments_of_ruleDecl`).
* `BuildPlan.ruleLines` are the lines of the rules that the steps of a plan use, written down from
  the steps and the toolchain alone. They are those of the declarations in the document of the plan
  (`BuildPlan.ruleLines_eq`), and they can be read back (`BuildPlan.sound_of_mem_ruleLines`).
-/

namespace NinjaGen

open Ninja

/-! ## What a rule says -/

/-- The arguments that ask a compiler for the headers of the source of an object. -/
def DepsStyle.argsFor (output : String) : DepsStyle → String
  | gcc => "-MMD -MF " ++ output ++ ".d"
  | msvc => "/showIncludes"

/-- The variables that tell where the headers are reported. -/
def DepsStyle.assignments : DepsStyle → List (String × String)
  | gcc => [("depfile", "$out.d"), ("deps", "gcc")]
  | msvc => [("deps", "msvc")]

/-- The argument that tells a compiler where its output goes. -/
def OutputStyle.compileArg (output : String) : OutputStyle → String
  | gnu => "-o " ++ output
  | msvc => "/Fo" ++ output

/-- The argument that tells a linker or an archiver where its output goes. -/
def OutputStyle.linkArg (output : String) : OutputStyle → String
  | gnu => "-o " ++ output
  | msvc => "/OUT:" ++ output

namespace ToolchainProfile

/-- The command of a rule that compiles. -/
def compileText (t : ToolchainProfile) (compiler : String) : String :=
  let args := t.depsStyle.argsFor "$out"
  let output := t.outputStyle.compileArg "$out"
  match t.platform with
  | .msvc =>
    escapedText compiler ++ " /nologo " ++ args ++ " $flags $incs $defines /c $in " ++ output
  | .gcc | .clang =>
    escapedText compiler ++ " " ++ args ++ " $flags $incs $defines -c $in " ++ output

/-- The command of the rule that links. -/
def linkText (t : ToolchainProfile) : String :=
  let output := t.outputStyle.linkArg "$out"
  match t.platform with
  | .msvc => escapedText t.linker ++ " /nologo $ldflags " ++ output ++ " $in $libs"
  | .gcc | .clang => escapedText t.linker ++ " " ++ output ++ " $in $libs $ldflags"

/-- The command of the rule that makes static libraries. -/
def archiveText (t : ToolchainProfile) : String :=
  match t.platform with
  | .msvc => escapedText t.archiver ++ " /nologo " ++ t.outputStyle.linkArg "$out" ++ " $in"
  | .gcc | .clang => escapedText t.archiver ++ " rcs $out $in"

/-- The command of the rule that writes unity sources. -/
def unityText (t : ToolchainProfile) : String :=
  match t.platform with
  | .msvc => "cmd /c (for %f in ($in) do @echo #include \"%f\") > $out"
  | .gcc | .clang => "printf '#include \"%s\"\\n' $in > $out"

end ToolchainProfile

namespace Rule

/-- **The variables of a rule**, in the order in which they are written. A rule that compiles is
used only where there is a compiler. -/
def assignments (t : ToolchainProfile) : Rule → List (String × String)
  | compile .c =>
    ("command", t.compileText (t.cCompiler.getD "")) :: ("description", "CC $out") ::
      t.depsStyle.assignments
  | compile .cxx =>
    ("command", t.compileText (t.cxxCompiler.getD "")) :: ("description", "CXX $out") ::
      t.depsStyle.assignments
  | link => [("command", t.linkText), ("description", "LINK $out")]
  | archive => [("command", t.archiveText), ("description", "AR $out")]
  | unity => [("command", t.unityText), ("description", "UNITY $out")]

/-- The rules by their names, in the order of a build file. -/
def named : List (String × Rule) :=
  [("cc", compile .c), ("cxx", compile .cxx), ("link", link), ("ar", archive), ("unity", unity)]

end Rule

/-- The name of the rule that a step uses. -/
def Step.ruleName : Step → String
  | compile s =>
    match s.lang with
    | .c => "cc"
    | .cxx => "cxx"
  | link _ => "link"
  | archive _ => "ar"
  | unity _ => "unity"

/-- The lines of a rule: its name, its variables one level deeper, and a blank line. -/
def Document.ruleLines (name : String) (vs : List (String × String)) : List LogicalLine :=
  .statement 0 ("rule " ++ name).toList :: vs.flatMap (variableLines 1) ++ [.blank]

/-- **The lines of the rules of a build file**: of those that some step uses. -/
def BuildPlan.ruleLines (p : BuildPlan) (t : ToolchainProfile) : List LogicalLine :=
  (Rule.named.filter fun r => p.targets.any fun q => q.steps.any (·.ruleName = r.1)).flatMap
    fun r => Document.ruleLines r.1 (r.2.assignments t)

/-! ## Commands -/

namespace ToolchainProfile

variable {t : ToolchainProfile} {l : Language} {c : String}

theorem argsFor_out (d : DepsStyle) : d.argsFor "$out" = d.compileArgs := by
  cases d <;> decide

theorem compileArg_out (o : OutputStyle) : o.compileArg "$out" = o.compileOutput := by
  cases o <;> decide

theorem linkArg_out (o : OutputStyle) : o.linkArg "$out" = o.linkOutput := by
  cases o <;> decide

theorem isValue_argsFor (d : DepsStyle) : IsValue (d.argsFor "$out").toList := by
  cases d <;> decide

theorem isValue_compileArg (o : OutputStyle) : IsValue (o.compileArg "$out").toList := by
  cases o <;> decide

theorem isValue_linkArg (o : OutputStyle) : IsValue (o.linkArg "$out").toList := by
  cases o <;> decide

theorem isValue_compileText {compiler : String} (h : hasLineBreak compiler = false) :
    IsValue (t.compileText compiler).toList := by
  have htool := isValue_escapedText h
  have hargs := isValue_argsFor t.depsStyle
  have hout := isValue_compileArg t.outputStyle
  unfold compileText
  cases t.platform
  all_goals
    simp only [String.toList_append]
    exact (((htool.append (by decide)).append hargs).append (by decide)).append hout

theorem isValue_linkText (h : hasLineBreak t.linker = false) : IsValue t.linkText.toList := by
  have htool := isValue_escapedText h
  have hout := isValue_linkArg t.outputStyle
  unfold linkText
  cases t.platform
  all_goals
    simp only [String.toList_append]
    exact ((htool.append (by decide)).append hout).append (by decide)

theorem isValue_archiveText (h : hasLineBreak t.archiver = false) :
    IsValue t.archiveText.toList := by
  have htool := isValue_escapedText h
  unfold archiveText
  cases t.platform with
  | msvc =>
    simp only [String.toList_append]
    exact ((htool.append (by decide)).append (isValue_linkArg t.outputStyle)).append (by decide)
  | gcc | clang =>
    rw [String.toList_append]
    exact htool.append (by decide)

theorem isValue_unityText (t : ToolchainProfile) : IsValue t.unityText.toList := by
  unfold unityText
  cases t.platform <;> decide

/-- A command can be put together when its tool has a name without line breaks. -/
theorem escape_bind_eq_ok_iff {tool text : String} {f : String → Except GenerationError String}
    (h : f (escapedText tool) = .ok text) :
    (escape tool >>= f) = .ok c ↔ hasLineBreak tool = false ∧ c = text := by
  simp only [bind_eq_ok_iff, escape_eq_ok_iff]
  constructor
  · rintro ⟨_, ⟨hbreak, rfl⟩, hc⟩
    exact ⟨hbreak, Except.ok.inj (hc.symm.trans h)⟩
  · rintro ⟨hbreak, rfl⟩
    exact ⟨_, ⟨hbreak, rfl⟩, h⟩

theorem compileCommand_eq_ok_iff {cc : String} (h : t.compiler l = .ok cc) :
    t.compileCommand l = .ok c ↔ hasLineBreak cc = false ∧ c = t.compileText cc := by
  rw [compileCommand, h]
  refine escape_bind_eq_ok_iff ?_
  rw [compileText, argsFor_out, compileArg_out]
  cases t.platform <;> rfl

theorem compileText_of_compileCommand (h : t.compileCommand l = .ok c) :
    hasLineBreak ((t.compiler? l).getD "") = false ∧
      c = t.compileText ((t.compiler? l).getD "") := by
  obtain ⟨cc, hcc, -⟩ := bind_eq_ok_iff.1 h
  rw [(compiler_eq_ok_iff.1 hcc).1]
  exact (compileCommand_eq_ok_iff hcc).1 h

theorem linkCommand_eq_ok_iff :
    t.linkCommand = .ok c ↔ hasLineBreak t.linker = false ∧ c = t.linkText := by
  refine escape_bind_eq_ok_iff ?_
  rw [linkText, linkArg_out]
  cases t.platform <;> rfl

theorem archiveCommand_eq_ok_iff :
    t.archiveCommand = .ok c ↔ hasLineBreak t.archiver = false ∧ c = t.archiveText := by
  refine escape_bind_eq_ok_iff ?_
  rw [archiveText, linkArg_out]
  cases t.platform <;> rfl

theorem unityCommand_eq (t : ToolchainProfile) : t.unityCommand = t.unityText := by
  unfold unityCommand unityText
  cases t.platform <;> rfl

end ToolchainProfile

/-! ## Declarations -/

namespace Document

variable {t : ToolchainProfile} {r : Rule} {d : RuleDecl}

theorem name_of_ruleDecl (h : ruleDecl t r = .ok d) : d.name = r.name := by
  cases r with
  | compile | link | archive =>
    obtain ⟨_, -, h⟩ := bind_eq_ok_iff.1 h
    cases h
    rfl
  | unity =>
    cases h
    rfl

theorem complete_name (r : Rule) : Complete r.name.toList := by
  cases r with
  | compile l => cases l <;> decide
  | link | archive | unity => decide

/-- What a rule that compiles says besides its command. -/
theorem assignments_compileOptions (deps : DepsStyle) (label : String) :
    RuleOptions.assignments
        { description := some label, deps := some deps.word, depfile := deps.depfile? } =
      ("description", label) :: deps.assignments := by
  cases deps <;> rfl

theorem isAssignment_of_mem_assignments (deps : DepsStyle) :
    ∀ v ∈ deps.assignments, IsAssignment v := by
  cases deps <;> decide

/-- **A rule is declared with its variables**, and they can be written. -/
theorem assignments_of_ruleDecl (h : ruleDecl t r = .ok d) :
    ruleVariables d.command d.options = r.assignments t ∧
      ∀ v ∈ r.assignments t, IsAssignment v := by
  cases r with
  | compile l =>
    obtain ⟨_, hc, h⟩ := bind_eq_ok_iff.1 h
    obtain rfl := Except.ok.inj h
    obtain ⟨hbreak, rfl⟩ := ToolchainProfile.compileText_of_compileCommand hc
    have hcommand : IsAssignment ("command", t.compileText ((t.compiler? l).getD "")) :=
      isAssignment (by decide) (ToolchainProfile.isValue_compileText hbreak)
    have hdeps := isAssignment_of_mem_assignments t.depsStyle
    rw [ruleVariables, assignments_compileOptions]
    cases l with
    | c | cxx =>
      exact ⟨rfl, List.forall_mem_cons.2 ⟨hcommand, List.forall_mem_cons.2 ⟨by decide, hdeps⟩⟩⟩
  | link =>
    obtain ⟨_, hc, h⟩ := bind_eq_ok_iff.1 h
    obtain rfl := Except.ok.inj h
    obtain ⟨hbreak, rfl⟩ := ToolchainProfile.linkCommand_eq_ok_iff.1 hc
    exact ⟨rfl, List.forall_mem_cons.2
      ⟨isAssignment (by decide) (ToolchainProfile.isValue_linkText hbreak), by decide⟩⟩
  | archive =>
    obtain ⟨_, hc, h⟩ := bind_eq_ok_iff.1 h
    obtain rfl := Except.ok.inj h
    obtain ⟨hbreak, rfl⟩ := ToolchainProfile.archiveCommand_eq_ok_iff.1 hc
    exact ⟨rfl, List.forall_mem_cons.2
      ⟨isAssignment (by decide) (ToolchainProfile.isValue_archiveText hbreak), by decide⟩⟩
  | unity =>
    obtain rfl := Except.ok.inj h
    rw [ToolchainProfile.unityCommand_eq]
    exact ⟨rfl, List.forall_mem_cons.2
      ⟨isAssignment (by decide) (ToolchainProfile.isValue_unityText t), by decide⟩⟩

/-- The lines of a rule can be read back. -/
theorem sound_of_mem_ruleLines (h : ruleDecl t r = .ok d) :
    ∀ l ∈ ruleLines r.name (r.assignments t), l.Sound := by
  obtain ⟨-, hvs⟩ := assignments_of_ruleDecl h
  refine List.forall_mem_append.2
    ⟨List.forall_mem_cons.2 ⟨⟨?_, ?_⟩, ?_⟩, by simp [LogicalLine.Sound]⟩
  · rw [String.toList_append]
    exact .append (by decide) (complete_name r)
  · rw [String.toList_append]
    exact startsStatement_append (by decide) _
  · intro l hl
    obtain ⟨v, hv, hl⟩ := List.mem_flatMap.1 hl
    exact sound_of_mem_variableLines (hvs v hv) hl

end Document

/-! ## The rules of a plan -/

theorem Rule.named_eq : named = all.map fun r => (r.name, r) := rfl

theorem Step.name_rule (s : Step) : s.rule.name = s.ruleName := by
  cases s with
  | compile s =>
    rw [rule, ruleName]
    cases s.lang <;> rfl
  | unity | link | archive => rfl

theorem Rule.name_injective : Function.Injective name := by
  have h : ∀ r ∈ all, ∀ q ∈ all, r.name = q.name → r = q := by decide
  exact fun r q => h r (mem_all r) q (mem_all q)

namespace BuildPlan

variable {p : BuildPlan} {t : ToolchainProfile} {rules : List RuleDecl}

/-- The rules that some step uses are those of the names of steps. -/
theorem ruleLines_eq_flatMap (p : BuildPlan) (t : ToolchainProfile) :
    p.ruleLines t = p.usedRules.flatMap fun r => Document.ruleLines r.name (r.assignments t) := by
  have huse : ∀ r : Rule, (p.targets.any fun q => q.steps.any (·.ruleName = r.name)) =
      p.steps.any (·.rule = r) := by
    intro r
    simp only [steps, List.any_flatMap, ← Step.name_rule, Rule.name_injective.eq_iff]
  rw [ruleLines, Rule.named_eq, List.filter_map, List.flatMap_map, usedRules, ← funext huse]
  rfl

/-- **The rules of a build file are declared as the plan calls for.** -/
theorem ruleLines_eq (h : p.usedRules.map (Document.ruleDecl t) = rules.map .ok) :
    p.ruleLines t =
      rules.flatMap fun d => Document.ruleLines d.name (ruleVariables d.command d.options) := by
  rw [ruleLines_eq_flatMap]
  refine (flatMap_eq_of_map_ok h fun r d hd => ?_).symm
  rw [Document.name_of_ruleDecl hd, (Document.assignments_of_ruleDecl hd).1]

theorem sound_of_mem_ruleLines (h : p.usedRules.map (Document.ruleDecl t) = rules.map .ok) :
    ∀ l ∈ p.ruleLines t, l.Sound := by
  rw [ruleLines_eq_flatMap]
  intro l hl
  obtain ⟨r, hr, hl⟩ := List.mem_flatMap.1 hl
  obtain ⟨d, -, hd⟩ := exists_ok_of_mem_of_map_ok h hr
  exact Document.sound_of_mem_ruleLines hd l hl

end BuildPlan

end NinjaGen
