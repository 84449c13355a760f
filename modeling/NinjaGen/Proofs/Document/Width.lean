import NinjaGen.Proofs.Document.Lines
import NinjaGen.Proofs.Ninja.Widths

/-!
# The width of a build file

The width of the lines of a build file is a matter of layout, but for one thing: where a line is
broken between two spaces that follow each other, Ninja reads one space less.

* `BuildPlan.textAt` is the build file of a plan at a width; if there is one at some width, there
  is one at all (`BuildPlan.exists_textAt`).
* `BuildPlan.meanings` is what the statements of the file say, and `Document.bindings` are the
  variables among them.
* `BuildPlan.readFile_textAt`: at every width Ninja reads these statements, but for the length of
  the runs of spaces in values, and it reads the same at all widths exactly when no two spaces of a
  value follow each other.
-/

namespace NinjaGen

open Ninja

/-- The variables of a build file, each with its level, name and value. -/
def Document.bindings (d : Document) : List (Nat × String × String) :=
  (d.statements (escapedText d.buildRoot.text)).flatMap Statement.bindings

/-- The same options at another width. -/
def BuildContext.atWidth (ctx : BuildContext) (lineWidth : Nat) : BuildContext :=
  { ctx with options := { ctx.options with lineWidth := lineWidth } }

namespace BuildPlan

/-- The text of the build file of a plan at a width. -/
def textAt (p : BuildPlan) (ctx : BuildContext) (lineWidth : Nat) :
    Except GenerationError String := do
  let d ← p.document (ctx.atWidth lineWidth)
  d.render

/-- Whether the build file of a plan is read alike at all widths. -/
def ReadsAlike (p : BuildPlan) (ctx : BuildContext) : Prop :=
  ∀ w₁ w₂ t₁ t₂, p.textAt ctx w₁ = .ok t₁ → p.textAt ctx w₂ = .ok t₂ →
    readFile t₁.toList = readFile t₂.toList

/-- What the statements of a build file say. -/
def meanings (p : BuildPlan) (ctx : BuildContext) : List (Option Meaning) :=
  ((p.lines ctx).filterMap LogicalLine.statement?).map fun s => readStatement s.1 s.2

variable {p : BuildPlan} {ctx : BuildContext} {d : Document}

/-! ## Texts at all widths -/

/-- The document of a plan depends on the width in its width only. -/
theorem document_atWidth (h : p.document ctx = .ok d) (lineWidth : Nat) :
    p.document (ctx.atWidth lineWidth) = .ok { d with lineWidth := lineWidth } := by
  obtain ⟨hroot, hrules, hgroups, hdefaults, -⟩ := document_eq_ok_iff.1 h
  exact document_eq_ok_iff.2 ⟨hroot, hrules, hgroups, hdefaults, rfl⟩

/-- **If a plan has a build file, it has one at every width**, with the same statements. -/
theorem exists_textAt (h : p.document ctx = .ok d) {text : String} (ht : d.render = .ok text)
    (lineWidth : Nat) :
    ∃ t, p.textAt ctx lineWidth = .ok t ∧
      t.toList = ((d.statements (escapedText d.buildRoot.text)).flatMap
        Statement.lines).flatMap (·.write lineWidth) := by
  obtain ⟨hroot, hpaths, -⟩ := Document.render_eq_ok_iff.1 ht
  let t := ((d.statements (escapedText d.buildRoot.text)).flatMap Statement.lines).flatMap
    (·.write lineWidth)
  have hrender : { d with lineWidth := lineWidth }.render = .ok (String.ofList t) :=
    Document.render_eq_ok_iff.2 ⟨hroot, hpaths, String.toList_ofList⟩
  refine ⟨String.ofList t, ?_, String.toList_ofList⟩
  rw [textAt, document_atWidth h]
  exact hrender

/-! ## Variables -/

theorem isAssignment_of_mem_bindings (h : p.document ctx = .ok d)
    (hroot : hasLineBreak d.buildRoot.text = false) :
    ∀ s ∈ d.statements (escapedText d.buildRoot.text), ∀ v ∈ s.bindings,
      IsAssignment v.2 ∧ (v.1 = 0 → v.2.1 ∉ keywords) := by
  obtain ⟨-, hrules, hgroups, -, -⟩ := document_eq_ok_iff.1 h
  have hdeeper : ∀ {vs : List (String × String)}, (∀ v ∈ vs, IsAssignment v) →
      ∀ v ∈ vs.map fun v => (1, v), IsAssignment v.2 ∧ (v.1 = 0 → v.2.1 ∉ keywords) :=
    fun hvs => List.forall_mem_map.2 fun v hv => ⟨hvs v hv, by simp⟩
  simp only [Document.statements, List.forall_mem_append]
  refine ⟨⟨⟨?_, ?_⟩, ?_⟩, ?_⟩
  · refine List.forall_mem_cons.2 ⟨List.forall_mem_nil _, List.forall_mem_cons.2 ⟨by decide,
      List.forall_mem_cons.2 ⟨List.forall_mem_singleton.2 ⟨?_, fun _ => ?_⟩,
        List.forall_mem_singleton.2 (List.forall_mem_nil _)⟩⟩⟩
    · exact isAssignment (by decide) (isValue_escapedText hroot)
    · change "builddir" ∉ keywords
      decide
  · intro s hs
    obtain ⟨r, hr, hs⟩ := List.mem_flatMap.1 hs
    obtain ⟨rule, -, hrule⟩ := exists_of_mem_of_map_ok hrules hr
    rcases List.mem_cons.1 hs with rfl | hs
    · obtain ⟨hvs, hsound⟩ := Document.assignments_of_ruleDecl hrule
      exact hdeeper (hvs ▸ hsound)
    · obtain rfl := List.mem_singleton.1 hs
      exact List.forall_mem_nil _
  · intro s hs
    obtain ⟨g, hg, hs⟩ := List.mem_flatMap.1 hs
    obtain ⟨t, -, htg⟩ := exists_of_mem_of_map_ok hgroups hg
    obtain ⟨hedges, -⟩ := Document.edgeGroup_eq_ok_iff.1 htg
    simp only [Document.groupStatements, List.cons_append, List.mem_cons, List.mem_append,
      List.mem_map, List.not_mem_nil, or_false] at hs
    rcases hs with rfl | ⟨e, he, rfl⟩ | rfl
    · exact List.forall_mem_nil _
    · obtain ⟨step, -, hstep⟩ := exists_of_mem_of_map_ok hedges he
      exact hdeeper (Document.isAssignment_of_stepEdge hstep).2
    · exact List.forall_mem_nil _
  · unfold Document.defaultStatements
    split
    · exact List.forall_mem_nil _
    · simp [Statement.bindings, BuildEdge.variables]

/-- **The statements of a build file can be read back.** -/
theorem readable_of_mem_statements (h : p.document ctx = .ok d) {text : String}
    (ht : d.render = .ok text) :
    ∀ s ∈ d.statements (escapedText d.buildRoot.text), s.Readable := by
  obtain ⟨hroot, -, -, -, -⟩ := document_eq_ok_iff.1 h
  obtain ⟨hbreak, -, -⟩ := Document.render_eq_ok_iff.1 ht
  obtain ⟨-, hsound⟩ := render_eq_ok h ht
  rw [← lines_statements h, ← hroot] at hsound
  intro s hs
  have hbindings := isAssignment_of_mem_bindings h hbreak s hs
  exact ⟨fun l hl => hsound l (List.mem_flatMap.2 ⟨s, hs, hl⟩), fun v hv => (hbindings v hv).1,
    fun v hv => (hbindings v hv).2⟩

/-! ## Reading at all widths -/

/-- **The width of a build file changes the length of runs of spaces, and nothing else.** A plan
that has a build file has one at every width, of which Ninja reads the same statements but for the
spaces of values that follow others; and it reads the same statements at all widths exactly when
there are no such spaces, those at the start of a value apart. -/
theorem readFile_textAt (h : p.document ctx = .ok d) {text : String} (ht : d.render = .ok text) :
    (∀ w, ∃ t read, p.textAt ctx w = .ok t ∧ readFile t.toList = some read ∧
        read.map (Option.map Meaning.squeezed) =
          (p.meanings ctx).map (Option.map Meaning.squeezed)) ∧
      (p.ReadsAlike ctx ↔ ∀ v ∈ d.bindings, SingleSpaced (skipSpaces v.2.2.toList)) := by
  have hreadable := readable_of_mem_statements h ht
  obtain ⟨hroot, -, -, -, -⟩ := document_eq_ok_iff.1 h
  obtain ⟨-, hsound⟩ := render_eq_ok h ht
  constructor
  · intro w
    obtain ⟨t, htext, hlines⟩ := exists_textAt h ht w
    rw [hroot, lines_statements h] at hlines
    refine ⟨t, _, htext, hlines ▸ readFile_flatMap_write w hsound, ?_⟩
    rw [meanings, List.map_map, List.map_map]
    exact List.map_congr_left fun s hs =>
      squeezed_readAt w (oddAfter_of_mem_statements hsound s hs)
  · rw [Document.bindings, ← Statement.readFile_eq_iff hreadable]
    constructor
    · intro heq w₁ w₂
      obtain ⟨t₁, htext₁, hlines₁⟩ := exists_textAt h ht w₁
      obtain ⟨t₂, htext₂, hlines₂⟩ := exists_textAt h ht w₂
      rw [← hlines₁, ← hlines₂]
      exact heq w₁ w₂ t₁ t₂ htext₁ htext₂
    · intro heq w₁ w₂ t₁ t₂ htext₁ htext₂
      obtain ⟨_, htext₁', hlines₁⟩ := exists_textAt h ht w₁
      obtain ⟨_, htext₂', hlines₂⟩ := exists_textAt h ht w₂
      cases htext₁.symm.trans htext₁'
      cases htext₂.symm.trans htext₂'
      rw [hlines₁, hlines₂]
      exact heq w₁ w₂

/-- A plan of one compilation, with one flag. -/
def compiling (flag : String) : BuildPlan :=
  ⟨[{ name := "app", kind := .exe, output := ⟨"bin/app"⟩,
      steps := [.compile
        { source := ⟨"a.c"⟩, output := ⟨"build/a.o"⟩, lang := .c, flags := [flag],
          includeDirs := [], defines := [], target := "app" }] }]⟩

/-- The spaces at the start of a flag and single spaces are read alike at all widths, and two
spaces that follow each other are not. -/
theorem readFile_textAt_compiling :
    (∃ d text, (compiling "  -a -b $ ").document .usual = .ok d ∧ d.render = .ok text ∧
      (compiling "  -a -b $ ").ReadsAlike .usual) ∧
    ∃ d text, (compiling "-a  -b").document .usual = .ok d ∧ d.render = .ok text ∧
      ¬ (compiling "-a  -b").ReadsAlike .usual := by
  have hok : ∀ flag ∈ ["  -a -b $ ", "-a  -b"],
      ((compiling flag).document .usual >>= Document.render).isOk = true := by
    decide +kernel
  constructor
  · obtain ⟨text, hrender⟩ := isOk_iff.1 (hok "  -a -b $ " (by decide))
    obtain ⟨d, hd, ht⟩ := bind_eq_ok_iff.1 hrender
    have hsingle : (((compiling "  -a -b $ ").document .usual).map fun d =>
        decide (∀ v ∈ d.bindings, SingleSpaced (skipSpaces v.2.2.toList))) = .ok true := by
      decide +kernel
    rw [hd] at hsingle
    have hbindings := of_decide_eq_true (Except.ok.inj hsingle)
    exact ⟨d, text, hd, ht, (readFile_textAt hd ht).2.2 hbindings⟩
  · obtain ⟨text, hrender⟩ := isOk_iff.1 (hok "-a  -b" (by decide))
    obtain ⟨d, hd, ht⟩ := bind_eq_ok_iff.1 hrender
    have hdoubled : (((compiling "-a  -b").document .usual).map fun d =>
        decide (∀ v ∈ d.bindings, SingleSpaced (skipSpaces v.2.2.toList))) = .ok false := by
      decide +kernel
    rw [hd] at hdoubled
    refine ⟨d, text, hd, ht, fun hread => ?_⟩
    have hsingle := (readFile_textAt hd ht).2.1 hread
    cases (decide_eq_true hsingle).symm.trans (Except.ok.inj hdoubled)

end BuildPlan

end NinjaGen
