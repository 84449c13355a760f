import NinjaGen.CommandLine.Run
import NinjaGen.Proofs.Data.JsonReading

/-!
# Plans in JSON

A plan is exchanged as the JSON notation of its value, and nothing of it is lost on the way.

* `Step.ofValue_toValue`, `PlannedTarget.ofValue_toValue` and `BuildPlan.ofValue_toValue`: what is
  written as a value is read from it.
* `BuildPlan.exact_toValue`: the value of a plan can be told from its notation, so
  `BuildPlan.ofJson?` reads the plan from its text (`BuildPlan.ofJson?_json`).
* `BuildPlan.json_faithful` is what follows for the texts that the program shows.
-/

namespace NinjaGen

/-! ## Values and their forms -/

/-- Items are read back from a list when each of them is. -/
theorem mapM_map_eq_ok {α β ε : Type} {write : β → α} {read : α → Except ε β}
    (h : ∀ b, read (write b) = .ok b) (bs : List β) : (bs.map write).mapM read = .ok bs := by
  rw [mapM_eq_ok_iff, List.map_map]
  exact List.map_congr_left fun b _ => h b

theorem Fields.required_cons {α : Type} (other name : String) (v : Value)
    (fields : List (String × Value)) (read : Value → Except DecodeError α) :
    Fields.required ((other, v) :: fields) name read =
      if other = name then read v else Fields.required fields name read := by
  by_cases h : other = name <;> simp [Fields.required, Fields.field?, h]

namespace Value

@[simp] theorem asString_string (s : String) : (string s).asString = .ok s := rfl

@[simp] theorem asPath_string (p : Path) : (string p.text).asPath = .ok p := rfl

@[simp] theorem asList_list (items : List Value) : (list items).asList = .ok items := rfl

@[simp] theorem asRecord_record (c : Convention) (names : List String)
    (fields : List (String × Value)) : (record fields).asRecord c names = .ok fields := rfl

@[simp] theorem asStrings_ofStrings (ss : List String) : (ofStrings ss).asStrings = .ok ss :=
  mapM_map_eq_ok asString_string ss

@[simp] theorem asPaths_ofPaths (ps : List Path) : (ofPaths ps).asPaths = .ok ps := by
  have hlist : ofPaths ps = ofStrings (ps.map Path.text) := by
    simp [ofPaths, ofStrings, Function.comp_def]
  rw [hlist, asPaths, asStrings_ofStrings]
  simp [Except.map, Function.comp_def]

theorem asNamed_string {α : Type} {ofWord? : String → Option α} {word : String} {a : α}
    (h : ofWord? word = some a) (c : Convention) : (string word).asNamed c ofWord? = .ok a := by
  have hword : (string word).asWord c = .ok word := rfl
  rw [asNamed, hword]
  simp [h, bind, Except.bind, pure, Except.pure]

end Value

/-! ## Reading back -/

theorem Step.kindOf_record (kind : String) (fields : List (String × Value)) :
    Step.kindOf (.record (("type", .string kind) :: fields)) =
      .ok (kind, .record (("type", .string kind) :: fields)) := by
  simp only [Step.kindOf, Fields.required_cons]
  rfl

/-- A step is read from its value. -/
theorem Step.ofValue_toValue (s : Step) : Step.ofValue s.toValue = .ok s := by
  have hlang (l : Language) (c : Convention) :
      (Value.string l.ident).asNamed c Language.ofWord? = .ok l :=
    Value.asNamed_string l.ofWord?_ident c
  have hmode (m : LinkMode) (c : Convention) :
      (Value.string m.word).asNamed c LinkMode.ofWord? = .ok m :=
    Value.asNamed_string m.ofWord?_word c
  cases s with
  | unity s =>
    simp [toValue, ofValue, kindOf_record, Fields.required_cons, hlang, bind, Except.bind, pure,
      Except.pure]
  | compile s =>
    simp [toValue, ofValue, kindOf_record, Fields.required_cons, hlang, bind, Except.bind, pure,
      Except.pure]
  | link s =>
    simp [toValue, ofValue, kindOf_record, Fields.required_cons, hmode, bind, Except.bind, pure,
      Except.pure]
  | archive s =>
    simp [toValue, ofValue, kindOf_record, Fields.required_cons, bind, Except.bind, pure,
      Except.pure]

/-- A target with its steps is read from its value. -/
theorem PlannedTarget.ofValue_toValue (t : PlannedTarget) :
    PlannedTarget.ofValue t.toValue = .ok t := by
  have hkind : (Value.string t.kind.word).asNamed .json TargetKind.ofWord? = .ok t.kind :=
    Value.asNamed_string t.kind.ofWord?_word .json
  have hsteps := mapM_map_eq_ok Step.ofValue_toValue t.steps
  simp [toValue, ofValue, Fields.required_cons, hkind, hsteps, bind, Except.bind, pure,
    Except.pure]

/-- A plan is read from its value. -/
theorem BuildPlan.ofValue_toValue (p : BuildPlan) : BuildPlan.ofValue p.toValue = .ok p := by
  have htargets := mapM_map_eq_ok PlannedTarget.ofValue_toValue p.targets
  simp [toValue, ofValue, Fields.required_cons, htargets, bind, Except.bind, pure, Except.pure]

/-! ## The text of a plan -/

open Json (Exact read?)

theorem Value.exact_ofStrings (ss : List String) : Exact (ofStrings ss) := by
  refine .list fun v hv => ?_
  obtain ⟨s, -, rfl⟩ := List.mem_map.1 hv
  exact .string s

theorem Value.exact_ofPaths (ps : List Path) : Exact (ofPaths ps) := by
  refine .list fun v hv => ?_
  obtain ⟨p, -, rfl⟩ := List.mem_map.1 hv
  exact .string p.text

theorem Step.exact_toValue (s : Step) : Exact s.toValue := by
  cases s <;>
    exact .record (by
      simp [Exact.string, Value.exact_ofStrings, Value.exact_ofPaths])

theorem PlannedTarget.exact_toValue (t : PlannedTarget) : Exact t.toValue := by
  have hsteps : Exact (.list (t.steps.map Step.toValue)) := by
    refine .list fun v hv => ?_
    obtain ⟨s, -, rfl⟩ := List.mem_map.1 hv
    exact s.exact_toValue
  exact .record (by simp [Exact.string, hsteps])

namespace BuildPlan

theorem exact_toValue (p : BuildPlan) : Exact p.toValue := by
  have htargets : Exact (.list (p.targets.map PlannedTarget.toValue)) := by
    refine .list fun v hv => ?_
    obtain ⟨t, -, rfl⟩ := List.mem_map.1 hv
    exact t.exact_toValue
  exact .record (by simp [htargets])

/-- The plan that a text describes. -/
def ofJson? (text : String) : Option BuildPlan := do
  let v ← read? text
  (ofValue v).toOption

/-- A plan is read from its text, behind which spaces may stand. -/
theorem ofJson?_json (p : BuildPlan) {spaces : List Char}
    (h : ∀ c ∈ spaces, Json.isSpace c = true) :
    ofJson? (p.toValue.json ++ String.ofList spaces) = some p := by
  rw [ofJson?, Json.read?_json p.exact_toValue h]
  simp [ofValue_toValue, Except.toOption]

/-- What the program shows of a plan is read as the plan that was made, and as none if there is
none. -/
theorem ofJson?_stdout {t : FileTree} {w : Workspace} {colour : Bool} {overrides : Overrides}
    {p : BuildPlan} :
    ofJson? (CommandLine.runCommand t w colour (.plan overrides)).stdout = some p ↔
      ∃ project, Project.load t w overrides = .ok project ∧ (project.plan t).outcome = .ok p := by
  have hempty : ofJson? "" = none := rfl
  simp only [CommandLine.runCommand]
  cases hload : Project.load t w overrides with
  | error e => simp [CommandLine.failed, hempty]
  | ok project =>
    cases hplan : (project.plan t).outcome with
    | error e => simp [CommandLine.failed, hempty, hplan]
    | ok q =>
      have hread : ofJson? (q.toValue.json ++ "\n") = some q :=
        q.ofJson?_json (by simp [Json.isSpace] : ∀ c ∈ ['\n'], Json.isSpace c = true)
      simp [hplan, hread]

/-- **The JSON text of a plan is the plan.** A plan is read back from its value and from its text,
which no other plan has. So what the program shows for a plan tells which plan was made, and that
one was; and a build file may be rendered from what was read as well as from the plan itself. -/
theorem json_faithful (p : BuildPlan) :
    BuildPlan.ofValue p.toValue = .ok p ∧
    ofJson? p.toValue.json = some p ∧
    (∀ q : BuildPlan, q.toValue.json = p.toValue.json ↔ q = p) ∧
    (∀ t w colour overrides,
      ofJson? (CommandLine.runCommand t w colour (.plan overrides)).stdout = some p ↔
        ∃ project, Project.load t w overrides = .ok project ∧
          (project.plan t).outcome = .ok p) ∧
    ∀ ctx, (ofJson? p.toValue.json).map (fun q => q.document ctx >>= Document.render) =
      some (p.document ctx >>= Document.render) := by
  have hread (q : BuildPlan) : ofJson? q.toValue.json = some q := by
    simpa using q.ofJson?_json (by simp : ∀ c ∈ [], Json.isSpace c = true)
  refine ⟨p.ofValue_toValue, hread p, fun q => ⟨fun h => ?_, fun h => by rw [h]⟩,
    fun t w colour overrides => ofJson?_stdout, fun ctx => by rw [hread, Option.map_some]⟩
  have hq := hread q
  rw [h, hread p] at hq
  exact (Option.some.inj hq).symm

end BuildPlan

end NinjaGen
