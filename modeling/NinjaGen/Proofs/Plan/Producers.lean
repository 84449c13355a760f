import NinjaGen.Proofs.Plan.Outputs
import NinjaGen.Proofs.Plan.Requirements

/-!
# What a duplicate output names

Planning stops where a file is produced again. The steps of a plan count in their order, and within
a target that is still being read the compilations of its sources do.

* `FirstRepeat output xs first again`: `again` is the first of `xs` whose output one before it has,
  and `first` is that one. There is at most one such pair (`FirstRepeat.unique`).
* `expandTarget_eq_duplicateOutput_iff`: only the objects of its sources can make the expansion of a
  target fail so.
* `BuildPlan.duplicateOutput_spec` says when planning fails so and what the error names. For two
  steps it is one and the other. For two sources of a target it is the later one twice, which names
  the earlier one only if both are written in the same way.
-/

namespace NinjaGen

/-! ## The first repetition -/

section FirstRepeat

variable {α : Type} {output : α → Path} {xs ys : List α} {first again : α}

/-- Whether no two of the items have the same output. -/
def Distinct (output : α → Path) (xs : List α) : Prop :=
  xs.Pairwise fun x y => (output x).same (output y) = false

/-- The item `again` is the first whose output an item before it has, and `first` is that item. -/
def FirstRepeat (output : α → Path) (xs : List α) (first again : α) : Prop :=
  ∃ before after, xs = before ++ again :: after ∧ Distinct output before ∧ first ∈ before ∧
    (output first).same (output again) = true

theorem Distinct.not_firstRepeat (h : Distinct output xs) : ¬ FirstRepeat output xs first again := by
  rintro ⟨before, after, rfl, -, hfirst, hsame⟩
  have hne := (List.pairwise_append.1 h).2.2 first hfirst again List.mem_cons_self
  rw [hne] at hsame
  cases hsame

/-- Behind items without a repetition it is found among those that follow. -/
theorem firstRepeat_append_iff (h : Distinct output xs) :
    FirstRepeat output (xs ++ ys) first again ↔
      ∃ before after, ys = before ++ again :: after ∧ Distinct output (xs ++ before) ∧
        first ∈ xs ++ before ∧ (output first).same (output again) = true := by
  constructor
  · rintro ⟨before, after, heq, hd, hfirst, hsame⟩
    rcases List.append_eq_append_iff.1 heq with ⟨before, rfl, rfl⟩ | ⟨rest, rfl, hrest⟩
    · exact ⟨before, after, rfl, hd, hfirst, hsame⟩
    · cases rest with
      | nil =>
        rw [List.append_nil] at h
        exact ⟨[], after, hrest.symm, by simpa using h, by simpa using hfirst, hsame⟩
      | cons r rest =>
        -- The repetition would be among the items that have none.
        obtain ⟨rfl, rfl⟩ := List.cons.inj hrest
        exact absurd ⟨before, rest, rfl, hd, hfirst, hsame⟩ h.not_firstRepeat
  · rintro ⟨before, after, rfl, hd, hfirst, hsame⟩
    exact ⟨xs ++ before, after, by simp, hd, hfirst, hsame⟩

/-- One more item can only repeat one of the others. -/
theorem firstRepeat_append_singleton_iff (h : Distinct output xs) {y : α} :
    FirstRepeat output (xs ++ [y]) first again ↔
      again = y ∧ first ∈ xs ∧ (output first).same (output y) = true := by
  rw [firstRepeat_append_iff h]
  constructor
  · rintro ⟨before, after, heq, -, hfirst, hsame⟩
    rcases List.append_eq_singleton_iff.1 heq.symm with ⟨rfl, heq⟩ | ⟨-, hnil⟩
    · cases heq
      rw [List.append_nil] at hfirst
      exact ⟨rfl, hfirst, hsame⟩
    · cases hnil
  · rintro ⟨rfl, hfirst, hsame⟩
    exact ⟨[], [], rfl, by rwa [List.append_nil], by rwa [List.append_nil], hsame⟩

theorem FirstRepeat.unique {first' again' : α} (h : FirstRepeat output xs first again)
    (h' : FirstRepeat output xs first' again') : first = first' ∧ again = again' := by
  obtain ⟨before, after, rfl, hd, hfirst, hsame⟩ := h
  obtain ⟨between, after', heq, hd', hfirst', hsame'⟩ := (firstRepeat_append_iff hd).1 h'
  cases between with
  | cons x between =>
    -- The first of the two repetitions would be in front of the second.
    obtain ⟨rfl, -⟩ := List.cons.inj heq
    exact absurd ⟨before, between, rfl, hd, hfirst, hsame⟩ hd'.not_firstRepeat
  | nil =>
    obtain ⟨rfl, -⟩ := List.cons.inj heq
    rw [List.append_nil] at hfirst'
    have heq := (Path.same_iff.1 hsame).trans (Path.same_iff.1 hsame').symm
    exact ⟨BuildPlan.eq_of_same hd hfirst hfirst' heq, rfl⟩

end FirstRepeat

/-! ## Sources with one object -/

/-- The wording for the compilation of a source tells how the source is written. -/
theorem CompileStep.wording_inj {p q : Path} {target : String} :
    CompileStep.wording p target = CompileStep.wording q target ↔ p = q := by
  refine ⟨fun h => ?_, fun h => h ▸ rfl⟩
  unfold CompileStep.wording at h
  rw [String.append_left_inj, String.append_left_inj, String.append_left_inj,
    String.append_right_inj] at h
  exact congrArg Path.mk h

namespace Expansion

variable {ctx : BuildContext} {target : Target} {path first second : String}

/-- The object of a source. -/
def object (ctx : BuildContext) (s : SourceFile) : Path := ctx.objectPath s.path

theorem expand_ne_duplicateOutput (b : Bindings) (template : String) :
    Template.expand b template ≠ .error (.duplicateOutput path first second) := by
  intro h
  unfold Template.expand at h
  split at h <;> cases h

/-- Only a source whose object is there already is reported as a duplicate output. -/
theorem findSome?_error?_ne_duplicateOutput {rs : List Requirement}
    (h : ∀ r ∈ rs, ∀ before template, r ≠ .ownObject before template) :
    rs.findSome? (Requirement.error? ctx target) ≠ some (.duplicateOutput path first second) := by
  intro hsome
  obtain ⟨r, hr, hr'⟩ := List.exists_of_findSome?_eq_some hsome
  cases r with
  | resolves => exact expand_ne_duplicateOutput _ _ (failure?_eq_some_iff.1 hr')
  | hasSource =>
    rw [Requirement.error?] at hr'
    split at hr' <;> cases hr'
  | inLanguage template =>
    obtain ⟨p, -, hr'⟩ := Option.bind_eq_some_iff.1 hr'
    split at hr' <;> cases hr'
  | hasCompiler template =>
    obtain ⟨p, -, hr'⟩ := Option.bind_eq_some_iff.1 hr'
    obtain ⟨l, -, hr'⟩ := Option.bind_eq_some_iff.1 hr'
    split at hr' <;> cases hr'
  | ownObject before template => exact h _ hr before template rfl

theorem findSome?_resolves_ne_duplicateOutput (templates : List String) :
    (templates.map .resolves).findSome? (Requirement.error? ctx target) ≠
      some (.duplicateOutput path first second) := by
  refine findSome?_error?_ne_duplicateOutput fun r hr before template => ?_
  obtain ⟨t, -, rfl⟩ := List.mem_map.1 hr
  exact nofun

theorem source_ne_duplicateOutput (target : Target) (template : String) :
    source ctx template ≠ .error (.duplicateOutput path first second) := by
  rw [Ne, ← failure?_eq_some_iff, @failure?_source ctx target]
  exact findSome?_error?_ne_duplicateOutput (by simp)

/-- Something that needs a source holds of the sources that templates start with exactly when the
first template means one and it holds with that in front. -/
theorem exists_prefix_cons_iff {template : String} {r : List String}
    {P : List SourceFile → Prop} (hP : ¬ P []) :
    (∃ ss, ss.map .ok <+: (template :: r).map (source ctx) ∧ P ss) ↔
      ∃ x, source ctx template = .ok x ∧
        ∃ ss, ss.map .ok <+: r.map (source ctx) ∧ P (x :: ss) := by
  constructor
  · rintro ⟨ss, hread, h⟩
    cases ss with
    | nil => exact absurd h hP
    | cons x ss =>
      obtain ⟨hx, hread⟩ := List.cons_prefix_cons.1 hread
      exact ⟨x, hx.symm, ss, hread, h⟩
  · rintro ⟨x, hx, ss, hread, h⟩
    exact ⟨x :: ss, List.cons_prefix_cons.2 ⟨hx.symm, hread⟩, h⟩

/-- Sources are read one after the other, up to the first whose object is that of one before it;
`seen` are the objects of those read `earlier`. The wording of that source stands for both. -/
theorem sourcesFrom_eq_duplicateOutput_iff {templates : List String} {earlier : List SourceFile}
    {seen : List (List Component)} (hd : Distinct (object ctx) earlier)
    (hseen : ∀ cs, cs ∈ seen ↔ ∃ s ∈ earlier, (object ctx s).components = cs) :
    sourcesFrom ctx target.name seen templates = .error (.duplicateOutput path first second) ↔
      ∃ ss, ss.map .ok <+: templates.map (source ctx) ∧
        ∃ s t, FirstRepeat (object ctx) (earlier ++ ss) s t ∧ path = (object ctx t).text ∧
          first = CompileStep.wording t.path target.name ∧
          second = CompileStep.wording t.path target.name := by
  induction templates generalizing earlier seen with
  | nil =>
    refine iff_of_false (fun h => ?_) ?_
    · cases h
    · rintro ⟨ss, hread, s, t, hrepeat, -⟩
      obtain rfl := List.map_eq_nil_iff.1 (List.prefix_nil.1 hread)
      rw [List.append_nil] at hrepeat
      exact hd.not_firstRepeat hrepeat
  | cons template r ih =>
    rw [sourcesFrom, bind_eq_error_iff, or_iff_right (source_ne_duplicateOutput target template),
      exists_prefix_cons_iff]
    · refine exists_congr fun x => and_congr_right fun _ => ?_
      dsimp only
      split
      next hmem =>
        obtain ⟨s, hs, hsame⟩ := (hseen _).1 hmem
        have hrepeat : ∀ ss, FirstRepeat (object ctx) (earlier ++ x :: ss) s x := fun ss =>
          ⟨earlier, ss, rfl, hd, hs, Path.same_iff.2 hsame⟩
        constructor
        · intro h
          cases h
          exact ⟨[], List.nil_prefix, s, x, hrepeat [], rfl, rfl, rfl⟩
        · rintro ⟨ss, -, s', t, hrepeat', rfl, rfl, rfl⟩
          obtain ⟨-, rfl⟩ := (hrepeat ss).unique hrepeat'
          rfl
      next hmem =>
        have hnew : Distinct (object ctx) (earlier ++ [x]) := by
          refine List.pairwise_append.2 ⟨hd, List.pairwise_singleton _ _, fun s hs y hy => ?_⟩
          obtain rfl := List.mem_singleton.1 hy
          exact decide_eq_false fun heq => hmem ((hseen _).2 ⟨s, hs, heq⟩)
        rw [bind_eq_error_iff, or_iff_left, ih hnew]
        · simp only [List.append_assoc, List.singleton_append]
        · intro cs
          rw [List.mem_cons, hseen]
          simp only [List.mem_append, List.mem_singleton, or_and_right, exists_or, exists_eq_left]
          rw [or_comm, eq_comm]
          rfl
        · rintro ⟨_, -, h⟩
          cases h
    · rintro ⟨s, t, hrepeat, -⟩
      rw [List.append_nil] at hrepeat
      exact hd.not_firstRepeat hrepeat

theorem sources_eq_duplicateOutput_iff :
    sources ctx target = .error (.duplicateOutput path first second) ↔
      ∃ ss, ss.map .ok <+: target.sources.map (source ctx) ∧
        ∃ s t, FirstRepeat (object ctx) ss s t ∧ path = (object ctx t).text ∧
          first = CompileStep.wording t.path target.name ∧
          second = CompileStep.wording t.path target.name := by
  have h : sourcesFrom ctx target.name [] target.sources =
      .error (.duplicateOutput path first second) ↔ _ :=
    sourcesFrom_eq_duplicateOutput_iff .nil (by simp)
  simp only [List.nil_append] at h
  rw [← h, sources]
  split
  next hnil => simp [hnil, sourcesFrom]
  next => rfl

end Expansion

open Expansion

section Expand

variable {ctx : BuildContext} {target : Target} {path first second : String}

/-- The expansion of a target fails so when the place of its artifact can be told and one of its
sources has the object of another one before it; nothing else is reported so. -/
theorem expandTarget_eq_duplicateOutput_iff :
    expandTarget ctx target = .error (.duplicateOutput path first second) ↔
      (∃ text, Template.expand ctx.bindings target.output = .ok text) ∧
        ∃ ss, ss.map .ok <+: target.sources.map (source ctx) ∧
          ∃ s t, FirstRepeat (object ctx) ss s t ∧ path = (object ctx t).text ∧
            first = CompileStep.wording t.path target.name ∧
            second = CompileStep.wording t.path target.name := by
  have hsettings : compileSettings ctx target ≠ .error (.duplicateOutput path first second) := by
    rw [Ne, ← failure?_eq_some_iff, failure?_compileSettings]
    exact findSome?_resolves_ne_duplicateOutput _
  have hfinal : ∀ output objects, finalStep ctx target output objects ≠
      .error (.duplicateOutput path first second) := by
    intro output objects
    rw [Ne, ← failure?_eq_some_iff, failure?_finalStep]
    exact findSome?_resolves_ne_duplicateOutput _
  rw [← sources_eq_duplicateOutput_iff]
  simp only [expandTarget, bind_eq_error_iff, expand_ne_duplicateOutput, hsettings, hfinal,
    false_or]
  constructor
  · rintro ⟨text, htext, h | ⟨_, _, _, _, _, _, h⟩⟩
    · exact ⟨⟨text, htext⟩, h⟩
    · cases h
  · rintro ⟨⟨text, htext⟩, h⟩
    exact ⟨text, htext, .inl h⟩

end Expand

namespace BuildPlan

/-- **What a duplicate output names.** Planning fails so at a target `k` behind targets that have a
plan, in one of two ways. Of the steps of the plan and of `k`, one produces the file of another one
before it; then the error names the first such step as the second producer, and the one before it as
the first. Or one of the sources of `k` has the object of another one before it; then the error
names the first such source twice, and the one before it only if both are written in the same way. -/
theorem duplicateOutput_spec (ctx : BuildContext) (targets : List Target)
    (path first second : String) :
    (ofTargets ctx targets = .error (.duplicateOutput path first second) ↔
      ∃ before k after plan, targets = before ++ k :: after ∧ ofTargets ctx before = .ok plan ∧
        ((∃ planned, expandTarget ctx k = .ok planned ∧
            ∃ s t, FirstRepeat Step.output (plan.steps ++ planned.steps) s t ∧
              path = t.output.text ∧ first = s.wording ∧ second = t.wording) ∨
          (∃ text, Template.expand ctx.bindings k.output = .ok text) ∧
            ∃ ss, ss.map .ok <+: k.sources.map (source ctx) ∧
              ∃ s t, FirstRepeat (object ctx) ss s t ∧ path = (object ctx t).text ∧
                first = CompileStep.wording t.path k.name ∧
                second = CompileStep.wording t.path k.name)) ∧
    ∀ name p q, CompileStep.wording p name = CompileStep.wording q name ↔ p = q := by
  refine ⟨?_, fun _ _ _ => CompileStep.wording_inj⟩
  rw [ofTargets_eq_error_iff]
  refine exists_congr fun before => exists_congr fun k => exists_congr fun after =>
    exists_congr fun plan => and_congr_right fun _ => and_congr_right fun hplan => ?_
  have hd : Distinct Step.output plan.steps := (ofTargets_eq_ok_iff.1 hplan).2
  simp only [← expandTarget_eq_duplicateOutput_iff, firstRepeat_append_iff hd]
  constructor
  · rintro (_ | h | ⟨h, hsteps, hd', hfirst, hsame⟩)
    · exact .inr h
    · exact .inl ⟨_, h, _, _, ⟨_, _, hsteps, hd', hfirst, hsame⟩, rfl, rfl, rfl⟩
  · rintro (⟨planned, h, s, t, ⟨_, _, hsteps, hd', hfirst, hsame⟩, rfl, rfl, rfl⟩ | h)
    · exact .output h hsteps hd' hfirst hsame
    · exact .object h

/-- Of two sources that are written differently and have one object, the earlier is not named. -/
theorem duplicateOutput_misses_earlier :
    let plan := fun earlier later : String =>
      ofTargets .usual [.ofSettings "app" .exe "app" [earlier, later] {}]
    let compile := fun source : String => CompileStep.wording ⟨source⟩ "app"
    (plan "a.c" "./a.c" =
        .error (.duplicateOutput "build/a.c.o" (compile "./a.c") (compile "./a.c")) ∧
      compile "a.c" ≠ compile "./a.c") ∧
    (plan "../x.c" "__/x.c" =
        .error (.duplicateOutput "build/__/x.c.o" (compile "__/x.c") (compile "__/x.c")) ∧
      compile "../x.c" ≠ compile "__/x.c") ∧
    (plan "/x.c" "x.c" =
        .error (.duplicateOutput "build/x.c.o" (compile "x.c") (compile "x.c")) ∧
      compile "/x.c" ≠ compile "x.c") := by
  decide +kernel

end BuildPlan

end NinjaGen
