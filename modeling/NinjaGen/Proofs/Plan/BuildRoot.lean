import NinjaGen.Proofs.Path.Components
import NinjaGen.Proofs.Plan.Outputs
import NinjaGen.Proofs.Plan.Parts

/-!
# The build root

What a build produces is meant to lie under the build root. It does, unless a path that is written
with the build root at its start leads up again, or something is appended to the build root itself.

* `Path.IsWithin` says that a path starts with a directory and never leads up.
* `Path.isWithin_under_iff`, `Path.isWithin_object_iff` and `Expansion.isWithin_unity_iff` say when
  the artifact of a target, the object of a source and the directory of unity sources do.
* `Target.StaysBelow` puts these together for a target, and
  `BuildPlan.forall_isWithin_buildRoot_iff` for a plan.
-/

namespace NinjaGen

namespace Path

open Component

variable {p dir : Path}

/-- Whether a path lies in a directory: it starts with it, and nothing in it leads up. -/
def IsWithin (p dir : Path) : Prop := p.startsWith dir = true ∧ Component.parent ∉ p.components

instance (p dir : Path) : Decidable (p.IsWithin dir) := inferInstanceAs (Decidable (_ ∧ _))

/-- Whether a path is written with a directory at its start and leads up somewhere. -/
def LeadsUp (p dir : Path) : Prop :=
  p.withoutCurrent.startsWith dir = true ∧ Component.parent ∈ p.components

instance (p dir : Path) : Decidable (p.LeadsUp dir) := inferInstanceAs (Decidable (_ ∧ _))

theorem parent_mem_withoutCurrent :
    Component.parent ∈ p.withoutCurrent.components ↔ Component.parent ∈ p.components := by
  simp [components_withoutCurrent]

theorem parent_not_mem_descended (cs : List Component) :
    Component.parent ∉ cs.filterMap descended := by
  intro h
  obtain ⟨name, hname⟩ := exists_name_of_mem_descended h
  cases hname

/-- A path that is moved below a directory lies in it, unless it was there and leads up. -/
theorem isWithin_under_iff (hup : Component.parent ∉ dir.components) :
    (p.under dir).IsWithin dir ↔ ¬ p.LeadsUp dir := by
  rw [IsWithin, LeadsUp, startsWith_under, startsWith_iff,
    ← parent_mem_withoutCurrent (p := p), components_under]
  split
  next h => simp [h]
  next h => simp only [h, List.mem_append, hup, parent_not_mem_descended]; simp

theorem components_of_fileName? {name : String} (h : p.fileName? = some name) :
    ∃ init, p.components = init ++ [.normal name] := by
  unfold fileName? at h
  split at h
  next hlast =>
    cases h
    exact List.getLast?_eq_some_iff.1 hlast
  next => cases h

/-- A path that leads to a name is moved to the directory itself only if it is the directory. -/
theorem same_under_iff {name : String} (h : p.fileName? = some name) :
    (p.under dir).same dir = true ↔ p.withoutCurrent.same dir = true := by
  obtain ⟨init, hinit⟩ := components_of_fileName? h
  have hmem : Component.normal name ∈ p.withoutCurrent.components := by
    simp [components_withoutCurrent, hinit]
  have hdescended : Component.normal name ∈ p.withoutCurrent.components.filterMap descended :=
    List.mem_filterMap.2 ⟨_, hmem, rfl⟩
  rw [same_iff, same_iff, components_under]
  split
  next => exact .rfl
  next hprefix =>
    constructor
    · intro heq
      rw [List.append_right_eq_self.1 heq] at hdescended
      cases hdescended
    · exact fun heq => absurd (heq ▸ List.prefix_rfl) hprefix

/-- A directory stays at the start of a path whose last component changes, unless it was the whole
path. -/
theorem prefix_append_singleton_iff {dir front : List Component} {a b : Component} (hab : a ≠ b)
    (h : dir <+: front ++ [a]) : dir <+: front ++ [b] ↔ front ++ [a] ≠ dir := by
  rw [List.prefix_concat_iff]
  rcases List.prefix_concat_iff.1 h with rfl | h
  · constructor
    · rintro (heq | hprefix)
      · exact absurd (List.append_cancel_left heq) (by simpa using hab)
      · exact absurd hprefix.length_le (by simp)
    · exact fun hne => absurd rfl hne
  · exact ⟨fun _ heq => absurd h.length_le (by simp [← heq]), fun _ => .inr h⟩

theorem normal_ne_append (name : String) {s : String} (h : s ≠ "") :
    Component.normal name ≠ .normal (name ++ s) := by
  intro heq
  have := congrArg String.toList (Component.normal.inj heq)
  simp [h] at this

/-- What is appended to a path that leads to a name and is moved below a directory goes on with the
name. -/
theorem exists_components_object {name : String} (h : p.fileName? = some name) (dir : Path) :
    ∃ front, (p.under dir).components = front ++ [.normal name] ∧
      ∀ ext : String, '/' ∉ ext.toList →
        ((p.under dir).appendText ext).components = front ++ [.normal (name ++ ext)] := by
  obtain ⟨init, hinit⟩ := components_of_fileName? h
  have hending := ending_under hinit dir
  have hstep : (Component.normal name).IsStep :=
    isStep_of_mem_components (hinit ▸ List.mem_append_right init (by simp)) nofun nofun
  have hends : (p.under dir).EndsInName := by
    rw [EndsInName, hending]
    exact hstep.isName
  have hfront := exists_components_of_endsInName hends
  rwa [hending, String.ofList_toList] at hfront

/-- **The object of a source** lies in the directory below which it is placed, unless the source
was there and leads up, or was the directory itself. -/
theorem isWithin_object_iff (hup : Component.parent ∉ dir.components) {name : String}
    (hname : p.fileName? = some name) {ext : String} (hslash : '/' ∉ ext.toList) (hext : ext ≠ "") :
    ((p.under dir).appendText ext).IsWithin dir ↔
      ¬ p.LeadsUp dir ∧ ¬ p.withoutCurrent.same dir = true := by
  obtain ⟨front, hfront, happend⟩ := exists_components_object hname dir
  have hprefix : dir.components <+: front ++ [.normal name] :=
    hfront ▸ startsWith_iff.1 (p.startsWith_under dir)
  rw [← isWithin_under_iff hup, ← same_under_iff hname, IsWithin, IsWithin, startsWith_under,
    startsWith_iff, same_iff, happend ext hslash, hfront,
    prefix_append_singleton_iff (normal_ne_append name hext) hprefix]
  simp [and_comm]

/-- The directory of the unity sources of an artifact that lies in a directory lies there too,
unless the artifact is that directory and its text ends in the name of it. -/
theorem isWithin_appendText_iff (h : p.IsWithin dir) (hcurrent : Component.current ∉ p.components)
    {s : String} (hs : IsName s.toList) (hslash : '/' ∉ s.toList) :
    (p.appendText s).IsWithin dir ↔ ¬ (p.same dir = true ∧ p.EndsInName) := by
  obtain ⟨hstart, hparent⟩ := h
  rw [startsWith_iff] at hstart
  by_cases hends : p.EndsInName
  · obtain ⟨front, hfront, happend⟩ := exists_components_of_endsInName hends
    have hne := normal_ne_append (String.ofList p.ending) (s := s) (by rintro rfl; exact hs.1 rfl)
    rw [hfront] at hstart hparent
    rw [IsWithin, startsWith_iff, same_iff, happend s hslash, hfront,
      prefix_append_singleton_iff hne hstart]
    simp_all
  · have happend := components_appendText_of_not_endsInName hends hcurrent hparent hs hslash
    rw [IsWithin, startsWith_iff, happend]
    simp [hends, hparent, hstart.trans (List.prefix_append _ _)]

/-- What is appended to a path changes the last component, or is a component behind it. -/
theorem exists_front_appendText (hcurrent : Component.current ∉ p.components)
    (hparent : Component.parent ∉ p.components) {s : String} (hs : IsName s.toList)
    (hslash : '/' ∉ s.toList) :
    ∃ front name, (p.appendText s).components = front ++ [.normal name] ∧
      front <+: p.components ∧ p.components.length ≤ front.length + 1 := by
  by_cases hends : p.EndsInName
  · obtain ⟨front, hfront, happend⟩ := exists_components_of_endsInName hends
    exact ⟨front, _, happend s hslash, hfront ▸ List.prefix_append _ _, by simp [hfront]⟩
  · exact ⟨p.components, _,
      components_appendText_of_not_endsInName hends hcurrent hparent hs hslash,
      List.prefix_rfl, by simp⟩

theorem current_not_mem_under (h : Component.current ∉ dir.components) :
    Component.current ∉ (p.under dir).components := by
  have hdescended : ∀ cs : List Component, Component.current ∉ cs.filterMap descended := by
    intro cs hmem
    obtain ⟨name, hname⟩ := exists_name_of_mem_descended hmem
    cases hname
  rw [components_under]
  split
  next => simp [components_withoutCurrent]
  next => simp only [List.mem_append, h, hdescended, or_self, not_false_eq_true]

theorem fileName?_join {name : String} (h : (Component.normal name).IsStep) :
    (p.join ⟨name⟩).fileName? = some name := by
  have hjoin := components_join_normal (p := p) h
  simp [fileName?, hjoin]

/-- A file lies in a directory when the directory does in which it is. -/
theorem isWithin_join_iff {name : String} (h : (Component.normal name).IsStep)
    (hlength : dir.components.length ≤ p.components.length) :
    (p.join ⟨name⟩).IsWithin dir ↔ p.IsWithin dir := by
  have hjoin := components_join_normal (p := p) h
  have hne : dir.components ≠ p.components ++ [.normal name] := fun heq => by
    rw [heq] at hlength
    exact absurd hlength (by simp)
  simp [IsWithin, startsWith_iff, hjoin, List.prefix_concat_iff, hne]

/-- The object of a file that lies deeper in a directory than the directory lies there too. -/
theorem isWithin_object_join (hup : Component.parent ∉ dir.components)
    (hcurrent : Component.current ∉ p.components) {name : String}
    (h : (Component.normal name).IsStep) (hwithin : p.IsWithin dir) {ext : String}
    (hslash : '/' ∉ ext.toList) (hext : ext ≠ "") :
    (((p.join ⟨name⟩).under dir).appendText ext).IsWithin dir := by
  have hjoin := components_join_normal (p := p) h
  have hlength := (startsWith_iff.1 hwithin.1).length_le
  have hsame : (p.join ⟨name⟩).withoutCurrent.components = p.components ++ [.normal name] := by
    rw [components_withoutCurrent, hjoin, List.filter_eq_self]
    intro c hc
    refine decide_eq_true fun heq => ?_
    subst heq
    simp [hcurrent] at hc
  rw [isWithin_object_iff hup (fileName?_join h) hslash hext]
  constructor
  · rintro ⟨-, hparent⟩
    rw [hjoin] at hparent
    simp [hwithin.2] at hparent
  · intro heq
    rw [same_iff, hsame] at heq
    rw [← heq] at hlength
    exact absurd hlength (by simp)

end Path

/-! ## Unity sources -/

theorem UnityBatch.isStep_fileName (b : UnityBatch) : (Component.normal b.fileName).IsStep := by
  obtain ⟨lang, index, members⟩ := b
  have hindex : '/' ∉ Nat.toDigits 10 index := by
    intro h
    have := Nat.isDigit_of_mem_toDigits (by decide) (by decide) h
    simp at this
  have hlang : '/' ∉ lang.ident.toList ∧ '/' ∉ lang.unityExtension.toList := by
    cases lang <;> decide
  refine Component.isStep_normal ?_ ?_
  · simp [UnityBatch.fileName, hindex, hlang]
  · simp [Component.IsName, UnityBatch.fileName]

namespace Expansion

variable {ctx : BuildContext} {target : Target} {parts : Parts}

/-- **A unity source and its object** lie in the build root, unless the artifact is the build root
and its text ends in the name of it. -/
theorem isWithin_unity_iff (hcurrent : Component.current ∉ ctx.buildRoot.components)
    (hup : Component.parent ∉ ctx.buildRoot.components)
    (hslash : '/' ∉ ctx.profile.objectExtension.toList) (hext : ctx.profile.objectExtension ≠ "")
    (output : Path) (houtput : (ctx.underBuildRoot output).IsWithin ctx.buildRoot)
    (b : UnityBatch) :
    (b.pathIn ((ctx.underBuildRoot output).appendText ".unity")).IsWithin ctx.buildRoot ∧
        (ctx.objectPath (b.pathIn ((ctx.underBuildRoot output).appendText ".unity"))).IsWithin
          ctx.buildRoot ↔
      ¬ ((ctx.underBuildRoot output).same ctx.buildRoot = true ∧
        (ctx.underBuildRoot output).EndsInName) := by
  have hname : Component.IsName ".unity".toList := by decide
  have hnoslash : '/' ∉ ".unity".toList := by decide
  have hcurrent' : Component.current ∉ (ctx.underBuildRoot output).components :=
    Path.current_not_mem_under hcurrent
  obtain ⟨front, name, hdir, hfront, hlength⟩ :=
    Path.exists_front_appendText hcurrent' houtput.2 hname hnoslash
  have hlonger := (Path.startsWith_iff.1 houtput.1).length_le
  rw [← Path.isWithin_appendText_iff houtput hcurrent' hname hnoslash, UnityBatch.pathIn,
    Path.isWithin_join_iff b.isStep_fileName (by rw [hdir]; simp; omega), and_iff_left_iff_imp]
  have hcurrentDir : Component.current ∉
      ((ctx.underBuildRoot output).appendText ".unity").components := by
    rw [hdir]
    simpa using fun h => hcurrent' (hfront.subset h)
  exact fun h =>
    Path.isWithin_object_join hup hcurrentDir b.isStep_fileName h hslash hext

/-- The artifact starts with the build root, wherever the target wants it. -/
theorem startsWith_output (h : Expansion.parts ctx target = .ok parts) :
    parts.output.startsWith ctx.buildRoot = true := by
  obtain ⟨⟨output, -, houtput⟩, -⟩ := parts_eq_ok_iff.1 h
  rw [houtput]
  exact Path.startsWith_under _ _

end Expansion

/-! ## Targets and plans -/

/-- Whether no path of a target leads out of the build root: its artifact is not written with the
build root at its start to lead up from there, and is not the build root itself if unity sources go
beside it; and what is compiled without unity sources neither leads up in that way nor is the build
root. -/
structure Target.StaysBelow (ctx : BuildContext) (target : Target) : Prop where
  artifact : ∀ path, Template.expand ctx.bindings target.output = .ok path →
    ¬ Path.LeadsUp ⟨path⟩ ctx.buildRoot
  unity : target.unity = true → ∀ path, Template.expand ctx.bindings target.output = .ok path →
    ¬ ((ctx.underBuildRoot ⟨path⟩).same ctx.buildRoot = true ∧
      (ctx.underBuildRoot ⟨path⟩).EndsInName)
  sources : target.unity = false → ∀ template ∈ target.sources, ∀ path,
    Template.expand ctx.bindings template = .ok path →
      ¬ Path.LeadsUp ⟨path⟩ ctx.buildRoot ∧ ¬ Path.same (Path.withoutCurrent ⟨path⟩) ctx.buildRoot

namespace Expansion

variable {ctx : BuildContext} {target : Target} {parts : Parts}

theorem fileName?_of_ofPath? {p : Path} {l : Language} (h : Language.ofPath? p = some l) :
    ∃ name, p.fileName? = some name := by
  unfold Language.ofPath? Path.extension? at h
  cases hname : p.fileName? with
  | none => simp [hname] at h
  | some name => exact ⟨name, rfl⟩

/-- The sources of a target have objects in the build root when none of them leads out of it. -/
theorem forall_isWithin_object_iff (hup : Component.parent ∉ ctx.buildRoot.components)
    (hslash : '/' ∉ ctx.profile.objectExtension.toList) (hext : ctx.profile.objectExtension ≠ "")
    {ss : List SourceFile} (h : Expansion.sources ctx target = .ok ss) :
    (∀ s ∈ ss, (ctx.objectPath s.path).IsWithin ctx.buildRoot) ↔
      ∀ template ∈ target.sources, ∀ path, Template.expand ctx.bindings template = .ok path →
        ¬ Path.LeadsUp ⟨path⟩ ctx.buildRoot ∧
          ¬ Path.same (Path.withoutCurrent ⟨path⟩) ctx.buildRoot := by
  obtain ⟨-, hmap, -⟩ := sources_eq_ok_iff.1 h
  have hobject : ∀ {template s}, source ctx template = .ok s →
      ((ctx.objectPath s.path).IsWithin ctx.buildRoot ↔
        ¬ Path.LeadsUp s.path ctx.buildRoot ∧ ¬ Path.same s.path.withoutCurrent ctx.buildRoot) := by
    intro template s hs
    obtain ⟨-, hlang, -⟩ := source_eq_ok_iff.1 hs
    obtain ⟨name, hname⟩ := fileName?_of_ofPath? hlang
    exact Path.isWithin_object_iff hup hname hslash hext
  constructor
  · intro hall template htemplate path hpath
    obtain ⟨s, hs, hsource⟩ := exists_ok_of_mem_of_map_ok hmap htemplate
    obtain ⟨hexpand, -⟩ := source_eq_ok_iff.1 hsource
    cases hpath.symm.trans hexpand
    exact (hobject hsource).1 (hall s hs)
  · intro hall s hs
    obtain ⟨template, htemplate, hsource⟩ := exists_of_mem_of_map_ok hmap hs
    exact (hobject hsource).2
      (hall template htemplate _ (source_eq_ok_iff.1 hsource).1)

/-- **The steps of a target produce files in the build root** exactly when no path of the target
leads out of it. -/
theorem forall_isWithin_iff (hcurrent : Component.current ∉ ctx.buildRoot.components)
    (hup : Component.parent ∉ ctx.buildRoot.components)
    (hslash : '/' ∉ ctx.profile.objectExtension.toList) (hext : ctx.profile.objectExtension ≠ "")
    (h : Expansion.parts ctx target = .ok parts) :
    (∀ s ∈ (parts.arrange ctx target).steps, s.output.IsWithin ctx.buildRoot) ↔
      target.StaysBelow ctx := by
  obtain ⟨⟨path, hpath, houtput⟩, hsources, -, hfinal⟩ := parts_eq_ok_iff.1 h
  have hlast : (parts.last ctx target).output = ctx.underBuildRoot ⟨path⟩ := by
    rw [Parts.last, Step.output_withObjects, (output_of_finalStep hfinal).1, houtput]
  rw [Parts.forall_mem_steps_iff, hlast]
  have hartifact : (ctx.underBuildRoot ⟨path⟩).IsWithin ctx.buildRoot ↔
      ∀ path, Template.expand ctx.bindings target.output = .ok path →
        ¬ Path.LeadsUp ⟨path⟩ ctx.buildRoot := by
    rw [BuildContext.underBuildRoot, Path.isWithin_under_iff hup]
    simp [hpath]
  cases hunity : target.unity with
  | false =>
    rw [Parts.unity_of_apart _ hunity, Parts.compiles_of_apart _ hunity, List.forall_mem_map,
      hartifact]
    have hobjects := forall_isWithin_object_iff hup hslash hext hsources
    constructor
    · rintro ⟨-, hcompiles, hart⟩
      exact ⟨hart, fun h => absurd (h.symm.trans hunity) (by decide), fun _ => hobjects.1 hcompiles⟩
    · rintro ⟨hart, -, hcompiles⟩
      exact ⟨List.forall_mem_nil _, hobjects.2 (hcompiles hunity), hart⟩
  | true =>
    rw [Parts.compiles_of_collected _ hunity, Parts.unity_of_collected _ hunity, houtput]
    simp only [List.forall_mem_map]
    have hbatch := isWithin_unity_iff hcurrent hup hslash hext ⟨path⟩
    constructor
    · rintro ⟨hunits, hcompiles, hart⟩
      refine ⟨hartifact.1 hart, fun _ path' hpath' => ?_,
        fun h => absurd (h.symm.trans hunity) (by decide)⟩
      cases hpath.symm.trans hpath'
      obtain ⟨s, hs⟩ := List.exists_mem_of_ne_nil _ (ne_nil_of_sources hsources)
      obtain ⟨b, hb, -⟩ := exists_mem_batches hs ctx.options.unityBatchSize
      exact (hbatch hart b).1 ⟨hunits b hb, hcompiles b hb⟩
    · rintro ⟨hart, hunits, -⟩
      have hart' := hartifact.2 hart
      exact ⟨fun b _ => ((hbatch hart' b).2 (hunits hunity path hpath)).1,
        fun b _ => ((hbatch hart' b).2 (hunits hunity path hpath)).2, hart'⟩

end Expansion

/-- GCC without bindings, with that build root. -/
def BuildContext.rootedAt (root : String) : BuildContext :=
  ⟨.ofPlatform .gcc, .ofList [], { buildRoot := ⟨root⟩ }⟩

namespace BuildPlan

/-- **Nothing is produced outside the build root** exactly when no path of a target leads out of
it; the artifacts start with it in any case. -/
theorem forall_isWithin_buildRoot_iff {ctx : BuildContext} {targets : List Target}
    {plan : BuildPlan}
    (hcurrent : Component.current ∉ ctx.buildRoot.components)
    (hup : Component.parent ∉ ctx.buildRoot.components)
    (hext : ∃ platform : Platform, ctx.profile.objectExtension =
      (ToolchainProfile.ofPlatform platform).objectExtension)
    (h : ofTargets ctx targets = .ok plan) :
    (∀ planned ∈ plan.targets, planned.output.startsWith ctx.buildRoot = true) ∧
      ((∀ s ∈ plan.steps, s.output.IsWithin ctx.buildRoot) ↔
        ∀ target ∈ targets, target.StaysBelow ctx) := by
  have hslash : '/' ∉ ctx.profile.objectExtension.toList ∧ ctx.profile.objectExtension ≠ "" := by
    obtain ⟨platform, hplatform⟩ := hext
    rw [hplatform]
    cases platform <;> decide
  obtain ⟨hmap, -⟩ := ofTargets_eq_ok_iff.1 h
  have hexpand : ∀ {target planned}, expandTarget ctx target = .ok planned →
      planned.output.startsWith ctx.buildRoot = true ∧
        ((∀ s ∈ planned.steps, s.output.IsWithin ctx.buildRoot) ↔ target.StaysBelow ctx) := by
    intro target planned hplanned
    obtain ⟨parts, hparts, rfl⟩ := expandTarget_eq_ok_iff.1 hplanned
    exact ⟨Expansion.startsWith_output hparts,
      Expansion.forall_isWithin_iff hcurrent hup hslash.1 hslash.2 hparts⟩
  constructor
  · intro planned hplanned
    obtain ⟨target, -, htarget⟩ := exists_of_mem_of_map_ok hmap hplanned
    exact (hexpand htarget).1
  · simp only [steps, List.forall_mem_flatMap]
    constructor
    · intro hall target htarget
      obtain ⟨planned, hplanned, heq⟩ := exists_ok_of_mem_of_map_ok hmap htarget
      exact (hexpand heq).2.1 (hall planned hplanned)
    · intro hall planned hplanned
      obtain ⟨target, htarget, heq⟩ := exists_of_mem_of_map_ok hmap hplanned
      exact (hexpand heq).2.2 (hall target htarget)

/-- Paths that lead up or start at the root are moved into the build root, but not an artifact that
leads up behind it, not the unity sources beside it, and not the object of a source that it is. -/
theorem isWithin_buildRoot_awkward :
    (∃ plan,
      ofTargets (.rootedAt "build") [.executable "app" "../bin/app" "/src/../a.c"] = .ok plan ∧
        ∀ s ∈ plan.steps, s.output.IsWithin ⟨"build"⟩) ∧
    ∀ x ∈ [("build", Target.executable "app" "build/../app" "a.c"),
        ("build", { Target.executable "app" "" "a.c" with unity := true }),
        ("main.c", Target.executable "app" "app" "main.c")],
      ∃ plan, ofTargets (.rootedAt x.1) [x.2] = .ok plan ∧
        ¬ ∀ s ∈ plan.steps, s.output.IsWithin ⟨x.1⟩ := by
  have hiff : ∀ root ∈ ["build", "main.c"], ∀ target,
      (ofTargets (.rootedAt root) [target]).isOk = true →
        ∃ plan, ofTargets (.rootedAt root) [target] = .ok plan ∧
          ((∀ s ∈ plan.steps, s.output.IsWithin ⟨root⟩) ↔ target.StaysBelow (.rootedAt root)) := by
    intro root hroot target hok
    obtain ⟨plan, hplan⟩ := isOk_iff.1 hok
    have hsteps : ∀ c ∈ [Component.current, .parent], ∀ root ∈ ["build", "main.c"],
        c ∉ (Path.mk root).components := by
      decide
    have hwithin := (@forall_isWithin_buildRoot_iff (.rootedAt root) [target] plan
      (hsteps .current (by decide) root hroot) (hsteps .parent (by decide) root hroot)
      ⟨.gcc, rfl⟩ hplan).2
    rw [List.forall_mem_singleton] at hwithin
    exact ⟨plan, hplan, hwithin⟩
  constructor
  · obtain ⟨plan, hplan, hwithin⟩ := hiff "build" (by decide)
      (.executable "app" "../bin/app" "/src/../a.c") (by decide +kernel)
    refine ⟨plan, hplan, hwithin.2 ⟨fun path hpath => ?_, nofun,
      fun _ template htemplate path hpath => ?_⟩⟩
    · have hexpand : Template.expand (.ofList []) "../bin/app" = .ok "../bin/app" := by
        decide +kernel
      cases hexpand.symm.trans hpath
      decide +kernel
    · cases List.mem_singleton.1 htemplate
      have hexpand : Template.expand (.ofList []) "/src/../a.c" = .ok "/src/../a.c" := by
        decide +kernel
      cases hexpand.symm.trans hpath
      decide +kernel
  · simp only [List.forall_mem_cons]
    refine ⟨?_, ?_, ?_, List.forall_mem_nil _⟩
    · obtain ⟨plan, hplan, hwithin⟩ := hiff "build" (by decide)
        (.executable "app" "build/../app" "a.c") (by decide +kernel)
      refine ⟨plan, hplan, fun hall => ?_⟩
      exact (hwithin.1 hall).artifact "build/../app" (by decide +kernel) (by decide +kernel)
    · obtain ⟨plan, hplan, hwithin⟩ := hiff "build" (by decide)
        { Target.executable "app" "" "a.c" with unity := true } (by decide +kernel)
      refine ⟨plan, hplan, fun hall => ?_⟩
      exact (hwithin.1 hall).unity rfl "" (by decide +kernel) (by decide +kernel)
    · obtain ⟨plan, hplan, hwithin⟩ := hiff "main.c" (by decide)
        (.executable "app" "app" "main.c") (by decide +kernel)
      refine ⟨plan, hplan, fun hall => ?_⟩
      exact ((hwithin.1 hall).sources rfl "main.c" (by decide) "main.c" (by decide +kernel)).2
        (by decide +kernel)

end BuildPlan

end NinjaGen
