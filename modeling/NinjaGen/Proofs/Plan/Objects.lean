import NinjaGen.Proofs.Path.Spelling
import NinjaGen.Proofs.Plan.BuildRoot
import NinjaGen.Proofs.Plan.Producers

/-!
# The objects of ordinary sources

The object of a source is placed below the build root, and its name goes on with the extension of
objects. Both can be undone for the sources that a project usually has, so that different ones
never have one object.

* `Path.same_object_iff`: the extension can be undone for whatever leads to a name.
* `Path.same_under_iff_of_names`: so can moving below a directory, for paths that consist of names
  and are not there yet.
* `BuildContext.IsOrdinary` says of a source that it is in the project, outside the build root.
* `BuildContext.objectPath_spec`: ordinary sources have one object only if they are one path, and a
  target of different ones is never refused because of their objects.
-/

namespace NinjaGen

namespace Path

open Component

variable {p q dir : Path}

/-! ## Undoing the way to an object -/

/-- **The names of objects go on alike**, so that objects are the same where the paths that they are
named after are. -/
theorem same_object_iff {name name' : String} (hp : p.fileName? = some name)
    (hq : q.fileName? = some name') {ext : String} (hext : '/' ∉ ext.toList) :
    ((p.under dir).appendText ext).same ((q.under dir).appendText ext) = true ↔
      (p.under dir).same (q.under dir) = true := by
  obtain ⟨front, hfront, happend⟩ := exists_components_object hp dir
  obtain ⟨front', hfront', happend'⟩ := exists_components_object hq dir
  simp only [same_iff, happend ext hext, happend' ext hext, hfront, hfront',
    List.append_singleton_inj, Component.normal.injEq, String.append_left_inj]

/-- A relative path that never leads up consists of names, apart from `.`. -/
theorem filterMap_descended (hrelative : p.isAbsolute = false)
    (hup : Component.parent ∉ p.components) :
    p.withoutCurrent.components.filterMap descended = p.withoutCurrent.components := by
  have hname : ∀ c ∈ p.withoutCurrent.components, descended c = some c := by
    intro c hc
    have hpiece : c ∈ p.pieces.filterMap ofPiece? := by
      rwa [components_withoutCurrent, filter_components, hrelative] at hc
    have hstep : c.IsStep :=
      isStep_of_mem_filterMap (fun _ => slash_not_mem_of_mem_splitOn) c hpiece
    cases c with
    | root => exact absurd (List.mem_singleton_self '/') hstep.1
    | current => exact absurd hstep.2 (ofPiece?_ne_current _)
    | parent => exact absurd (parent_mem_withoutCurrent.1 hc) hup
    | normal name => rfl
  rw [List.filterMap_congr hname, List.filterMap_some]

/-- Paths that consist of names can be told apart below a directory in which they were not. -/
theorem same_under_iff_of_names (hp : p.withoutCurrent.components.filterMap descended =
      p.withoutCurrent.components)
    (hq : q.withoutCurrent.components.filterMap descended = q.withoutCurrent.components)
    (hpdir : p.withoutCurrent.startsWith dir = false)
    (hqdir : q.withoutCurrent.startsWith dir = false) :
    (p.under dir).same (q.under dir) = true ↔
      p.withoutCurrent.same q.withoutCurrent = true := by
  have hcomponents : ∀ {p : Path},
      p.withoutCurrent.components.filterMap descended = p.withoutCurrent.components →
      p.withoutCurrent.startsWith dir = false →
      (p.under dir).components = dir.components ++ p.withoutCurrent.components := by
    intro p hnames hdir
    rw [components_under, if_neg (by simp [← startsWith_iff, hdir]), hnames]
  rw [same_iff, same_iff, hcomponents hp hpdir, hcomponents hq hqdir, List.append_right_inj]

end Path

/-! ## Ordinary sources -/

/-- A source as most are: one in a language, of the project, that never leads up and is not in the
build root. -/
structure BuildContext.IsOrdinary (ctx : BuildContext) (p : Path) : Prop where
  relative : p.isAbsolute = false
  language : ∃ l, Language.ofPath? p = some l
  parent_not_mem : Component.parent ∉ p.components
  outside : p.withoutCurrent.startsWith ctx.buildRoot = false

instance (ctx : BuildContext) (p : Path) : Decidable (ctx.IsOrdinary p) :=
  decidable_of_iff (p.isAbsolute = false ∧ (Language.ofPath? p).isSome = true ∧
      Component.parent ∉ p.components ∧ p.withoutCurrent.startsWith ctx.buildRoot = false)
    ⟨fun ⟨h₁, h₂, h₃, h₄⟩ => ⟨h₁, Option.isSome_iff_exists.1 h₂, h₃, h₄⟩,
      fun ⟨h₁, h₂, h₃, h₄⟩ => ⟨h₁, Option.isSome_iff_exists.2 h₂, h₃, h₄⟩⟩

/-- The sources of a target are ordinary, and no two of them are one path. -/
structure Target.HasOrdinarySources (ctx : BuildContext) (target : Target) : Prop where
  ordinary : ∀ t ∈ target.sources, ∀ p ∈ ctx.path? t, ctx.IsOrdinary p
  different : target.sources.Pairwise fun s t => ∀ p ∈ ctx.path? s, ∀ q ∈ ctx.path? t,
    p.withoutCurrent.same q.withoutCurrent = false

instance (ctx : BuildContext) (target : Target) : Decidable (target.HasOrdinarySources ctx) :=
  decidable_of_iff (_ ∧ _) ⟨fun ⟨h₁, h₂⟩ => ⟨h₁, h₂⟩, fun ⟨h₁, h₂⟩ => ⟨h₁, h₂⟩⟩

section Ordinary

open Expansion

variable {ctx : BuildContext} {target : Target}

/-- **Ordinary sources have one object only if they are one path.** -/
theorem BuildContext.IsOrdinary.same_objectPath_iff {p q : Path} (hp : ctx.IsOrdinary p)
    (hq : ctx.IsOrdinary q) (hext : '/' ∉ ctx.profile.objectExtension.toList) :
    (ctx.objectPath p).same (ctx.objectPath q) = true ↔
      p.withoutCurrent.same q.withoutCurrent = true := by
  obtain ⟨_, hlang⟩ := hp.language
  obtain ⟨_, hlang'⟩ := hq.language
  obtain ⟨name, hname⟩ := fileName?_of_ofPath? hlang
  obtain ⟨name', hname'⟩ := fileName?_of_ofPath? hlang'
  refine (Path.same_object_iff hname hname' hext).trans ?_
  exact Path.same_under_iff_of_names (Path.filterMap_descended hp.relative hp.parent_not_mem)
    (Path.filterMap_descended hq.relative hq.parent_not_mem) hp.outside hq.outside

namespace Target.HasOrdinarySources

/-- No two of the sources that the target starts with have one object. -/
theorem distinct (h : target.HasOrdinarySources ctx)
    (hext : '/' ∉ ctx.profile.objectExtension.toList) {ss : List SourceFile}
    (hss : ss.map .ok <+: target.sources.map (source ctx)) :
    Distinct (object ctx) ss := by
  have hpath : ∀ {template s}, source ctx template = .ok s → s.path ∈ ctx.path? template :=
    fun h => path?_eq_some_iff.2 (source_eq_ok_iff.1 h).1
  have hpair : (target.sources.map (source ctx)).Pairwise fun x y => ∀ s t, x = .ok s → y = .ok t →
      (object ctx s).same (object ctx t) = false := by
    refine List.pairwise_map.2 (h.different.imp_of_mem ?_)
    intro a b ha hb hdiff s t hs ht
    have hsame := (h.ordinary a ha _ (hpath hs)).same_objectPath_iff
      (h.ordinary b hb _ (hpath ht)) hext
    exact Bool.eq_false_iff.2 fun hobject =>
      Bool.eq_false_iff.1 (hdiff _ (hpath hs) _ (hpath ht)) (hsame.1 hobject)
  exact (List.pairwise_map.1 (hpair.sublist hss.sublist)).imp fun hdiff => hdiff _ _ rfl rfl

/-- Such a target is not refused because of the objects of its sources. -/
theorem expandTarget_ne (h : target.HasOrdinarySources ctx)
    (hext : '/' ∉ ctx.profile.objectExtension.toList) {path first second : String} :
    expandTarget ctx target ≠ .error (.duplicateOutput path first second) := by
  rw [Ne, expandTarget_eq_duplicateOutput_iff]
  rintro ⟨-, ss, hss, s, t, hrepeat, -⟩
  exact (h.distinct hext hss).not_firstRepeat hrepeat

end Target.HasOrdinarySources

namespace BuildPlan

variable {planned : PlannedTarget}

/-- A target by itself that can be expanded has no plan exactly when one of its steps repeats the
output of another. -/
theorem ofTargets_singleton_eq_error_iff (h : expandTarget ctx target = .ok planned)
    {e : GenerationError} :
    ofTargets ctx [target] = .error e ↔
      ∃ first again, FirstRepeat Step.output planned.steps first again ∧
        e = .duplicateOutput again.output.text first.wording again.wording := by
  have hclaim : ofTargets ctx [target] = .error e ↔ claim (claimsOf []) planned.steps = .error e := by
    rw [ofTargets, expandAll, h]
    simp [bind_eq_error_iff, expandAll, pure, Except.pure, claimsOf]
  rw [hclaim, claim_eq_error_iff .nil]
  constructor
  · rintro ⟨before, s, after, first, hsteps, hd, hfirst, hsame, rfl⟩
    exact ⟨first, s, ⟨before, after, hsteps, hd, hfirst, hsame⟩, rfl⟩
  · rintro ⟨first, s, ⟨before, after, hsteps, hd, hfirst, hsame⟩, rfl⟩
    exact ⟨before, s, after, first, hsteps, hd, hfirst, hsame, rfl⟩

/-- A target whose sources are compiled one by one and that can be expanded is refused only if its
artifact takes the place of one of its objects. -/
theorem ofTargets_singleton_eq_duplicateOutput_iff (hunity : target.unity = false)
    (h : expandTarget ctx target = .ok planned) {path : String} :
    (∃ first second, ofTargets ctx [target] = .error (.duplicateOutput path first second)) ↔
      path = planned.output.text ∧
        ∃ c, .compile c ∈ planned.steps ∧ c.output.same planned.output = true := by
  simp only [ofTargets_singleton_eq_error_iff h]
  obtain ⟨parts, hparts, rfl⟩ := expandTarget_eq_ok_iff.1 h
  obtain ⟨-, hsources, -, hfinal⟩ := parts_eq_ok_iff.1 hparts
  obtain ⟨houtput, hisFinal⟩ := output_of_finalStep hfinal
  have hlast : (parts.last ctx target).output = parts.output := by
    rw [Parts.last, Step.output_withObjects, houtput]
  have hd : Distinct Step.output ((parts.compiles ctx target).map .compile) := by
    have hobjects := (sources_eq_ok_iff.1 hsources).2.2
    rw [parts.compiles_of_apart hunity, List.map_map]
    refine List.pairwise_map.2 ((List.pairwise_map.1 hobjects).imp fun hne => ?_)
    exact decide_eq_false hne
  have hsteps : (parts.arrange ctx target).steps =
      (parts.compiles ctx target).map .compile ++ [parts.last ctx target] := by
    rw [Parts.arrange, parts.unity_of_apart hunity]
    rfl
  simp only [Parts.compile_mem_steps_iff hisFinal]
  simp only [hsteps, firstRepeat_append_singleton_iff hd, List.mem_map]
  constructor
  · rintro ⟨first, second, _, _, ⟨rfl, ⟨c, hc, rfl⟩, hsame⟩, herror⟩
    rw [hlast] at hsame herror
    cases herror
    exact ⟨rfl, c, hc, hsame⟩
  · rintro ⟨rfl, c, hc, hsame⟩
    refine ⟨(Step.compile c).wording, (parts.last ctx target).wording, .compile c, _,
      ⟨rfl, ⟨c, hc, rfl⟩, ?_⟩, ?_⟩
    · rw [hlast]
      exact hsame
    · rw [hlast]
      rfl

end BuildPlan

end Ordinary

/-- **The objects of ordinary sources.** Two of them are one file exactly when the sources are one
path. A target of different ones is never refused because two of its sources have one object; if
they are compiled one by one and it is planned by itself, a file is produced again only where the
artifact takes the place of an object. -/
theorem BuildContext.objectPath_spec (ctx : BuildContext)
    (hext : '/' ∉ ctx.profile.objectExtension.toList) :
    (∀ p q, ctx.IsOrdinary p → ctx.IsOrdinary q →
      ((ctx.objectPath p).same (ctx.objectPath q) = true ↔
        p.withoutCurrent.same q.withoutCurrent = true)) ∧
    ∀ target : Target, target.HasOrdinarySources ctx →
      (∀ path first second, expandTarget ctx target ≠ .error (.duplicateOutput path first second)) ∧
      (target.unity = false → ∀ path,
        (∃ first second,
          BuildPlan.ofTargets ctx [target] = .error (.duplicateOutput path first second)) ↔
        ∃ planned, expandTarget ctx target = .ok planned ∧ path = planned.output.text ∧
          ∃ c, .compile c ∈ planned.steps ∧ c.output.same planned.output = true) := by
  refine ⟨fun p q hp hq => hp.same_objectPath_iff hq hext, fun target h => ?_⟩
  have hobjects : ∀ {path first second},
      expandTarget ctx target ≠ .error (.duplicateOutput path first second) := h.expandTarget_ne hext
  refine ⟨fun _ _ _ => hobjects, fun hunity path => ?_⟩
  cases hexpand : expandTarget ctx target with
  | ok planned =>
    rw [BuildPlan.ofTargets_singleton_eq_duplicateOutput_iff hunity hexpand]
    simp
  | error e =>
    -- The error of the expansion is another one, whatever is put around it.
    refine iff_of_false ?_ (by simp)
    rintro ⟨first, second, h⟩
    rw [BuildPlan.ofTargets, BuildPlan.expandAll, hexpand] at h
    cases e with
    | duplicateOutput => exact hobjects hexpand
    | _ => cases h

/-- Sources that differ in their extension or in its case, one that is named like an object, and one
in a directory that is named like the build root. -/
theorem BuildContext.objectPath_spec_alike :
    let ctx := BuildContext.rootedAt "out/build"
    let sources := ["a.c", "a.cpp", "a.C", "a.c.o.c", "build/a.c"]
    let target := Target.ofSettings "app" .exe "a.c.o" sources {}
    '/' ∉ ctx.profile.objectExtension.toList ∧
      (ctx.IsOrdinary ⟨"lib//build/./a.c"⟩ ∧ ctx.IsOrdinary ⟨"./lib/build/a.c"⟩ ∧
        (ctx.objectPath ⟨"lib//build/./a.c"⟩).same (ctx.objectPath ⟨"./lib/build/a.c"⟩) = true) ∧
      (target.HasOrdinarySources ctx ∧
        ∀ path first second, expandTarget ctx target ≠ .error (.duplicateOutput path first second)) ∧
      target.unity = false ∧ ∃ first second, BuildPlan.ofTargets ctx [target] =
        .error (.duplicateOutput "out/build/a.c.o" first second) := by
  intro ctx sources target
  have hext : '/' ∉ ctx.profile.objectExtension.toList := by decide
  have hdotted : ctx.IsOrdinary ⟨"lib//build/./a.c"⟩ := by decide +kernel
  have hplain : ctx.IsOrdinary ⟨"./lib/build/a.c"⟩ := by decide +kernel
  have htarget : target.HasOrdinarySources ctx := by decide +kernel
  obtain ⟨hsame, hall⟩ := objectPath_spec (.rootedAt "out/build") hext
  obtain ⟨hobjects, hplan⟩ := hall target htarget
  -- The artifact is named like the object of the first source.
  let c : CompileStep := ⟨⟨"a.c"⟩, ⟨"out/build/a.c.o"⟩, .c, ["-g"], ["."], [], "app"⟩
  have hclash : (match expandTarget ctx target with
      | .ok planned => decide ("out/build/a.c.o" = planned.output.text ∧
          .compile c ∈ planned.steps ∧ c.output.same planned.output = true)
      | .error _ => false) = true := by decide +kernel
  split at hclash
  next planned hplanned =>
    obtain ⟨htext, hc, hplace⟩ := of_decide_eq_true hclash
    have herror := (hplan rfl "out/build/a.c.o").2 ⟨planned, hplanned, htext, c, hc, hplace⟩
    exact ⟨hext, ⟨hdotted, hplain, (hsame _ _ hdotted hplain).2 (by decide +kernel)⟩,
      ⟨htarget, hobjects⟩, rfl, herror⟩
  next => cases hclash

end NinjaGen
