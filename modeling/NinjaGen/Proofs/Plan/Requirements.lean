import NinjaGen.Proofs.Plan.Parts

/-!
# What an expansion requires

The expansion of a target goes through what it requires one by one. It fails at the first
requirement that the target does not meet, with the error of that one.

* `Requirement` is anything that is required, and `Requirement.error?` is the error if it is not
  met.
* `Target.requirements` lists the requirements of a target in the order in which they count; every
  entry of a list of the target is one of its own.
* `failure?_expandTarget`: an expansion fails as the first of them that is not met.
* `Expandable` says in one piece what a target is that meets them all
  (`forall_error?_eq_none_iff`).
-/

namespace NinjaGen

/-! ## Failures -/

section Failures

variable {α β ε : Type}

/-- The error of work that fails. -/
def failure? : Except ε α → Option ε
  | .ok _ => none
  | .error e => some e

theorem failure?_eq_none_iff {x : Except ε α} : failure? x = none ↔ ∃ a, x = .ok a := by
  cases x <;> simp [failure?]

theorem failure?_eq_some_iff {x : Except ε α} {e : ε} : failure? x = some e ↔ x = .error e := by
  cases x <;> simp [failure?]

@[simp] theorem failure?_map (f : α → β) (x : Except ε α) : failure? (x.map f) = failure? x := by
  cases x <;> rfl

/-- Of two pieces of work in a row, the first to fail decides. -/
theorem failure?_bind {x : Except ε α} {f : α → Except ε β} {rest : Option ε}
    (h : ∀ a, x = .ok a → failure? (f a) = rest) :
    failure? (x >>= f) = (failure? x).or rest := by
  cases x with
  | error e => rfl
  | ok a => exact h a rfl

/-- What follows and never fails does not decide. -/
theorem failure?_bind_pure {x : Except ε α} {f : α → β} :
    failure? (x >>= fun a => pure (f a)) = failure? x := by
  cases x <;> rfl

theorem failure?_mapM (f : α → Except ε β) (xs : List α) :
    failure? (xs.mapM f) = xs.findSome? fun x => failure? (f x) := by
  induction xs with
  | nil => rfl
  | cons x r ih =>
    rw [List.findSome?_cons]
    cases hx : f x with
    | error e =>
      rw [mapM_cons_of_error hx]
      rfl
    | ok y =>
      rw [mapM_cons_of_ok hx, failure?_map, ih]
      rfl

end Failures

/-! ## Requirements -/

/-- Something that the expansion of a target requires. -/
inductive Requirement
  /-- Every placeholder of a text has a value. -/
  | resolves (template : String)
  /-- There is a source. -/
  | hasSource
  /-- A source is in a language that can be compiled. -/
  | inLanguage (template : String)
  /-- There is a compiler for the language of a source. -/
  | hasCompiler (template : String)
  /-- A source has another object than each of those before it. -/
  | ownObject (before : List String) (template : String)

/-- The path that a template means. -/
def BuildContext.path? (ctx : BuildContext) (template : String) : Option Path :=
  match Template.expand ctx.bindings template with
  | .ok text => some ⟨text⟩
  | .error _ => none

namespace Requirement

variable (ctx : BuildContext) (target : Target)

/-- The error if a requirement is not met. One of a source whose path cannot be told is not in
question. -/
def error? : Requirement → Option GenerationError
  | resolves template => failure? (Template.expand ctx.bindings template)
  | hasSource => if target.sources = [] then some (.emptyTarget target.name) else none
  | inLanguage template => do
    let path ← ctx.path? template
    if Language.ofPath? path = none then some (.unrecognizedSource path.text) else none
  | hasCompiler template => do
    let path ← ctx.path? template
    let lang ← Language.ofPath? path
    if (ctx.profile.compiler? lang).any (· ≠ "") then none
    else some (.unsupportedToolchain lang.name)
  | ownObject before template => do
    let path ← ctx.path? template
    let object := ctx.objectPath path
    let step := CompileStep.wording path target.name
    if (before.filterMap ctx.path?).any fun p => (ctx.objectPath p).same object then
      some (.duplicateOutput object.text step step)
    else none

/-- What is required of sources behind others, one source after the other. -/
def ofSources (before : List String) : List String → List Requirement
  | [] => []
  | s :: r => [resolves s, inLanguage s, hasCompiler s, ownObject before s] ++
    ofSources (before ++ [s]) r

end Requirement

namespace Target

/-- The templates for the command line that links the artifact, if it is linked. -/
def linkTemplates (t : Target) : List String :=
  if t.kind = .staticLib then [] else t.ldflags ++ t.linkDeps ++ t.libs

/-- What the expansion of the target requires, in the order in which it counts. -/
def requirements (t : Target) : List Requirement :=
  [.resolves t.output, .hasSource] ++ Requirement.ofSources [] t.sources ++
    (t.includeDirs ++ t.defines ++ t.cflags ++ t.cxxflags ++ t.linkTemplates).map .resolves

end Target

namespace Expansion

open Requirement (ofSources)

variable {ctx : BuildContext} {target : Target}

/-! ### Lists of templates -/

theorem failure?_expandAll (templates : List String) :
    failure? (Template.expandAll ctx.bindings templates) =
      (templates.map .resolves).findSome? (Requirement.error? ctx target) := by
  rw [Template.expandAll, failure?_mapM, List.findSome?_map]
  rfl

theorem failure?_compileSettings :
    failure? (compileSettings ctx target) =
      ((target.includeDirs ++ target.defines ++ target.cflags ++ target.cxxflags).map
        .resolves).findSome? (Requirement.error? ctx target) := by
  simp only [List.map_append, List.findSome?_append, Option.or_assoc]
  simp only [← failure?_expandAll]
  exact failure?_bind fun _ _ => failure?_bind fun _ _ => failure?_bind fun _ _ =>
    failure?_bind_pure

theorem failure?_linkStep (output : Path) (objects : List Path) (mode : LinkMode) :
    failure? (linkStep ctx target output objects mode) =
      ((target.ldflags ++ target.linkDeps ++ target.libs).map .resolves).findSome?
        (Requirement.error? ctx target) := by
  simp only [List.map_append, List.findSome?_append, Option.or_assoc]
  simp only [← failure?_expandAll]
  exact failure?_bind fun _ _ => failure?_bind fun _ _ => failure?_bind_pure

theorem failure?_finalStep (output : Path) (objects : List Path) :
    failure? (finalStep ctx target output objects) =
      (target.linkTemplates.map .resolves).findSome? (Requirement.error? ctx target) := by
  unfold finalStep Target.linkTemplates
  split
  next h =>
    rw [if_pos h]
    rfl
  next h =>
    rw [if_neg (by simp [h]), failure?_map]
    exact failure?_linkStep output objects .executable
  next h =>
    rw [if_neg (by simp [h]), failure?_map]
    exact failure?_linkStep output objects .sharedLib

/-! ### Sources -/

theorem path?_eq_some_iff {template : String} {p : Path} :
    ctx.path? template = some p ↔ Template.expand ctx.bindings template = .ok p.text := by
  unfold BuildContext.path?
  cases Template.expand ctx.bindings template with
  | error => simp
  | ok text =>
    rw [Option.some.injEq, Except.ok.injEq]
    exact ⟨fun h => h ▸ rfl, fun h => h ▸ rfl⟩

section Path

variable {template : String} {p : Path} (h : ctx.path? template = some p)

include h

theorem error?_inLanguage :
    Requirement.error? ctx target (.inLanguage template) =
      if Language.ofPath? p = none then some (.unrecognizedSource p.text) else none := by
  simp only [Requirement.error?, h]
  rfl

theorem error?_hasCompiler {l : Language} (hl : Language.ofPath? p = some l) :
    Requirement.error? ctx target (.hasCompiler template) = failure? (ctx.profile.compiler l) := by
  simp only [Requirement.error?, h, ToolchainProfile.compiler, Option.bind_eq_bind,
    Option.bind_some, hl]
  cases ctx.profile.compiler? l with
  | none => rfl
  | some c => by_cases hc : c = "" <;> simp [hc, failure?]

theorem error?_ownObject (before : List String) :
    Requirement.error? ctx target (.ownObject before template) =
      if ∃ q ∈ before.filterMap ctx.path?,
          (ctx.objectPath q).components = (ctx.objectPath p).components then
        some (.duplicateOutput (ctx.objectPath p).text (CompileStep.wording p target.name)
          (CompileStep.wording p target.name))
      else none := by
  simp only [Requirement.error?, h, ← Path.same_iff, ← List.any_eq_true]
  rfl

end Path

/-- A source is read from its path, in its language, by a compiler. -/
theorem failure?_source (template : String) :
    failure? (source ctx template) =
      [.resolves template, .inLanguage template, .hasCompiler template].findSome?
        (Requirement.error? ctx target) := by
  simp only [List.findSome?_cons, List.findSome?_nil]
  unfold source
  cases hpath : Template.expand ctx.bindings template with
  | error =>
    rw [Requirement.error?, hpath]
    rfl
  | ok text =>
    have hp : ctx.path? template = some ⟨text⟩ := path?_eq_some_iff.2 hpath
    rw [Requirement.error?, hpath, error?_inLanguage hp]
    cases hlang : Language.ofPath? ⟨text⟩ with
    | none => simp [bind, Except.bind, failure?, SourceFile.ofPath?, hlang]
    | some l =>
      rw [error?_hasCompiler hp hlang, if_neg (by simp)]
      simp only [bind, Except.bind, SourceFile.ofPath?, hlang, Option.map_some]
      cases ctx.profile.compiler l <;> rfl

/-- Sources are read one after the other; `seen` are the objects of those before them. -/
theorem failure?_sourcesFrom (templates before : List String) (seen : List (List Component))
    (hseen : ∀ cs, cs ∈ seen ↔
      ∃ p ∈ before.filterMap ctx.path?, (ctx.objectPath p).components = cs) :
    failure? (sourcesFrom ctx target.name seen templates) =
      (ofSources before templates).findSome? (Requirement.error? ctx target) := by
  induction templates generalizing before seen with
  | nil => rfl
  | cons t r ih =>
    have hsplit : ofSources before (t :: r) = [.resolves t, .inLanguage t, .hasCompiler t] ++
        (.ownObject before t :: ofSources (before ++ [t]) r) := rfl
    rw [hsplit, List.findSome?_append, ← failure?_source, List.findSome?_cons, sourcesFrom]
    refine failure?_bind fun s hs => ?_
    have hpath : ctx.path? t = some s.path := path?_eq_some_iff.2 (source_eq_ok_iff.1 hs).1
    rw [error?_ownObject hpath]
    dsimp only
    split
    next hmem =>
      rw [if_pos ((hseen _).1 hmem)]
      rfl
    next hmem =>
      rw [if_neg (mt (hseen _).2 hmem), failure?_bind_pure]
      refine ih (before ++ [t]) _ fun cs => ?_
      rw [List.mem_cons, hseen, List.filterMap_append]
      simp only [List.filterMap_cons, hpath, List.filterMap_nil, List.mem_append,
        List.mem_singleton, or_and_right, exists_or, exists_eq_left]
      rw [or_comm, eq_comm]

theorem failure?_sources :
    failure? (sources ctx target) =
      (.hasSource :: ofSources [] target.sources).findSome? (Requirement.error? ctx target) := by
  unfold sources
  rw [List.findSome?_cons, Requirement.error?]
  split
  next => rfl
  next => exact failure?_sourcesFrom target.sources [] [] (by simp)

end Expansion

/-- **An expansion fails as the first requirement that is not met.** -/
theorem failure?_expandTarget (ctx : BuildContext) (target : Target) :
    failure? (expandTarget ctx target) =
      target.requirements.findSome? (Requirement.error? ctx target) := by
  have hsplit : target.requirements = [.resolves target.output] ++
      ((.hasSource :: Requirement.ofSources [] target.sources) ++
        ((target.includeDirs ++ target.defines ++ target.cflags ++ target.cxxflags).map .resolves ++
          target.linkTemplates.map .resolves)) := by
    simp [Target.requirements]
  rw [hsplit, List.findSome?_append, List.findSome?_append, List.findSome?_append,
    ← Expansion.failure?_sources, ← Expansion.failure?_compileSettings, expandTarget,
    List.findSome?_singleton]
  refine failure?_bind fun _ _ => failure?_bind fun _ _ => failure?_bind fun _ _ => ?_
  exact failure?_bind_pure.trans (Expansion.failure?_finalStep _ _)

/-! ## Targets that can be expanded -/

/-- What a target is that can be expanded. -/
structure Expandable (ctx : BuildContext) (target : Target) : Prop where
  output : ∃ text, Template.expand ctx.bindings target.output = .ok text
  sources_ne_nil : target.sources ≠ []
  /-- Every source has a path, a language and a compiler for that. -/
  source : ∀ s ∈ target.sources, ∃ path, Template.expand ctx.bindings s = .ok path ∧
    ∃ l, Language.ofPath? ⟨path⟩ = some l ∧ ∃ c, ctx.profile.compiler? l = some c ∧ c ≠ ""
  /-- No two sources have the same object. -/
  objects : target.sources.Pairwise fun s t => ∀ p q, Template.expand ctx.bindings s = .ok p →
    Template.expand ctx.bindings t = .ok q → (ctx.objectPath ⟨p⟩).same (ctx.objectPath ⟨q⟩) = false
  /-- The settings for compiling have values, whatever the languages of the sources. -/
  settings : ∀ s ∈ target.includeDirs ++ target.defines ++ target.cflags ++ target.cxxflags,
    ∃ text, Template.expand ctx.bindings s = .ok text
  /-- So have those for linking, unless nothing is linked. -/
  link : target.kind ≠ .staticLib → ∀ s ∈ target.ldflags ++ target.linkDeps ++ target.libs,
    ∃ text, Template.expand ctx.bindings s = .ok text

namespace Expansion

variable {ctx : BuildContext} {target : Target}

theorem exists_source_iff {template : String} :
    (∃ s, source ctx template = .ok s) ↔
      ∃ path, Template.expand ctx.bindings template = .ok path ∧
        ∃ l, Language.ofPath? ⟨path⟩ = some l ∧ ∃ c, ctx.profile.compiler? l = some c ∧ c ≠ "" := by
  simp only [source_eq_ok_iff, ToolchainProfile.compiler_eq_ok_iff]
  constructor
  · rintro ⟨s, hpath, hlang, hc⟩
    exact ⟨_, hpath, _, hlang, hc⟩
  · rintro ⟨path, hpath, l, hlang, hc⟩
    exact ⟨⟨⟨path⟩, l⟩, hpath, hlang, hc⟩

/-- The objects of sources are different when those of their templates are. -/
theorem nodup_objects_iff {templates : List String} {ss : List SourceFile}
    (h : templates.map (source ctx) = ss.map .ok) :
    (ss.map (objectComponents ctx)).Nodup ↔
      templates.Pairwise fun s t => ∀ p q, Template.expand ctx.bindings s = .ok p →
        Template.expand ctx.bindings t = .ok q →
          (ctx.objectPath ⟨p⟩).same (ctx.objectPath ⟨q⟩) = false := by
  induction templates generalizing ss with
  | nil =>
    cases ss with
    | nil => simp
    | cons => cases h
  | cons t r ih =>
    cases ss with
    | nil => cases h
    | cons s ss =>
      obtain ⟨hs, hr⟩ := List.cons.inj h
      have hpath := (source_eq_ok_iff.1 hs).1
      rw [List.map_cons, List.nodup_cons, List.pairwise_cons, ih hr]
      refine and_congr_left fun _ => ?_
      simp only [List.mem_map, not_exists, not_and]
      constructor
      · intro hne t' ht' p q hp hq
        obtain ⟨s', hs', hsource⟩ := exists_ok_of_mem_of_map_ok hr ht'
        cases hpath.symm.trans hp
        cases (source_eq_ok_iff.1 hsource).1.symm.trans hq
        exact decide_eq_false fun heq => hne s' hs' heq.symm
      · intro hne s' hs' heq
        obtain ⟨t', ht', hsource⟩ := exists_of_mem_of_map_ok hr hs'
        have hsame := hne t' ht' _ _ hpath (source_eq_ok_iff.1 hsource).1
        exact of_decide_eq_false hsame heq.symm

theorem exists_sources_iff :
    (∃ ss, sources ctx target = .ok ss) ↔
      target.sources ≠ [] ∧ (∀ t ∈ target.sources, ∃ s, source ctx t = .ok s) ∧
        target.sources.Pairwise fun s t => ∀ p q, Template.expand ctx.bindings s = .ok p →
          Template.expand ctx.bindings t = .ok q →
            (ctx.objectPath ⟨p⟩).same (ctx.objectPath ⟨q⟩) = false := by
  simp only [sources_eq_ok_iff]
  constructor
  · rintro ⟨ss, hne, hmap, hnodup⟩
    refine ⟨hne, fun t ht => ?_, (nodup_objects_iff hmap).1 hnodup⟩
    obtain ⟨s, -, hs⟩ := exists_ok_of_mem_of_map_ok hmap ht
    exact ⟨s, hs⟩
  · rintro ⟨hne, hall, hpair⟩
    obtain ⟨ss, hss⟩ : ∃ ss, target.sources.mapM (source ctx) = .ok ss := by
      rw [← failure?_eq_none_iff, failure?_mapM, List.findSome?_eq_none_iff]
      exact fun t ht => failure?_eq_none_iff.2 (hall t ht)
    have hmap := mapM_eq_ok_iff.1 hss
    exact ⟨ss, hne, hmap, (nodup_objects_iff hmap).2 hpair⟩

end Expansion

/-- A target that meets all its requirements can be expanded. -/
theorem forall_error?_eq_none_iff {ctx : BuildContext} {target : Target} :
    (∀ r ∈ target.requirements, r.error? ctx target = none) ↔ Expandable ctx target := by
  have hsources : (∀ r ∈ .hasSource :: Requirement.ofSources [] target.sources,
      r.error? ctx target = none) ↔ ∃ ss, Expansion.sources ctx target = .ok ss := by
    rw [← failure?_eq_none_iff, Expansion.failure?_sources, List.findSome?_eq_none_iff]
  have hlink : (∀ s ∈ target.linkTemplates, ∃ text, Template.expand ctx.bindings s = .ok text) ↔
      (target.kind ≠ .staticLib → ∀ s ∈ target.ldflags ++ target.linkDeps ++ target.libs,
        ∃ text, Template.expand ctx.bindings s = .ok text) := by
    by_cases hkind : target.kind = .staticLib <;> simp [Target.linkTemplates, hkind]
  have hsplit : target.requirements =
      .resolves target.output :: ((.hasSource :: Requirement.ofSources [] target.sources) ++
        (target.includeDirs ++ target.defines ++ target.cflags ++ target.cxxflags ++
          target.linkTemplates).map .resolves) := by
    simp [Target.requirements]
  have hresolves : ∀ s, Requirement.error? ctx target (.resolves s) = none ↔
      ∃ text, Template.expand ctx.bindings s = .ok text := fun _ => failure?_eq_none_iff
  rw [hsplit, List.forall_mem_cons, List.forall_mem_append, hsources, List.forall_mem_map,
    List.forall_mem_append, Expansion.exists_sources_iff]
  simp only [hresolves, hlink, Expansion.exists_source_iff]
  constructor
  · rintro ⟨houtput, ⟨hne, hsource, hobjects⟩, hsettings, hlink⟩
    exact ⟨houtput, hne, hsource, hobjects, hsettings, hlink⟩
  · rintro ⟨houtput, hne, hsource, hobjects, hsettings, hlink⟩
    exact ⟨houtput, ⟨hne, hsource, hobjects⟩, hsettings, hlink⟩

/-- **Expanding a target.** It succeeds exactly when the target is `Expandable`; otherwise the error
is that of the first requirement that the target does not meet. -/
theorem expandTarget_requirements (ctx : BuildContext) (target : Target) :
    ((∃ planned, expandTarget ctx target = .ok planned) ↔ Expandable ctx target) ∧
    ∀ e, expandTarget ctx target = .error e ↔
      ∃ before r after, target.requirements = before ++ r :: after ∧
        (∀ q ∈ before, q.error? ctx target = none) ∧ r.error? ctx target = some e := by
  constructor
  · rw [← failure?_eq_none_iff, failure?_expandTarget, List.findSome?_eq_none_iff,
      forall_error?_eq_none_iff]
  · intro e
    rw [← failure?_eq_some_iff, failure?_expandTarget, List.findSome?_eq_some_iff]
    refine exists_congr fun before => exists_congr fun r => exists_congr fun after => ?_
    exact and_congr_right fun _ => and_comm

end NinjaGen
