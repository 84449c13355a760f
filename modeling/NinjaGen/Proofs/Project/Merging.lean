import NinjaGen.Descriptor
import Mathlib.Data.List.Induction

/-!
# What merging comes to

Configurations, and the settings in them, are records whose fields may be left open. Merging lays
one over another, field by field, so that of many layers the last one that sets a field counts.

* `LastSetWins` says this of a way to merge, with the laws that come with it.
* `TargetSettings.Setting` and `Config.Choice` are the fields, each with the type of its values. A
  variable is one as well, by its name.
* `Config.merge_spec`: so merge configurations and settings, and a target has the settings of its
  declaration, or else the defaults, or else nothing.
-/

namespace NinjaGen

/-! ## Layers -/

section Layers

variable {σ α : Type} {merge : σ → σ → σ} {empty : σ}

/-- **Records whose fields may be left open are merged field by field**, and what is set later
counts. -/
structure LastSetWins {Field : Type → Type 1} (get : ∀ {α}, Field α → σ → Option α)
    (merge : σ → σ → σ) (empty : σ) : Prop where
  /-- There is nothing to a record but its fields. -/
  ext : ∀ {a b : σ}, (∀ {α} (f : Field α), get f a = get f b) → a = b
  get_merge : ∀ {α} (f : Field α) (a b : σ), get f (merge a b) = (get f b).or (get f a)
  merge_assoc : ∀ a b c, merge (merge a b) c = merge a (merge b c)
  merge_empty : ∀ a, merge a empty = a
  empty_merge : ∀ a, merge empty a = a
  merge_self : ∀ a, merge a a = a
  /-- Of many layers the last one that sets a field counts. -/
  get_foldl : ∀ {α} (f : Field α) (layers : List σ) (v : α),
    get f (layers.foldl merge empty) = some v ↔
      ∃ before layer after, layers = before ++ layer :: after ∧ get f layer = some v ∧
        ∀ later ∈ after, get f later = none

/-- A field of many layers is looked up from the last one on. -/
theorem get_foldl_eq_findSome? {get : σ → Option α} (hempty : get empty = none)
    (hmerge : ∀ a b, get (merge a b) = (get b).or (get a)) (layers : List σ) :
    get (layers.foldl merge empty) = layers.reverse.findSome? get := by
  induction layers using List.reverseRecOn with
  | nil => exact hempty
  | append_singleton layers layer ih =>
    rw [List.foldl_append, List.foldl_cons, List.foldl_nil, hmerge, ih, List.reverse_concat,
      List.findSome?_cons]
    cases get layer <;> rfl

theorem get_foldl_eq_some_iff {get : σ → Option α} (hempty : get empty = none)
    (hmerge : ∀ a b, get (merge a b) = (get b).or (get a)) {layers : List σ} {v : α} :
    get (layers.foldl merge empty) = some v ↔
      ∃ before layer after, layers = before ++ layer :: after ∧ get layer = some v ∧
        ∀ later ∈ after, get later = none := by
  rw [get_foldl_eq_findSome? hempty hmerge, List.findSome?_eq_some_iff]
  constructor
  · rintro ⟨after, layer, before, hlayers, hv, hopen⟩
    refine ⟨before.reverse, layer, after.reverse, ?_, hv, fun later h => ?_⟩
    · rw [← List.reverse_inj, hlayers]
      simp
    · exact hopen later (List.mem_reverse.1 h)
  · rintro ⟨before, layer, after, rfl, hv, hopen⟩
    refine ⟨after.reverse, layer, before.reverse, by simp, hv, fun later h => ?_⟩
    exact hopen later (List.mem_reverse.1 h)

end Layers

/-! ## Settings -/

namespace TargetSettings

/-- The settings, each with the type of its values. -/
inductive Setting : Type → Type 1
  | cflags : Setting (List String)
  | cxxflags : Setting (List String)
  | ldflags : Setting (List String)
  | includeDirs : Setting (List String)
  | defines : Setting (List String)
  | libs : Setting (List String)
  | linkDeps : Setting (List String)
  | unity : Setting Bool

namespace Setting

variable {α : Type}

/-- The value that is set, if any is. -/
def get? : Setting α → TargetSettings → Option α
  | cflags, s => s.cflags
  | cxxflags, s => s.cxxflags
  | ldflags, s => s.ldflags
  | includeDirs, s => s.includeDirs
  | defines, s => s.defines
  | libs, s => s.libs
  | linkDeps, s => s.linkDeps
  | unity, s => s.unity

/-- The value that a target has. -/
def ofTarget : Setting α → Target → α
  | cflags, t => t.cflags
  | cxxflags, t => t.cxxflags
  | ldflags, t => t.ldflags
  | includeDirs, t => t.includeDirs
  | defines, t => t.defines
  | libs, t => t.libs
  | linkDeps, t => t.linkDeps
  | unity, t => t.unity

/-- The value where none is set. -/
def nothing : Setting α → α
  | cflags | cxxflags | ldflags | includeDirs | defines | libs | linkDeps => []
  | unity => false

@[simp] theorem get?_empty (f : Setting α) : f.get? empty = none := by cases f <;> rfl

@[simp] theorem get?_merge (f : Setting α) (below above : TargetSettings) :
    f.get? (below.merge above) = (f.get? above).or (f.get? below) := by
  cases f <;> rfl

/-- What is left open is nothing in a target. -/
theorem ofTarget_ofSettings (f : Setting α) (name : String) (kind : TargetKind) (output : String)
    (sources : List String) (s : TargetSettings) :
    f.ofTarget (.ofSettings name kind output sources s) = (f.get? s).getD f.nothing := by
  cases f <;> rfl

end Setting

/-- Settings are determined by what each of them is. -/
theorem ext_get? {s t : TargetSettings} (h : ∀ {α} (f : Setting α), f.get? s = f.get? t) :
    s = t := by
  obtain ⟨⟩ := s
  obtain ⟨⟩ := t
  rw [TargetSettings.mk.injEq]
  exact ⟨h .cflags, h .cxxflags, h .ldflags, h .includeDirs, h .defines, h .libs, h .linkDeps,
    h .unity⟩

theorem lastSetWins : LastSetWins Setting.get? merge empty where
  ext := ext_get?
  get_merge f := f.get?_merge
  merge_assoc := merge_assoc
  merge_empty := merge_empty
  empty_merge := empty_merge
  merge_self := merge_self
  get_foldl f _ _ := get_foldl_eq_some_iff f.get?_empty f.get?_merge

end TargetSettings

/-! ## Configurations -/

namespace Config

/-- The choices of a configuration, each with the type of its values. -/
inductive Choice : Type → Type 1
  | buildDir : Choice Path
  | buildType : Choice BuildType
  | output : Choice Path
  | unityBatchSize : Choice Nat
  | lineWidth : Choice Nat
  | emitDefault : Choice Bool
  | profile : Choice String
  | cc : Choice String
  | cxx : Choice String
  | linker : Choice String
  | ar : Choice String
  | var (name : String) : Choice String
  | default {α : Type} (f : TargetSettings.Setting α) : Choice α

namespace Choice

variable {α : Type}

/-- The value that is chosen, if any is. -/
def get? : Choice α → Config → Option α
  | buildDir, c => c.build.buildDir
  | buildType, c => c.build.buildType
  | output, c => c.build.output
  | unityBatchSize, c => c.build.unityBatchSize
  | lineWidth, c => c.build.lineWidth
  | emitDefault, c => c.build.emitDefault
  | profile, c => c.toolchain.profile
  | cc, c => c.toolchain.cc
  | cxx, c => c.toolchain.cxx
  | linker, c => c.toolchain.linker
  | ar, c => c.toolchain.ar
  | var name, c => c.vars.get? name
  | default f, c => f.get? c.defaults

@[simp] theorem get?_empty (f : Choice α) : f.get? empty = none := by
  cases f with
  | default f => exact f.get?_empty
  | _ => rfl

@[simp] theorem get?_merge (f : Choice α) (below above : Config) :
    f.get? (below.merge above) = (f.get? above).or (f.get? below) := by
  cases f with
  | var name => exact Bindings.get?_extend below.vars above.vars name
  | default f => exact f.get?_merge below.defaults above.defaults
  | _ => rfl

end Choice

/-- Configurations are determined by what each of their choices is. -/
theorem ext_get? {c d : Config} (h : ∀ {α} (f : Choice α), f.get? c = f.get? d) : c = d := by
  obtain ⟨⟨⟩, ⟨⟩, vars, defaults⟩ := c
  obtain ⟨⟨⟩, ⟨⟩, vars', defaults'⟩ := d
  have hvars : vars = vars' := Bindings.ext_get? fun name => h (.var name)
  have hdefaults : defaults = defaults' := TargetSettings.ext_get? fun f => h (.default f)
  rw [Config.mk.injEq, BuildConfig.mk.injEq, ToolchainSettings.mk.injEq]
  exact ⟨⟨h .buildDir, h .buildType, h .output, h .unityBatchSize, h .lineWidth, h .emitDefault⟩,
    ⟨h .profile, h .cc, h .cxx, h .linker, h .ar⟩, hvars, hdefaults⟩

theorem lastSetWins : LastSetWins Choice.get? merge empty where
  ext := ext_get?
  get_merge f := f.get?_merge
  merge_assoc := merge_assoc
  merge_empty := merge_empty
  empty_merge := empty_merge
  merge_self := merge_self
  get_foldl f _ _ := get_foldl_eq_some_iff f.get?_empty f.get?_merge

end Config

/-- A target has each setting of its declaration, or else the default, or else nothing. -/
theorem TargetSettings.Setting.ofTarget_of_outcome {α : Type} (f : Setting α) {t : FileTree}
    {root : Path} {defaults : TargetSettings} {b : Bindings} {spec : TargetSpec} {target : Target}
    (h : (spec.target t root defaults b).outcome = .ok target) :
    f.ofTarget target = ((f.get? spec.settings).or (f.get? defaults)).getD f.nothing := by
  obtain ⟨entries, files, -, -, rfl⟩ := TargetSpec.outcome_target_eq_ok_iff.1 h
  rw [ofTarget_ofSettings, overlay, get?_merge]

/-- **Merging.** Configurations are merged choice by choice, variables by name, and so are settings;
of many layers the last one that sets a value counts, a list that is set as a whole. Settings are
laid over others by merging, and a target has each setting of its declaration, or else the default,
or else nothing. -/
theorem Config.merge_spec :
    LastSetWins Choice.get? Config.merge .empty ∧
    LastSetWins TargetSettings.Setting.get? TargetSettings.merge .empty ∧
    (∀ base overrides : TargetSettings, base.overlay overrides = base.merge overrides) ∧
    ∀ t root defaults b spec target,
      (TargetSpec.target t root defaults b spec).outcome = .ok target →
      ∀ {α} (f : TargetSettings.Setting α),
        f.ofTarget target = ((f.get? spec.settings).or (f.get? defaults)).getD f.nothing :=
  ⟨lastSetWins, TargetSettings.lastSetWins, fun _ _ => rfl, fun _ _ _ _ _ _ h _ f =>
    f.ofTarget_of_outcome h⟩

/-- Three layers, the last of which sets nothing: a list that is set to be empty replaces another,
and a target sets one of its own. -/
theorem Config.merge_spec_layers :
    let user : Config :=
      { build := { lineWidth := some 80 }
        vars := .ofList [("x", "user"), ("y", "user")]
        defaults := { cflags := some ["-Wall"], defines := some ["NDEBUG"] } }
    let project : Config :=
      { vars := .ofList [("x", "project")], defaults := { cflags := some [] } }
    let spec : TargetSpec := ⟨"app", .exe, "app", ["a.c"], { libs := some ["-lm"] }⟩
    let merged := [user, project, .empty].foldl Config.merge .empty
    (Choice.lineWidth.get? merged = some 80 ∧ (Choice.var "x").get? merged = some "project" ∧
      (Choice.default .cflags).get? merged = some []) ∧
    ∃ target, (spec.target .empty ⟨"/proj"⟩ merged.defaults .empty).outcome = .ok target ∧
      target.cflags = [] ∧ target.defines = ["NDEBUG"] ∧ target.libs = ["-lm"] ∧
      target.ldflags = [] := by
  intro user project spec merged
  obtain ⟨hconfig, -, -, htarget⟩ := merge_spec
  have hwidth := (hconfig.get_foldl .lineWidth [user, project, .empty] 80).2
    ⟨[], user, [project, .empty], rfl, rfl, by simp [project, Choice.get?, empty]⟩
  have hvar := (hconfig.get_foldl (.var "x") [user, project, .empty] "project").2
    ⟨[user], project, [.empty], rfl, by decide, by simp⟩
  have hcflags := (hconfig.get_foldl (.default .cflags) [user, project, .empty] []).2
    ⟨[user], project, [.empty], rfl, rfl, by simp⟩
  let target := Target.ofSettings "app" .exe "app" ["a.c"]
    { cflags := some [], defines := some ["NDEBUG"], libs := some ["-lm"] }
  have hok : (spec.target .empty ⟨"/proj"⟩ merged.defaults .empty).outcome = .ok target := by
    decide +kernel
  have hset := fun {α} (f : TargetSettings.Setting α) => htarget _ _ _ _ _ _ hok f
  exact ⟨⟨hwidth, hvar, hcflags⟩, target, hok, hset .cflags, hset .defines, hset .libs,
    hset .ldflags⟩

end NinjaGen
