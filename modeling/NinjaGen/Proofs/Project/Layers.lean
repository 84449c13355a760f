import NinjaGen.Project
import NinjaGen.Proofs.FileTree.Following

/-!
# The layers of a project

Four layers choose the values of a project: the run, the configuration of the project, that of the
user, and what is usual. Every value comes from the highest layer that sets it, whatever the layers
say about other values.

* `highest` is the value of the highest layer that sets one (`highest_eq_some_iff`).
* `Layers` are the choices of a run and the two configurations, and its functions say value by value
  what they come to. They know nothing of how configurations are merged.
* `Config.Says` is what a configuration file chooses, if it is there at all, and `Config.IsBroken` a
  file that is there and cannot be used.
* `Project.load_spec`: a project that is loaded has these values, and there is one unless a file is
  broken, the build root is empty or the name of the toolchain means none.
-/

namespace NinjaGen

/-! ## The highest layer -/

section Highest

variable {α : Type} {layers : List (Option α)}

/-- The value of the highest layer that sets one; the layers are listed from above. -/
def highest (layers : List (Option α)) : Option α := layers.findSome? id

@[simp] theorem highest_nil : highest ([] : List (Option α)) = none := rfl

@[simp] theorem highest_cons (l : Option α) (layers : List (Option α)) :
    highest (l :: layers) = l.or (highest layers) := by
  cases l <;> rfl

/-- A value comes from a layer above which none sets a value. -/
theorem highest_eq_some_iff {v : α} :
    highest layers = some v ↔
      ∃ above below, layers = above ++ some v :: below ∧ ∀ l ∈ above, l = none := by
  simp [highest, List.findSome?_eq_some_iff]

end Highest

/-! ## Layers -/

/-- What a run, a project and its user choose. -/
structure Layers where
  run : Overrides
  project : Config
  user : Config

namespace Layers

variable (l : Layers)

/-- The build root, without `.`. -/
def buildRoot : Path :=
  ((highest [l.run.buildDir, l.project.build.buildDir, l.user.build.buildDir]).getD
    ⟨"build"⟩).withoutCurrent

/-- The options of the run. A release can be asked for by the run, and nothing else. -/
def options : GenerateOptions where
  buildRoot := l.buildRoot
  buildType :=
    if l.run.release then .release
    else (highest [l.project.build.buildType, l.user.build.buildType]).getD .debug
  unityBatchSize :=
    (highest [l.run.unityBatchSize, l.project.build.unityBatchSize,
      l.user.build.unityBatchSize]).getD 20
  lineWidth := (highest [l.project.build.lineWidth, l.user.build.lineWidth]).getD 144
  emitDefault := (highest [l.project.build.emitDefault, l.user.build.emitDefault]).getD true

/-- The generated file, from the project root. -/
def output : Path :=
  (highest [l.run.output, l.project.build.output, l.user.build.output]).getD ⟨"build.ninja"⟩

/-- The settings under those of every target. -/
def defaults : TargetSettings where
  cflags := highest [l.project.defaults.cflags, l.user.defaults.cflags]
  cxxflags := highest [l.project.defaults.cxxflags, l.user.defaults.cxxflags]
  ldflags := highest [l.project.defaults.ldflags, l.user.defaults.ldflags]
  includeDirs := highest [l.project.defaults.includeDirs, l.user.defaults.includeDirs]
  defines := highest [l.project.defaults.defines, l.user.defaults.defines]
  libs := highest [l.project.defaults.libs, l.user.defaults.libs]
  linkDeps := highest [l.project.defaults.linkDeps, l.user.defaults.linkDeps]
  unity := highest [l.project.defaults.unity, l.user.defaults.unity]

/-- The choices for the toolchain. -/
def toolchain : ToolchainSettings where
  profile := highest [l.project.toolchain.profile, l.user.toolchain.profile]
  cc := highest [l.project.toolchain.cc, l.user.toolchain.cc]
  cxx := highest [l.project.toolchain.cxx, l.user.toolchain.cxx]
  linker := highest [l.project.toolchain.linker, l.user.toolchain.linker]
  ar := highest [l.project.toolchain.ar, l.user.toolchain.ar]

/-- The family of compilers: that of the run, or else that of the configured name, or else GCC. A
name may mean none. -/
def platform? : Option Platform :=
  match l.run.profile, l.toolchain.profile with
  | some p, _ => some p
  | none, some name => Platform.ofName? name
  | none, none => some .gcc

/-- The value that every run gives to a name. -/
def builtin? (p : Platform) (name : String) : Option String :=
  if name = "build_dir" ∨ name = "BUILD_DIR" then some l.buildRoot.text
  else if name = "build_type" then some l.options.buildType.name
  else if name = "profile" then some p.name
  else none

/-- The value of a name: of several bindings of the run the last one counts. -/
def binding? (p : Platform) (name : String) : Option String :=
  highest [Bindings.lookup name l.run.vars.reverse, l.project.vars.get? name,
    l.user.vars.get? name, l.builtin? p name]

end Layers

/-- **A project with the values that its layers come to.** -/
structure Project.Settles (p : Project) (w : Workspace) (l : Layers) : Prop where
  root : p.root = w.root
  options : p.options = l.options
  output : p.output = w.root.join l.output
  defaults : p.config.defaults = l.defaults
  platform : l.platform? = some p.profile.platform
  /-- The executables are those of the toolchain, where something is chosen for them. -/
  profile : p.profile = l.toolchain.overPlatform p.profile.platform
  bindings : ∀ name, p.bindings.get? name = l.binding? p.profile.platform name
  /-- The build root leads somewhere. -/
  nonempty : p.options.buildRoot.components ≠ []
  /-- The build root has no `.`. -/
  plain : .current ∉ p.options.buildRoot.components

/-! ## Configuration files -/

namespace Config

variable {t : FileTree} {path : Path} {c d : Config}

/-- What a configuration file chooses. A file that is not there chooses nothing. -/
inductive Says (t : FileTree) : Option Path → Config → Prop
  | nowhere : Says t none .empty
  | missing {path : Path} (h : t.isThere path = false) : Says t (some path) .empty
  | present {path : Path} {text : String} {c : Config} (h : t.read path = .ok text)
    (hparse : parse text = .ok c) : Says t (some path) c

/-- Whether a configuration file is there and cannot be read, or does not say what it should. -/
def IsBroken (t : FileTree) (path : Option Path) : Prop :=
  ∃ p, path = some p ∧ t.isThere p = true ∧
    ((∃ e, t.read p = .error e) ∨ ∃ text e, t.read p = .ok text ∧ parse text = .error e)

/-- A configuration file says one thing. -/
theorem Says.unique {path : Option Path} (hc : Says t path c) (hd : Says t path d) : c = d := by
  cases hc with
  | nowhere =>
    cases hd
    rfl
  | missing hmissing =>
    cases hd with
    | missing => rfl
    | present hread =>
      rw [FileTree.isThere_of_read hread] at hmissing
      cases hmissing
  | present hread hparse =>
    cases hd with
    | missing hmissing =>
      rw [FileTree.isThere_of_read hread] at hmissing
      cases hmissing
    | present hread' hparse' =>
      cases hread.symm.trans hread'
      exact Except.ok.inj (hparse.symm.trans hparse')

theorem load_eq_ok_iff :
    load t path = .ok c ↔ ∃ text, t.read path = .ok text ∧ parse text = .ok c := by
  unfold load
  cases t.read path with
  | error e => simp
  | ok text => cases hparse : parse text <;> simp [hparse, Except.mapError]

theorem loadIfThere_eq_ok_iff : loadIfThere t path = .ok c ↔ Says t (some path) c := by
  unfold loadIfThere
  constructor
  · intro h
    split at h
    · obtain ⟨text, hread, hparse⟩ := load_eq_ok_iff.1 h
      exact .present hread hparse
    next hthere =>
      cases h
      exact .missing (by simpa using hthere)
  · rintro (_ | hmissing | ⟨hread, hparse⟩)
    · rw [hmissing]
      rfl
    · rw [if_pos (FileTree.isThere_of_read hread)]
      exact load_eq_ok_iff.2 ⟨_, hread, hparse⟩

/-- A configuration file says something unless it is broken. -/
theorem exists_says_iff {path : Option Path} : (∃ c, Says t path c) ↔ ¬ IsBroken t path := by
  constructor
  · rintro ⟨c, _ | hmissing | ⟨hread, hparse⟩⟩ ⟨p, hp, hthere, hbroken⟩
    · cases hp
    · cases hp
      rw [hmissing] at hthere
      cases hthere
    · cases hp
      rcases hbroken with ⟨e, he⟩ | ⟨text, e, htext, he⟩
      · cases hread.symm.trans he
      · cases hread.symm.trans htext
        cases hparse.symm.trans he
  · intro h
    cases path with
    | none => exact ⟨_, .nowhere⟩
    | some p =>
      cases hthere : t.isThere p with
      | false => exact ⟨_, .missing hthere⟩
      | true =>
        cases hread : t.read p with
        | error e => exact absurd ⟨p, rfl, hthere, .inl ⟨e, hread⟩⟩ h
        | ok text =>
          cases hparse : parse text with
          | error e => exact absurd ⟨p, rfl, hthere, .inr ⟨text, e, hread, hparse⟩⟩ h
          | ok c => exact ⟨c, .present hread hparse⟩

end Config

/-- The configuration of a run lays what the file of the project says over what that of the user
says. -/
theorem loadConfig_eq_ok_iff {t : FileTree} {user : Option Path} {project : Path} {c : Config} :
    loadConfig t user project = .ok c ↔
      ∃ below above, Config.Says t user below ∧ Config.Says t (some project) above ∧
        c = below.merge above := by
  cases user with
  | none =>
    simp only [loadConfig, bind_eq_ok_iff, Config.loadIfThere_eq_ok_iff, pure, Except.pure,
      Except.ok.injEq]
    constructor
    · rintro ⟨_, rfl, above, habove, rfl⟩
      exact ⟨.empty, above, .nowhere, habove, rfl⟩
    · rintro ⟨_, above, ⟨⟩, habove, rfl⟩
      exact ⟨_, rfl, above, habove, rfl⟩
  | some path =>
    simp only [loadConfig, bind_eq_ok_iff, Config.loadIfThere_eq_ok_iff, pure, Except.pure,
      Except.ok.injEq]
    constructor
    · rintro ⟨below, hbelow, above, habove, rfl⟩
      exact ⟨below, above, hbelow, habove, rfl⟩
    · rintro ⟨below, above, hbelow, habove, rfl⟩
      exact ⟨below, hbelow, above, habove, rfl⟩

/-! ## What the layers come to -/

namespace Layers

section Merged

variable (o : Overrides) (project user : Config)

theorem options_over :
    (o.over (user.merge project).build).options = (Layers.mk o project user).options := by
  have hroot : ∀ dir : Option Path, (dir.map Path.withoutCurrent).getD ⟨"build"⟩ =
      (dir.getD ⟨"build"⟩).withoutCurrent := by
    intro dir
    cases dir with
    | none => decide +kernel
    | some => rfl
  have htype : ∀ b : Option BuildType, (if o.release then some .release else b).getD .debug =
      if o.release then .release else b.getD .debug := by
    intro b
    split <;> rfl
  simp only [Config.merge, BuildConfig.merge, Overrides.over, BuildConfig.options, hroot, htype,
    options, buildRoot, highest_cons, highest_nil, Option.or_none]

theorem outputPath_over :
    (o.over (user.merge project).build).outputPath = (Layers.mk o project user).output := by
  simp only [Config.merge, BuildConfig.merge, Overrides.over, BuildConfig.outputPath, output,
    highest_cons, highest_nil, Option.or_none]

theorem defaults_merge :
    (user.merge project).defaults = (Layers.mk o project user).defaults := by
  simp only [Config.merge, TargetSettings.merge, defaults, highest_cons, highest_nil,
    Option.or_none]

theorem toolchain_merge :
    (user.merge project).toolchain = (Layers.mk o project user).toolchain := by
  simp only [Config.merge, ToolchainSettings.merge, toolchain, highest_cons, highest_nil,
    Option.or_none]

end Merged

variable (l : Layers)

theorem platform_eq_ok_iff {p : Platform} :
    l.toolchain.platform l.run.profile = .ok p ↔ l.platform? = some p := by
  unfold ToolchainSettings.platform platform?
  cases l.run.profile with
  | some q => simp
  | none =>
    cases l.toolchain.profile with
    | none => simp
    | some name => cases hname : Platform.ofName? name <;> simp [hname]

/-- The layers describe a toolchain if they say what family it is of. -/
theorem toProfile_eq_ok_iff {profile : ToolchainProfile} :
    l.toolchain.toProfile l.run.profile = .ok profile ↔
      l.platform? = some profile.platform ∧
        profile = l.toolchain.overPlatform profile.platform := by
  have hplatform : ∀ p, (l.toolchain.overPlatform p).platform = p := fun p => by cases p <;> rfl
  rw [ToolchainSettings.toProfile, map_eq_ok_iff]
  simp only [platform_eq_ok_iff]
  constructor
  · rintro ⟨p, hp, rfl⟩
    rw [hplatform]
    exact ⟨hp, rfl⟩
  · rintro ⟨hp, hprofile⟩
    exact ⟨_, hp, hprofile.symm⟩

theorem get?_builtinBindings (profile : ToolchainProfile) (name : String) :
    (builtinBindings l.options profile).get? name = l.builtin? profile.platform name := by
  rw [builtinBindings, Bindings.ofList, Bindings.get?_setAll, Bindings.get?_empty, Option.or_none]
  simp only [List.reverse_cons, List.reverse_nil, List.nil_append, List.cons_append, builtin?,
    Bindings.lookup]
  by_cases hdir : name = "build_dir" ∨ name = "BUILD_DIR"
  · rw [if_pos hdir]
    rcases hdir with rfl | rfl <;> rfl
  · rw [if_neg hdir]
    rw [not_or] at hdir
    rw [if_neg (Ne.symm hdir.1), if_neg (Ne.symm hdir.2)]
    by_cases htype : name = "build_type"
    · subst htype
      rfl
    · rw [if_neg htype, if_neg (Ne.symm htype)]
      simp only [eq_comm]

theorem get?_bindings (profile : ToolchainProfile) (name : String) :
    (((builtinBindings l.options profile).extend (l.user.merge l.project).vars).setAll
      l.run.vars).get? name = l.binding? profile.platform name := by
  have hvars : (l.user.merge l.project).vars = l.user.vars.extend l.project.vars := rfl
  rw [Bindings.get?_setAll, Bindings.get?_extend, hvars, Bindings.get?_extend,
    get?_builtinBindings]
  simp only [binding?, highest_cons, highest_nil, Option.or_none, Option.or_assoc]

/-- A build root without `.` leads nowhere exactly when its text is empty. -/
theorem text_buildRoot_iff : l.buildRoot.text = "" ↔ l.buildRoot.components = [] := by
  constructor
  · intro h
    have hroot : l.buildRoot = ⟨""⟩ := by rw [← h]
    rw [hroot]
    decide
  · intro h
    rw [buildRoot, Path.components_withoutCurrent] at h
    rw [buildRoot, Path.withoutCurrent, h]
    rfl

theorem current_not_mem_buildRoot : .current ∉ l.buildRoot.components := by
  rw [buildRoot, Path.components_withoutCurrent]
  intro h
  simpa using (List.mem_filter.1 h).2

/-- The project that the layers come to with a toolchain. -/
def toProject (w : Workspace) (profile : ToolchainProfile) : Project where
  root := w.root
  config :=
    { l.user.merge l.project with
      build := l.run.over (l.user.merge l.project).build }
  options := l.options
  profile := profile
  bindings :=
    ((builtinBindings l.options profile).extend (l.user.merge l.project).vars).setAll l.run.vars
  output := w.root.join l.output

theorem settles_toProject {w : Workspace} {profile : ToolchainProfile}
    (hroot : l.buildRoot.components ≠ []) (hplatform : l.platform? = some profile.platform)
    (hprofile : profile = l.toolchain.overPlatform profile.platform) :
    (l.toProject w profile).Settles w l where
  root := rfl
  options := rfl
  output := rfl
  defaults := defaults_merge l.run l.project l.user
  platform := hplatform
  profile := hprofile
  bindings := l.get?_bindings profile
  nonempty := hroot
  plain := l.current_not_mem_buildRoot

/-- Whether the layers have a build root that leads somewhere and the name of a toolchain. -/
def Complete : Prop := l.buildRoot.components ≠ [] ∧ l.platform? ≠ none

end Layers

/-! ## Projects -/

namespace Project

variable {t : FileTree} {w : Workspace} {o : Overrides} {p : Project}

/-- A project is what its layers come to, if they have a build root and a toolchain. -/
theorem load_eq_ok_iff :
    load t w o = .ok p ↔
      ∃ user project, Config.Says t w.userConfig user ∧
        Config.Says t (some w.projectConfig) project ∧
        (Layers.mk o project user).buildRoot.components ≠ [] ∧
        ∃ profile, (Layers.mk o project user).toolchain.toProfile o.profile = .ok profile ∧
          p = (Layers.mk o project user).toProject w profile := by
  have hlayers : ∀ l : Layers, (l.options.buildRoot.text = "" ↔ l.buildRoot.components = []) :=
    fun l => l.text_buildRoot_iff
  simp only [load, bind_eq_ok_iff, loadConfig_eq_ok_iff]
  constructor
  · rintro ⟨_, ⟨user, project, huser, hproject, rfl⟩, h⟩
    refine ⟨user, project, huser, hproject, ?_⟩
    rw [Layers.options_over, Layers.outputPath_over] at h
    split at h
    · cases h
    next hroot =>
      obtain ⟨profile, hprofile, h⟩ := bind_eq_ok_iff.1 h
      rw [Layers.toolchain_merge o] at hprofile
      exact ⟨mt (hlayers _).2 hroot, profile, hprofile, (Except.ok.inj h).symm⟩
  · rintro ⟨user, project, huser, hproject, hroot, profile, hprofile, rfl⟩
    refine ⟨_, ⟨user, project, huser, hproject, rfl⟩, ?_⟩
    rw [← Layers.toolchain_merge] at hprofile
    rw [Layers.options_over, Layers.outputPath_over, if_neg (mt (hlayers _).1 hroot),
      bind_eq_ok_iff]
    exact ⟨profile, hprofile, rfl⟩

/-- There is a project exactly when its layers can be read and have what it takes. -/
theorem exists_load_iff :
    (∃ p, load t w o = .ok p) ↔
      ∃ user project, Config.Says t w.userConfig user ∧
        Config.Says t (some w.projectConfig) project ∧ (Layers.mk o project user).Complete := by
  simp only [load_eq_ok_iff]
  constructor
  · rintro ⟨p, user, project, huser, hproject, hroot, profile, hprofile, -⟩
    obtain ⟨hplatform, -⟩ := (Layers.mk o project user).toProfile_eq_ok_iff.1 hprofile
    exact ⟨user, project, huser, hproject, hroot, hplatform ▸ Option.some_ne_none _⟩
  · rintro ⟨user, project, huser, hproject, hroot, hplatform⟩
    obtain ⟨q, hq⟩ := Option.ne_none_iff_exists'.1 hplatform
    have hprofile := (Layers.mk o project user).platform_eq_ok_iff.2 hq
    exact ⟨_, user, project, huser, hproject, hroot, _, map_eq_ok_iff.2 ⟨q, hprofile, rfl⟩, rfl⟩

/-- **Every value of a project comes from the highest layer that sets it.** Loading fails exactly
when a configuration file is there and cannot be used, when the build root leads nowhere, or when
the configured name of the toolchain counts and means none. -/
theorem load_spec (t : FileTree) (w : Workspace) (o : Overrides) :
    (∀ p, load t w o = .ok p →
      ∃ user project, Config.Says t w.userConfig user ∧
        Config.Says t (some w.projectConfig) project ∧ p.Settles w ⟨o, project, user⟩) ∧
    ((∃ e, load t w o = .error e) ↔
      Config.IsBroken t w.userConfig ∨ Config.IsBroken t (some w.projectConfig) ∨
        ∃ user project, Config.Says t w.userConfig user ∧
          Config.Says t (some w.projectConfig) project ∧
          ¬ (Layers.mk o project user).Complete) := by
  constructor
  · intro p h
    obtain ⟨user, project, huser, hproject, hroot, profile, hprofile, rfl⟩ := load_eq_ok_iff.1 h
    obtain ⟨hplatform, hprofile⟩ := (Layers.mk o project user).toProfile_eq_ok_iff.1 hprofile
    exact ⟨user, project, huser, hproject, Layers.settles_toProject _ hroot hplatform hprofile⟩
  · rw [exists_error_iff, exists_load_iff]
    constructor
    · intro h
      by_contra hnone
      rw [not_or, not_or] at hnone
      obtain ⟨huser, hproject, hcomplete⟩ := hnone
      obtain ⟨user, huser⟩ := Config.exists_says_iff.2 huser
      obtain ⟨project, hproject⟩ := Config.exists_says_iff.2 hproject
      exact hcomplete ⟨user, project, huser, hproject,
        fun hc => h ⟨user, project, huser, hproject, hc⟩⟩
    · rintro hbroken ⟨user, project, huser, hproject, hcomplete⟩
      rcases hbroken with h | h | ⟨user', project', huser', hproject', hincomplete⟩
      · exact Config.exists_says_iff.1 ⟨user, huser⟩ h
      · exact Config.exists_says_iff.1 ⟨project, hproject⟩ h
      · rw [huser'.unique huser, hproject'.unique hproject] at hincomplete
        exact hincomplete hcomplete

/-- A line width that the project sets above its user, a build root that only the user sets, and a
name that the run binds twice above the project; and a run with a build root that leads nowhere. -/
theorem load_spec_layered :
    let t := ((((FileTree.empty.put ["home"] .directory).put ["home", "config.toml"]
      (.file "[build]\nbuild_dir = \"./out/.\"\nline_width = 90\n")).put ["proj"] .directory).put
      ["proj", ".dockyard"] .directory).put ["proj", ".dockyard", "config.toml"]
      (.file "[build]\nline_width = 100\n\n[vars]\nmode = \"project\"\n")
    let w : Workspace := ⟨⟨"/proj"⟩, some ⟨"/home"⟩⟩
    let o : Overrides := { vars := [("mode", "first"), ("mode", "last")] }
    (∃ p user project, load t w o = .ok p ∧ Config.Says t w.userConfig user ∧
      Config.Says t (some w.projectConfig) project ∧ p.Settles w ⟨o, project, user⟩ ∧
      p.options.buildRoot = ⟨"out"⟩ ∧ p.options.lineWidth = 100 ∧
      p.bindings.get? "mode" = some "last") ∧
    ∃ e, load t w { o with buildDir := some ⟨"./."⟩ } = .error e := by
  intro t w o
  have hload : (match load t w o with
      | .ok p => decide (p.options.buildRoot = ⟨"out"⟩ ∧ p.options.lineWidth = 100 ∧
          p.bindings.get? "mode" = some "last")
      | .error _ => false) = true := by decide +kernel
  split at hload
  next p hp =>
    obtain ⟨user, project, huser, hproject, hsettles⟩ := (load_spec t w o).1 p hp
    refine ⟨⟨p, user, project, hp, huser, hproject, hsettles, of_decide_eq_true hload⟩, ?_⟩
    refine (load_spec t w { o with buildDir := some ⟨"./."⟩ }).2.2 (.inr (.inr ?_))
    have hroot : (Path.withoutCurrent ⟨"./."⟩).components = [] := by decide +kernel
    exact ⟨user, project, huser, hproject, fun hcomplete => hcomplete.1 hroot⟩
  next => cases hload

end Project

end NinjaGen
