import NinjaGen.Proofs.FileTree.Searching
import NinjaGen.Proofs.Project.Cleaning

/-!
# Discovering targets beside a build root

The search for descriptors passes by the build root, so the descriptors of a project do not depend
on what is in there. Patterns for sources are not told of the build root, and match the files in it
as any others.

* `IsAside` says when a build root is passed by, and `FileTree.filesNamed_remove` what that means.
* `Declares t root buildRoot spec` says that a descriptor of the project declares a target, and
  `TargetSpec.KeepsOut` that its patterns have no matches in the build root.
* `discoverTargets_spec` compares two trees that differ in the build root alone, and
  `discoverTargets_finds_unity` is a source that an earlier build has made.
-/

namespace NinjaGen

open Glob (extend)

variable {t u : FileTree} {root buildRoot : Path}

/-! ## Finding descriptors -/

/-- **Whether the search for descriptors passes by a build root**: the project is not in the build
root, and the build root is spelled as a directory of the project if it is one. -/
structure IsAside (root buildRoot : Path) : Prop where
  outside : ¬ root.Enters (root.join buildRoot).location
  below : root.location <+: (root.join buildRoot).location → IsInside root buildRoot

/-- **A search that passes by the build root comes to nothing below it.** -/
theorem IsAside.not_below_of_isReached (haside : IsAside root buildRoot) {names : List String}
    (hnames : ∀ n ∈ names, (Component.normal n).IsStep)
    (hreached : FileTree.isReached root [root.join buildRoot] names = true)
    (hne : root.location ++ names ≠ (root.join buildRoot).location) :
    ¬ (root.join buildRoot).location <+: root.location ++ names := by
  intro hprefix
  rcases List.prefix_or_prefix_of_prefix hprefix (List.prefix_append root.location names) with
    habove | hbelow
  · exact haside.outside (Path.enters_of_location habove)
  obtain ⟨front, hfront, hcomponents⟩ := (haside.below hbelow).below
  have hlocation : (root.join buildRoot).location = root.location ++ front := by
    rw [Path.location, hcomponents, List.foldl_append, Path.foldl_lead_names]
    rfl
  rw [hlocation, List.prefix_append_right_inj] at hprefix
  obtain ⟨rest, rfl⟩ := hprefix
  have hrest : rest ≠ [] := by
    rintro rfl
    rw [List.append_nil] at hne
    exact hne hlocation.symm
  obtain ⟨above, last, rfl⟩ := (List.eq_nil_or_concat' front).resolve_left hfront
  have hskipped := (FileTree.isReached_iff.1 hreached above last rest hrest
    (List.append_cons above last rest).symm).2 _ (List.mem_singleton_self _)
  have hsame : (extend root (above ++ [last])).same (root.join buildRoot) = true := by
    rw [Path.same_iff, hcomponents]
    exact Glob.components_extend fun n hn => hnames n (List.mem_append_left rest hn)
  rw [hsame] at hskipped
  cases hskipped

/-- What a search comes to is not in the build root, where no file has its place. -/
theorem IsAside.not_enters_extend (haside : IsAside root buildRoot) (hroot : root.isAbsolute = true)
    (ht : t.IsProper) (hplace : ∀ text, t.at? (root.join buildRoot).location ≠ some (.file text))
    {names : List String} {e : Entry} (hmem : (names, e) ∈ t.descendants root.location)
    (he : e ≠ .directory)
    (hreached : FileTree.isReached root [root.join buildRoot] names = true) :
    ¬ (root.join buildRoot).location <+: root.location ++ names ∧
      ¬ (extend root names).Enters (root.join buildRoot).location := by
  have hnames : ∀ n ∈ names, (Component.normal n).IsStep := fun n hn => ht.isStep hmem hn
  have hbelow := haside.not_below_of_isReached hnames hreached fun heq => by
    obtain ⟨-, hat⟩ := FileTree.mem_descendants.1 hmem
    cases e with
    | file text => exact hplace text (heq ▸ hat)
    | directory => exact he rfl
  exact ⟨hbelow, (Glob.enters_extend hroot hnames haside.outside).not.2 hbelow⟩

/-- **The search for files finds the same without the build root.** -/
theorem FileTree.filesNamed_remove (haside : IsAside root buildRoot)
    (hroot : root.isAbsolute = true) (ht : t.IsProper)
    (hplace : ∀ text, t.at? (root.join buildRoot).location ≠ some (.file text)) (name : String) :
    (t.remove (root.join buildRoot).location).filesNamed root name [root.join buildRoot] =
      t.filesNamed root name [root.join buildRoot] := by
  unfold filesNamed
  rw [locate_remove haside.outside, status_remove haside.outside]
  cases hlocate : t.locate root with
  | error e => rfl
  | ok l =>
    obtain ⟨-, rfl⟩ := locate_eq_ok_iff.1 hlocate
    cases t.status root with
    | error e => rfl
    | ok e =>
      cases e with
      | file text => rfl
      | directory =>
        dsimp only
        rw [descendants_remove, List.filter_filter]
        congr 3
        refine List.filter_congr fun e he => ?_
        rw [Bool.eq_iff_iff, Bool.and_eq_true, and_iff_left_iff_imp]
        intro hfound
        simp only [Bool.and_eq_true, decide_eq_true_eq] at hfound
        obtain ⟨⟨hentry, -⟩, hreached⟩ := hfound
        have hbelow := (haside.not_enters_extend hroot ht hplace he hentry hreached).1
        rw [Bool.not_eq_true', Bool.eq_false_iff]
        exact mt List.isPrefixOf_iff_prefix.1 hbelow

/-- The files that a search finds are not in the build root. -/
theorem IsAside.not_enters_of_mem (haside : IsAside root buildRoot) (hroot : root.isAbsolute = true)
    (ht : t.IsProper) (hplace : ∀ text, t.at? (root.join buildRoot).location ≠ some (.file text))
    {name : String} {found : List Path}
    (h : t.filesNamed root name [root.join buildRoot] = .ok found) {file : Path}
    (hfile : file ∈ found) : ¬ file.Enters (root.join buildRoot).location := by
  unfold FileTree.filesNamed at h
  split at h
  · cases h
  · cases h
  · cases h
    split at hfile
    · obtain rfl := List.mem_singleton.1 hfile
      exact haside.outside
    · cases hfile
  next l hlocate _ =>
    obtain ⟨-, rfl⟩ := FileTree.locate_eq_ok_iff.1 hlocate
    cases h
    obtain ⟨⟨names, e⟩, he, rfl⟩ := List.mem_map.1 (Path.mem_sort.1 hfile)
    obtain ⟨hmem, hfound⟩ := List.mem_filter.1 he
    simp only [Bool.and_eq_true, decide_eq_true_eq] at hfound
    exact (haside.not_enters_extend hroot ht hplace hmem hfound.1.1 hfound.2).2

/-! ## Reading targets -/

section Reading

variable {l : Location} {defaults : TargetSettings} {b : Bindings} {spec : TargetSpec}

/-- What comes after an outcome counts only where the outcome is a success. -/
theorem Logged.ofExcept_bind_congr {α β : Type} {x : Except Failure α} {f g : α → Logged β}
    (h : ∀ a, x = .ok a → f a = g a) : (ofExcept x >>= f) = ofExcept x >>= g := by
  cases x with
  | error => rfl
  | ok a =>
    show andThen (ok a) f = andThen (ok a) g
    simp only [andThen, ok, h a rfl]

/-- **Whether no pattern among the sources of a declaration matches a file in a directory**, once
its placeholders have been replaced. -/
def TargetSpec.KeepsOut (spec : TargetSpec) (t : FileTree) (root : Path) (b : Bindings)
    (l : Location) : Prop :=
  ∀ source ∈ spec.sources, ∀ entry, resolvedSource b source = .ok entry →
    Glob.isPattern entry = true → Glob.Avoids t l (root.join ⟨entry⟩)

/-- The target of a declaration is the same without a directory that its patterns keep out. -/
theorem TargetSpec.target_remove (ht : t.IsProper) (hl : l ≠ []) (h : spec.KeepsOut t root b l) :
    spec.target (t.remove l) root defaults b = spec.target t root defaults b := by
  refine Logged.ofExcept_bind_congr fun entries hentries => ?_
  have hfiles : Glob.files (t.remove l) root entries = Glob.files t root entries := by
    refine Glob.filesFrom_remove ht hl (fun entry hentry hpattern => ?_) []
    obtain ⟨source, hsource, hresolved⟩ :=
      exists_of_mem_of_map_ok (mapM_eq_ok_iff.1 (mapError_eq_ok_iff.1 hentries)) hentry
    exact h source hsource entry hresolved hpattern
  rw [hfiles]

theorem Descriptor.targets_remove (ht : t.IsProper) (hl : l ≠ []) {specs : List TargetSpec}
    (h : ∀ spec ∈ specs, spec.KeepsOut t root b l) :
    targets (t.remove l) root defaults b specs = targets t root defaults b specs := by
  induction specs with
  | nil => rfl
  | cons spec r ih =>
    obtain ⟨hspec, hr⟩ := List.forall_mem_cons.1 h
    rw [targets, targets, TargetSpec.target_remove ht hl hspec, ih hr]

/-- The targets of a descriptor that is not in a directory are the same without that. -/
theorem Descriptor.load_remove (ht : t.IsProper) {file : Path} (hfile : ¬ file.Enters l)
    (h : ∀ text specs, t.read file = .ok text → parse text = .ok specs →
      ∀ spec ∈ specs, spec.KeepsOut t root b l) :
    load (t.remove l) root defaults b file = load t root defaults b file := by
  unfold load
  rw [FileTree.read_remove hfile]
  refine Logged.ofExcept_bind_congr fun text hread => ?_
  refine Logged.ofExcept_bind_congr fun specs hparse => ?_
  exact targets_remove ht (Path.ne_nil_of_not_enters hfile)
    (h text specs (mapError_eq_ok_iff.1 hread) (mapError_eq_ok_iff.1 hparse))

theorem discoverFrom_congr {files : List Path}
    (h : ∀ file ∈ files, Descriptor.load t root defaults b file =
      Descriptor.load u root defaults b file) (declared : List (String × Path)) :
    discoverFrom t root defaults b declared files =
      discoverFrom u root defaults b declared files := by
  induction files generalizing declared with
  | nil => rfl
  | cons file r ih =>
    obtain ⟨hfile, hr⟩ := List.forall_mem_cons.1 h
    simp only [discoverFrom, hfile, ih hr]

/-- Whether a descriptor of a project declares a target. -/
def Declares (t : FileTree) (root buildRoot : Path) (spec : TargetSpec) : Prop :=
  ∃ found file text specs,
    t.filesNamed root Descriptor.fileName [root.join buildRoot] = .ok found ∧ file ∈ found ∧
      t.read file = .ok text ∧ Descriptor.parse text = .ok specs ∧ spec ∈ specs

/-- The build root declares nothing. -/
theorem declares_remove_iff (haside : IsAside root buildRoot) (hroot : root.isAbsolute = true)
    (ht : t.IsProper)
    (hplace : ∀ text, t.at? (root.join buildRoot).location ≠ some (.file text)) :
    Declares (t.remove (root.join buildRoot).location) root buildRoot spec ↔
      Declares t root buildRoot spec := by
  unfold Declares
  rw [FileTree.filesNamed_remove haside hroot ht hplace]
  refine exists_congr fun found => exists_congr fun file => exists_congr fun text =>
    exists_congr fun specs => and_congr_right fun hfound => and_congr_right fun hfile => ?_
  rw [FileTree.read_remove (haside.not_enters_of_mem hroot ht hplace hfound hfile)]

/-- **Targets are discovered as they are without the build root** when no pattern of theirs matches
a file in it. -/
theorem discoverTargets_remove (haside : IsAside root buildRoot) (hroot : root.isAbsolute = true)
    (ht : t.IsProper) (hplace : ∀ text, t.at? (root.join buildRoot).location ≠ some (.file text))
    (h : ∀ spec, Declares t root buildRoot spec →
      spec.KeepsOut t root b (root.join buildRoot).location) :
    discoverTargets (t.remove (root.join buildRoot).location) root buildRoot defaults b =
      discoverTargets t root buildRoot defaults b := by
  unfold discoverTargets
  rw [FileTree.filesNamed_remove haside hroot ht hplace]
  refine Logged.ofExcept_bind_congr fun found hfound => ?_
  split
  · rfl
  · refine discoverFrom_congr (fun file hfile => ?_) []
    refine Descriptor.load_remove ht (haside.not_enters_of_mem hroot ht hplace hfound hfile) ?_
    exact fun text specs hread hparse spec hspec =>
      h spec ⟨found, file, text, specs, hfound, hfile, hread, hparse, hspec⟩

/-- **What the build root holds changes nothing but what patterns match in it.** Two trees that
differ in the build root alone have the same descriptors with the same declarations, and every
pattern has the same matches elsewhere, or is wrong in the same way. So the targets are the same,
with the same sources, or the same is wrong with them, as long as no pattern for sources matches a
file in the build root. -/
theorem discoverTargets_spec (haside : IsAside root buildRoot) (hroot : root.isAbsolute = true)
    (ht : t.IsProper) (hu : u.IsProper)
    (h : t.DiffersBelow u (root.join buildRoot).location) (defaults : TargetSettings)
    (b : Bindings) :
    (∀ name, t.filesNamed root name [root.join buildRoot] =
      u.filesNamed root name [root.join buildRoot]) ∧
    (∀ spec, Declares t root buildRoot spec ↔ Declares u root buildRoot spec) ∧
    (∀ pattern,
      (Glob.matchedFiles t pattern).map
          (·.filter fun p => ¬ p.Enters (root.join buildRoot).location) =
        (Glob.matchedFiles u pattern).map
          (·.filter fun p => ¬ p.Enters (root.join buildRoot).location)) ∧
    ((∀ spec, Declares t root buildRoot spec →
        spec.KeepsOut t root b (root.join buildRoot).location ∧
          spec.KeepsOut u root b (root.join buildRoot).location) →
      discoverTargets t root buildRoot defaults b =
        discoverTargets u root buildRoot defaults b) := by
  have hdeclares : ∀ spec, Declares t root buildRoot spec ↔ Declares u root buildRoot spec :=
    fun spec => by
      rw [← declares_remove_iff haside hroot ht h.left, h.same,
        declares_remove_iff haside hroot hu h.right]
  have hl := Path.ne_nil_of_not_enters haside.outside
  refine ⟨fun name => ?_, hdeclares, fun pattern => ?_, fun hkeeps => ?_⟩
  · rw [← FileTree.filesNamed_remove haside hroot ht h.left, h.same,
      FileTree.filesNamed_remove haside hroot hu h.right]
  · rw [← Glob.matchedFiles_remove ht hl, h.same, Glob.matchedFiles_remove hu hl]
  · rw [← discoverTargets_remove haside hroot ht h.left fun spec hspec => (hkeeps spec hspec).1,
      h.same, discoverTargets_remove haside hroot hu h.right fun spec hspec =>
        (hkeeps spec ((hdeclares spec).2 hspec)).2]

/-- Sources of a directory beside the build root, before and after an earlier build. -/
theorem discoverTargets_spec_beside :
    let text := "[[target]]\nname = \"app\"\noutput = \"app\"\nsources = [\"src/*.c\"]\n"
    let t := (((FileTree.empty.put ["proj"] .directory).put ["proj", "src"] .directory).put
      ["proj", "src", "main.c"] (.file "")).put ["proj", "BUILD.toml"] (.file text)
    let u := ((t.put ["proj", "build"] .directory).put ["proj", "build", "src"] .directory).put
      ["proj", "build", "src", "main.c"] (.file "")
    let root : Path := ⟨"/proj"⟩
    let buildRoot : Path := ⟨"build"⟩
    IsAside root buildRoot ∧ root.isAbsolute = true ∧ t.IsProper ∧ u.IsProper ∧
      t.DiffersBelow u (root.join buildRoot).location ∧
      (∃ spec, Declares t root buildRoot spec ∧ spec.sources = ["src/*.c"]) ∧
      discoverTargets t root buildRoot {} .empty = discoverTargets u root buildRoot {} .empty := by
  intro text t u root buildRoot
  have hroot : root.isAbsolute = true := by decide
  have hinside : IsInside root buildRoot := (isRemovable_iff hroot).1 (by decide +kernel)
  have haside : IsAside root buildRoot := ⟨by decide +kernel, fun _ => hinside⟩
  have ht : t.IsProper := by
    unfold FileTree.IsProper Component.IsStep
    decide +kernel
  have hu : u.IsProper := by
    unfold FileTree.IsProper Component.IsStep
    decide +kernel
  have hplace : t.at? (root.join buildRoot).location = none := by decide +kernel
  have hdiffers : t.DiffersBelow u (root.join buildRoot).location :=
    (((FileTree.DiffersBelow.refl fun text h => by simp [hplace] at h).put (by decide)
      fun _ => rfl).put (by decide) fun _ => rfl).put (by decide) (by decide)
  have hfound : t.filesNamed root Descriptor.fileName [root.join buildRoot] =
      .ok [⟨"/proj/BUILD.toml"⟩] := by decide +kernel
  have hread : t.read ⟨"/proj/BUILD.toml"⟩ = .ok text := by decide +kernel
  have hparse : Descriptor.parse text = .ok [⟨"app", .exe, "app", ["src/*.c"], {}⟩] := by
    decide +kernel
  have havoids : ∀ v : FileTree, v.IsProper →
      TargetSpec.KeepsOut ⟨"app", .exe, "app", ["src/*.c"], {}⟩ v root .empty
        (root.join buildRoot).location := by
    intro v hv source hsource entry hresolved _
    obtain rfl := List.mem_singleton.1 hsource
    have hentry : TargetSpec.resolvedSource .empty "src/*.c" = .ok "src/*.c" := by decide +kernel
    rw [hentry] at hresolved
    cases hresolved
    have hparse : (Glob.piecesBelowRoot (root.join ⟨"src/*.c"⟩)).mapM Glob.Segment.parse =
        .ok (["proj".toList, "src".toList].map .name ++
          [.pattern [.anyText, .exactly '.', .exactly 'c']]) := by decide +kernel
    exact Glob.avoids_of_names hv hparse (List.forall_mem_singleton.2 nofun) (by decide +kernel)
      (by decide +kernel)
  obtain ⟨-, -, -, hsame⟩ := discoverTargets_spec haside hroot ht hu hdiffers {} .empty
  refine ⟨haside, hroot, ht, hu, hdiffers,
    ⟨_, ⟨_, _, _, _, hfound, List.mem_cons_self, hread, hparse, List.mem_cons_self⟩, rfl⟩,
    hsame ?_⟩
  rintro spec ⟨found, file, text', specs, hfound', hfile, hread', hparse', hspec⟩
  rw [hfound] at hfound'
  cases hfound'
  obtain rfl := List.mem_singleton.1 hfile
  rw [hread] at hread'
  cases hread'
  rw [hparse] at hparse'
  cases hparse'
  obtain rfl := List.mem_singleton.1 hspec
  exact ⟨havoids t ht, havoids u hu⟩

/-- An earlier build has written the source of a unity batch, and a pattern finds it beside the
source of the project. -/
theorem discoverTargets_finds_unity :
    let t := ((FileTree.empty.put ["proj"] .directory).put ["proj", "main.c"] (.file "")).put
      ["proj", "BUILD.toml"] (.file ("[[target]]\nname = \"app\"\noutput = \"app\"\n" ++
        "sources = [\"main.c\", \"*/**/*.c\"]\nunity = true\n"))
    let u := ((t.put ["proj", "build"] .directory).put ["proj", "build", "app.unity"]
      .directory).put ["proj", "build", "app.unity", "unity_c_0.c"] (.file "")
    let root : Path := ⟨"/proj"⟩
    let buildRoot : Path := ⟨"build"⟩
    let sources := fun v : FileTree =>
      (discoverTargets v root buildRoot {} .empty).outcome.toOption.map (·.map (·.sources))
    t.remove (root.join buildRoot).location = u.remove (root.join buildRoot).location ∧
      sources t = some [["main.c"]] ∧
      sources u = some [["main.c", "build/app.unity/unity_c_0.c"]] := by
  decide +kernel

end Reading

end NinjaGen
