import NinjaGen.Descriptor
import NinjaGen.Proofs.Glob.Listing
import NinjaGen.Proofs.Path.Placeholders
import NinjaGen.Proofs.Plan.Parts

/-!
# Files that patterns match, in a plan

The patterns among the sources of a declaration are replaced by the files that they match, and these
become sources of the target as plain paths do: each is read as a template when the target is
expanded. So a file whose name has a placeholder is taken for another one, or for none.

* `TargetSpec.Matches` says that a file is matched by a pattern of a declaration, and
  `PlannedTarget.Builds` that a plan builds a file as a source (`builds_iff`).
* `matches_spec` is what becomes of matched files, and `expandTarget_misses_match` is a file that is
  missed.
-/

namespace NinjaGen

/-! ## Sources of a declaration -/

namespace TargetSpec

variable {t : FileTree} {root m : Path} {defaults : TargetSettings} {b : Bindings}
  {spec : TargetSpec} {target : Target} {source entry : String}

/-- **Whether a pattern among the sources of a declaration matches a file**, as it is seen from the
project root. -/
def Matches (spec : TargetSpec) (t : FileTree) (root : Path) (b : Bindings) (m : Path) : Prop :=
  ∃ source ∈ spec.sources, Glob.isPattern source = true ∧
    ∃ pattern, Template.expand b source = .ok pattern ∧ Glob.IsMatch t root pattern m

/-- What a source stands for: itself, or its matches. -/
theorem standsFor_of_resolvedSource (h : resolvedSource b source = .ok entry) {p : Path} :
    Glob.StandsFor t root entry p ↔ (Glob.isPattern source = false ∧ p = ⟨source⟩) ∨
      (Glob.isPattern source = true ∧
        ∃ pattern, Template.expand b source = .ok pattern ∧ Glob.IsMatch t root pattern p) := by
  unfold resolvedSource at h
  rw [Glob.standsFor_iff]
  cases hpattern : Glob.isPattern source with
  | false =>
    rw [hpattern] at h
    cases h
    simp [hpattern]
  | true =>
    rw [hpattern, if_pos rfl] at h
    simp [h, Template.isPattern_of_expand h hpattern]

/-- **The sources of a target are the plain paths of its declaration and the matches of its
patterns**, each in one spelling. -/
theorem sources_of_target_spec (h : (spec.target t root defaults b).outcome = .ok target) :
    (∀ source ∈ spec.sources, Glob.isPattern source = false →
      ∃ template ∈ target.sources, Path.same ⟨template⟩ ⟨source⟩ = true) ∧
    (∀ m, spec.Matches t root b m →
      ∃ template ∈ target.sources, Path.same ⟨template⟩ m = true) ∧
    ∀ template ∈ target.sources, (template ∈ spec.sources ∧ Glob.isPattern template = false) ∨
      spec.Matches t root b ⟨template⟩ := by
  obtain ⟨entries, files, hentries, hfiles, htarget⟩ := outcome_target_eq_ok_iff.1 h
  have hsources : target.sources = files.map (·.text) := htarget ▸ rfl
  have htemplate : ∀ source ∈ spec.sources, ∀ p,
      (∀ entry, resolvedSource b source = .ok entry → Glob.StandsFor t root entry p) →
        ∃ template ∈ target.sources, Path.same ⟨template⟩ p = true := by
    intro source hsource p hstands
    obtain ⟨entry, hentry, hresolved⟩ := exists_ok_of_mem_of_map_ok hentries hsource
    obtain ⟨q, hq, hsame⟩ :=
      Glob.exists_mem_of_files hfiles hentry (hstands entry hresolved)
    exact ⟨q.text, hsources ▸ List.mem_map_of_mem hq, hsame⟩
  refine ⟨fun source hsource hplain => ?_, fun m hm => ?_, fun template htemplate => ?_⟩
  · exact htemplate source hsource _ fun entry hresolved =>
      (standsFor_of_resolvedSource hresolved).2 (.inl ⟨hplain, rfl⟩)
  · obtain ⟨source, hsource, hpattern, hmatches⟩ := hm
    exact htemplate source hsource m fun entry hresolved =>
      (standsFor_of_resolvedSource hresolved).2 (.inr ⟨hpattern, hmatches⟩)
  · rw [hsources] at htemplate
    obtain ⟨p, hp, rfl⟩ := List.mem_map.1 htemplate
    obtain ⟨entry, hentry, hstands⟩ := Glob.standsFor_of_mem_files hfiles hp
    obtain ⟨source, hsource, hresolved⟩ := exists_of_mem_of_map_ok hentries hentry
    rcases (standsFor_of_resolvedSource hresolved).1 hstands with ⟨hplain, rfl⟩ | ⟨hpattern, hm⟩
    · exact .inl ⟨hsource, hplain⟩
    · exact .inr ⟨source, hsource, hpattern, hm⟩

end TargetSpec

/-! ## Sources in a plan -/

/-- **Whether a plan builds a file as a source**: the file is compiled, and is not a unity source
itself, or a unity source includes it. -/
def PlannedTarget.Builds (planned : PlannedTarget) (p : Path) : Prop :=
  (∃ s, .compile s ∈ planned.steps ∧ s.source = p ∧
      ∀ u, .unity u ∈ planned.steps → u.output ≠ p) ∨
    ∃ u, .unity u ∈ planned.steps ∧ p ∈ u.members

namespace Expansion

variable {ctx : BuildContext} {target : Target} {parts : Parts}

namespace Parts

/-- What is built are the sources that have been read. -/
theorem builds_arrange_iff (h : parts.final.isFinal = true) {p : Path} :
    (parts.arrange ctx target).Builds p ↔ ∃ s ∈ parts.sources, s.path = p := by
  unfold PlannedTarget.Builds
  simp only [compile_mem_steps_iff h, unity_mem_steps_iff h]
  cases hunity : target.unity with
  | false =>
    rw [parts.unity_of_apart hunity, parts.compiles_of_apart hunity]
    simp [compileStep]
  | true =>
    constructor
    · rintro (⟨s, hs, rfl, hnone⟩ | ⟨u, hu, hp⟩)
      · -- Only unity sources are compiled.
        rw [parts.compiles_of_collected hunity] at hs
        obtain ⟨u, hu, rfl⟩ := List.mem_map.1 hs
        exact absurd rfl (hnone u hu)
      · rw [parts.unity_of_collected hunity] at hu
        obtain ⟨b, hb, rfl⟩ := List.mem_map.1 hu
        obtain ⟨s, hs, rfl, -⟩ := exists_source_of_mem_members hb hp
        exact ⟨s, hs, rfl⟩
    · rintro ⟨s, hs, rfl⟩
      obtain ⟨b, hb, hmem⟩ := exists_mem_batches hs ctx.options.unityBatchSize
      rw [parts.unity_of_collected hunity]
      exact .inr ⟨_, List.mem_map_of_mem hb, hmem⟩

end Parts

/-- **A plan builds what the sources of its target stand for** as templates. -/
theorem builds_iff {planned : PlannedTarget} (h : expandTarget ctx target = .ok planned)
    {p : Path} :
    planned.Builds p ↔
      ∃ template ∈ target.sources, Template.expand ctx.bindings template = .ok p.text := by
  obtain ⟨parts, hparts, rfl⟩ := expandTarget_eq_ok_iff.1 h
  obtain ⟨-, hsources, -, hfinal⟩ := parts_eq_ok_iff.1 hparts
  obtain ⟨-, hmap, -⟩ := sources_eq_ok_iff.1 hsources
  rw [Parts.builds_arrange_iff (output_of_finalStep hfinal).2]
  constructor
  · rintro ⟨s, hs, rfl⟩
    obtain ⟨template, htemplate, hsource⟩ := exists_of_mem_of_map_ok hmap hs
    exact ⟨template, htemplate, (source_eq_ok_iff.1 hsource).1⟩
  · rintro ⟨template, htemplate, hp⟩
    obtain ⟨s, hs, hsource⟩ := exists_ok_of_mem_of_map_ok hmap htemplate
    refine ⟨s, hs, ?_⟩
    have htext := Except.ok.inj ((source_eq_ok_iff.1 hsource).1.symm.trans hp)
    exact congrArg Path.mk htext

/-- A source lacks the value of a placeholder only if that stands in it. -/
theorem token_of_source_eq_error {name template missing : String}
    (h : source ctx template = .error (.unresolvedVariable name missing)) :
    missing = template ∧ (Path.mk template).HasToken name.toList := by
  rcases bind_eq_error_iff.1 h with hexpand | ⟨path, -, hlang⟩
  · obtain ⟨token, htoken, -, heq⟩ := Template.token_of_expand_eq_error hexpand
    cases heq
    refine ⟨rfl, ?_⟩
    rwa [Path.HasToken, String.toList_ofList]
  · -- A language or a compiler that is missed has nothing to do with placeholders.
    split at hlang
    · cases hlang
    · rcases bind_eq_error_iff.1 hlang with hcompiler | ⟨_, -, hdone⟩
      · unfold ToolchainProfile.compiler at hcompiler
        split at hcompiler
        · split at hcompiler
          all_goals cases hcompiler
        · cases hcompiler
      · cases hdone

theorem exists_source_of_sourcesFrom_eq_error {name missing target : String}
    {templates : List String} {seen : List (List Component)}
    (h : sourcesFrom ctx target seen templates = .error (.unresolvedVariable name missing)) :
    ∃ template ∈ templates, source ctx template = .error (.unresolvedVariable name missing) := by
  induction templates generalizing seen with
  | nil => cases h
  | cons template r ih =>
    rcases bind_eq_error_iff.1 h with hfirst | ⟨s, -, hrest⟩
    · exact ⟨template, List.mem_cons_self, hfirst⟩
    · dsimp only at hrest
      split at hrest
      · cases hrest
      · rcases bind_eq_error_iff.1 hrest with hrest | ⟨_, -, hdone⟩
        · obtain ⟨later, hmem, hlater⟩ := ih hrest
          exact ⟨later, List.mem_cons_of_mem _ hmem, hlater⟩
        · cases hdone

/-- A placeholder that lacks a value when the sources of a target are read stands in one of them. -/
theorem token_of_sources_eq_error {name template : String}
    (h : sources ctx target = .error (.unresolvedVariable name template)) :
    template ∈ target.sources ∧ (Path.mk template).HasToken name.toList := by
  unfold sources at h
  split at h
  · cases h
  · obtain ⟨template, hmem, hsource⟩ := exists_source_of_sourcesFrom_eq_error h
    obtain ⟨rfl, htoken⟩ := token_of_source_eq_error hsource
    exact ⟨hmem, htoken⟩

end Expansion

/-! ## What becomes of matched files -/

namespace TargetSpec

variable {t : FileTree} {root : Path} {defaults : TargetSettings} {spec : TargetSpec}
  {ctx : BuildContext} {target : Target}

/-- **A matched file is built when its path has no placeholder; one with a placeholder is read as a
template.** The sources of a target are the plain paths and the matches; a plan builds exactly the
files for which these stand as templates. So no match without a placeholder is missed, a match with
a placeholder that has no value leaves the target without a plan, and only that or a plain path can
be the reason for an unresolved variable among the sources. -/
theorem matches_spec (h : (spec.target t root defaults ctx.bindings).outcome = .ok target) :
    (∀ m, spec.Matches t root ctx.bindings m →
      ∃ template ∈ target.sources, Path.same ⟨template⟩ m = true) ∧
    (∀ template ∈ target.sources,
      (template ∈ spec.sources ∧ Glob.isPattern template = false) ∨
        spec.Matches t root ctx.bindings ⟨template⟩) ∧
    (∀ planned, expandTarget ctx target = .ok planned →
      (∀ p, planned.Builds p ↔
        ∃ template ∈ target.sources, Template.expand ctx.bindings template = .ok p.text) ∧
      ∀ m, spec.Matches t root ctx.bindings m → (∀ name, ¬ m.HasToken name) →
        ∃ p, planned.Builds p ∧ p.same m = true) ∧
    (∀ m name, spec.Matches t root ctx.bindings m → m.HasToken name →
      ctx.bindings.get? (String.ofList name) = none → ∃ e, expandTarget ctx target = .error e) ∧
    ∀ name template,
      Expansion.sources ctx target = .error (.unresolvedVariable name template) →
        (template ∈ spec.sources ∧ Glob.isPattern template = false) ∨
          (spec.Matches t root ctx.bindings ⟨template⟩ ∧
            (Path.mk template).HasToken name.toList) := by
  obtain ⟨-, hmatches, honly⟩ := sources_of_target_spec h
  refine ⟨hmatches, honly, fun planned hplanned => ⟨fun p => Expansion.builds_iff hplanned,
    fun m hm hplain => ?_⟩, fun m name hm htoken hnone => ?_, fun name template herror => ?_⟩
  · obtain ⟨template, htemplate, hsame⟩ := hmatches m hm
    have hexpand : Template.expand ctx.bindings template = .ok template :=
      Template.expand_of_plain fun name htoken =>
        hplain name ((Path.hasToken_congr hsame name).1 htoken)
    exact ⟨⟨template⟩, (Expansion.builds_iff hplanned).2 ⟨template, htemplate, hexpand⟩, hsame⟩
  · rw [exists_error_iff]
    rintro ⟨planned, hplanned⟩
    obtain ⟨template, htemplate, hsame⟩ := hmatches m hm
    obtain ⟨parts, hparts, -⟩ := expandTarget_eq_ok_iff.1 hplanned
    obtain ⟨-, hmap, -⟩ := Expansion.sources_eq_ok_iff.1 (Expansion.parts_eq_ok_iff.1 hparts).2.1
    obtain ⟨s, -, hsource⟩ := exists_ok_of_mem_of_map_ok hmap htemplate
    obtain ⟨v, hv⟩ := Template.exists_value_of_expand (Expansion.source_eq_ok_iff.1 hsource).1
      ((Path.hasToken_congr hsame name).2 htoken)
    rw [hnone] at hv
    cases hv
  · obtain ⟨hmem, htoken⟩ := Expansion.token_of_sources_eq_error herror
    exact (honly template hmem).imp id fun hm => ⟨hm, htoken⟩

/-- A file in a directory that a placeholder names. -/
theorem matches_spec_main :
    let t := ((FileTree.empty.put ["proj"] .directory).put ["proj", "src"] .directory).put
      ["proj", "src", "main.c"] (.file "")
    let spec : TargetSpec := ⟨"app", .exe, "app", ["\x7bdir\x7d/*.c"], {}⟩
    let ctx : BuildContext := ⟨.ofPlatform .gcc, .ofList [("dir", "src")], {}⟩
    ∃ target planned, (spec.target t ⟨"/proj"⟩ {} ctx.bindings).outcome = .ok target ∧
      expandTarget ctx target = .ok planned ∧
      ∃ p, planned.Builds p ∧ p.same ⟨"src/main.c"⟩ = true := by
  intro t spec ctx
  have htarget : (spec.target t ⟨"/proj"⟩ {} ctx.bindings).outcome =
      .ok (.ofSettings "app" .exe "app" ["src/main.c"] {}) := by decide +kernel
  obtain ⟨planned, hplanned⟩ :
      ∃ planned, expandTarget ctx (.ofSettings "app" .exe "app" ["src/main.c"] {}) = .ok planned :=
    isOk_iff.1 (by decide +kernel)
  have hmatches : spec.Matches t ⟨"/proj"⟩ ctx.bindings ⟨"src/main.c"⟩ :=
    ⟨_, List.mem_cons_self, by decide, "src/*.c", by decide +kernel, [⟨"/proj/src/main.c"⟩],
      by decide +kernel, _, List.mem_cons_self, by decide +kernel⟩
  have hplain : ∀ name, ¬ (Path.mk "src/main.c").HasToken name := fun name hname =>
    absurd (Path.open_mem_of_hasToken hname) (by decide)
  obtain ⟨-, -, hplan, -⟩ := matches_spec htarget
  exact ⟨_, planned, htarget, hplanned, (hplan planned hplanned).2 _ hmatches hplain⟩

/-- The name of a matched file has a placeholder: without a value for that there is no plan, and
with one another file is built. -/
theorem expandTarget_misses_match :
    let t := (FileTree.empty.put ["proj"] .directory).put ["proj", "\x7bx\x7d.c"] (.file "")
    let spec : TargetSpec := ⟨"app", .exe, "app", ["*.c"], {}⟩
    let ctx := fun b : Bindings => (⟨.ofPlatform .gcc, b, {}⟩ : BuildContext)
    let target : Target := .ofSettings "app" .exe "app" ["\x7bx\x7d.c"] {}
    (∀ b ∈ [.empty, .ofList [("x", "y")]], spec.Matches t ⟨"/proj"⟩ b ⟨"\x7bx\x7d.c"⟩ ∧
      (spec.target t ⟨"/proj"⟩ {} b).outcome = .ok target) ∧
    expandTarget (ctx .empty) target = .error (.unresolvedVariable "x" "\x7bx\x7d.c") ∧
    ∃ planned, expandTarget (ctx (.ofList [("x", "y")])) target = .ok planned ∧
      ∀ p, planned.Builds p ↔ p = ⟨"y.c"⟩ := by
  intro t spec ctx target
  refine ⟨?_, by decide +kernel, ?_⟩
  · have hmatches : ∀ b, Template.expand b "*.c" = .ok "*.c" →
        spec.Matches t ⟨"/proj"⟩ b ⟨"\x7bx\x7d.c"⟩ := fun b hexpand =>
      ⟨_, List.mem_cons_self, by decide, "*.c", hexpand, [⟨"/proj/\x7bx\x7d.c"⟩],
        by decide +kernel, _, List.mem_cons_self, by decide +kernel⟩
    simp only [List.forall_mem_cons]
    exact ⟨⟨hmatches _ (by decide +kernel), by decide +kernel⟩,
      ⟨hmatches _ (by decide +kernel), by decide +kernel⟩, List.forall_mem_nil _⟩
  · obtain ⟨planned, hplanned⟩ :
        ∃ planned, expandTarget (ctx (.ofList [("x", "y")])) target = .ok planned :=
      isOk_iff.1 (by decide +kernel)
    refine ⟨planned, hplanned, fun p => ?_⟩
    have hexpand : Template.expand (.ofList [("x", "y")]) "\x7bx\x7d.c" = .ok "y.c" := by
      decide +kernel
    have hsources : target.sources = ["\x7bx\x7d.c"] := rfl
    rw [Expansion.builds_iff hplanned, hsources]
    simp only [List.mem_singleton, exists_eq_left]
    show Template.expand (.ofList [("x", "y")]) _ = _ ↔ _
    rw [hexpand]
    constructor
    · intro heq
      exact congrArg Path.mk (Except.ok.inj heq).symm
    · rintro rfl
      rfl

end TargetSpec

end NinjaGen
