import NinjaGen.Proofs.Plan.Parts
import Mathlib.Data.List.Forall2
import Mathlib.Data.List.Nodup

/-!
# Collecting sources

A target may have its sources collected in unity sources or compiled one by one. Either way the same
sources are compiled with the same settings into the same artifact.

* `Target.withUnity` asks for the one or the other; `Expansion.parts_withUnity` says that reading
  the target does not depend on it.
* `Collects units compiles apart` is how the steps of an expansion that collects sources stand to
  the compilations of one that does not (`Expansion.Parts.collects`).
* `expandTarget_withUnity` compares the two expansions of a target.
-/

namespace NinjaGen

/-- The target with its sources collected or not. -/
def Target.withUnity (unity : Bool) (t : Target) : Target := { t with unity := unity }

/-! ## The comparison -/

/-- Whether `units`, compiled by `compiles`, collect the sources that `apart` compiles one by
one. -/
structure Collects (units : List UnityStep) (compiles apart : List CompileStep) : Prop where
  /-- The C sources come first and then the C++ sources, in their order. -/
  members : units.flatMap (·.members) =
    (apart.filter (·.lang = .c) ++ apart.filter (·.lang = .cxx)).map (·.source)
  /-- None is lost or comes in addition. -/
  perm : (units.flatMap (·.members)).Perm (apart.map (·.source))
  /-- None comes twice. -/
  nodup : (units.flatMap (·.members)).Nodup
  /-- Each unity source is compiled, as each member would be. -/
  compiled : List.Forall₂ (fun u c => c.source = u.output ∧ c.lang = u.lang ∧
    ∀ m ∈ u.members, (∃ d ∈ apart, d.source = m) ∧ ∀ d ∈ apart, d.source = m →
      c.lang = d.lang ∧ c.flags = d.flags ∧ c.includeDirs = d.includeDirs ∧
        c.defines = d.defines) units compiles

namespace Expansion

variable {ctx : BuildContext} {target : Target} {parts : Parts}

/-- What is read of a target does not depend on whether its sources are collected. -/
theorem parts_withUnity (unity : Bool) :
    Expansion.parts ctx (target.withUnity unity) = Expansion.parts ctx target :=
  rfl

/-- No two sources of a target have the same path. -/
theorem eq_of_path_eq {ss : List SourceFile} (h : sources ctx target = .ok ss) {s s' : SourceFile}
    (hs : s ∈ ss) (hs' : s' ∈ ss) (heq : s.path = s'.path) : s = s' := by
  obtain ⟨-, -, hnodup⟩ := sources_eq_ok_iff.1 h
  exact List.inj_on_of_nodup_map hnodup hs hs' (by rw [objectComponents, heq, objectComponents])

namespace Parts

/-- The compilations of the sources in a language, by their sources. -/
theorem source_filter_lang (ss : List SourceFile) (l : Language) :
    ((ss.map (compileStep ctx target parts.settings)).filter (·.lang = l)).map (·.source) =
      pathsOf l ss := by
  rw [List.filter_map, List.map_map]
  rfl

/-- **Collected sources stand to the ones compiled one by one** as they should. -/
theorem collects (h : Expansion.parts ctx target = .ok parts) :
    Collects (parts.unity ctx (target.withUnity true)) (parts.compiles ctx (target.withUnity true))
      (parts.compiles ctx (target.withUnity false)) := by
  obtain ⟨-, hsources, -⟩ := parts_eq_ok_iff.1 h
  have hunity : parts.unity ctx (target.withUnity true) = _ := parts.unity_of_collected rfl
  have hcompiles : parts.compiles ctx (target.withUnity true) = _ :=
    parts.compiles_of_collected rfl
  have hapart : parts.compiles ctx (target.withUnity false) = _ := parts.compiles_of_apart rfl
  have hmembers : (parts.unity ctx (target.withUnity true)).flatMap (·.members) =
      pathsOf .c parts.sources ++ pathsOf .cxx parts.sources := by
    rw [hunity, List.flatMap_map, flatMap_members_batches]
    simp [Language.all]
  have hperm : ((parts.unity ctx (target.withUnity true)).flatMap (·.members)).Perm
      (parts.sources.map (·.path)) := by
    rw [hmembers, pathsOf, pathsOf, ← List.map_append]
    have hcxx : (fun s : SourceFile => decide (s.lang = .cxx)) =
        fun s => !decide (s.lang = .c) := by
      funext s
      cases s.lang <;> rfl
    rw [hcxx]
    exact (List.filter_append_perm _ _).map _
  refine ⟨?_, ?_, ?_, ?_⟩
  · rw [hmembers, hapart, List.map_append, source_filter_lang, source_filter_lang]
  · rw [hapart, List.map_map]
    exact hperm
  · have hinj : ∀ s ∈ parts.sources, ∀ s' ∈ parts.sources, s.path = s'.path → s = s' :=
      fun s hs s' hs' => eq_of_path_eq hsources hs hs'
    have hnodup : parts.sources.Nodup := List.Nodup.of_map _ (sources_eq_ok_iff.1 hsources).2.2
    exact hperm.nodup_iff.2 (List.Nodup.map_on hinj hnodup)
  · rw [hcompiles, List.forall₂_map_right_iff, List.forall₂_same]
    intro u hu
    refine ⟨rfl, rfl, fun m hm => ?_⟩
    rw [hunity] at hu
    obtain ⟨b, hb, rfl⟩ := List.mem_map.1 hu
    obtain ⟨s, hs, rfl, hlang⟩ := exists_source_of_mem_members hb hm
    rw [hapart]
    refine ⟨⟨_, List.mem_map_of_mem hs, rfl⟩, fun d hd hsource => ?_⟩
    obtain ⟨s', hs', rfl⟩ := List.mem_map.1 hd
    cases eq_of_path_eq hsources hs' hs hsource
    -- The settings of a compilation depend on its source only through the language.
    have hflags : parts.settings.flags b.lang = parts.settings.flags s.lang := by rw [hlang]
    exact ⟨hlang.symm, congrArg (ctx.buildTypeFlags ++ ·) hflags, rfl, rfl⟩

end Parts

end Expansion

/-- **Whether sources are collected changes neither the errors of a target nor what is built.** Both
expansions fail, with the same error, or both succeed: the unity sources hold the sources, each is
compiled as its members would be, and the artifact is made in the same way of the objects that there
are. -/
theorem expandTarget_withUnity (ctx : BuildContext) (target : Target) :
    (∃ e, expandTarget ctx (target.withUnity true) = .error e ∧
      expandTarget ctx (target.withUnity false) = .error e) ∨
    ∃ output units compiles apart final,
      expandTarget ctx (target.withUnity true) = .ok ⟨target.name, target.kind, output,
        units.map .unity ++ compiles.map .compile ++
          [Step.withObjects (compiles.map (·.output)) final]⟩ ∧
      expandTarget ctx (target.withUnity false) = .ok ⟨target.name, target.kind, output,
        apart.map .compile ++ [Step.withObjects (apart.map (·.output)) final]⟩ ∧
      final.isFinal = true ∧ final.output = output ∧ Collects units compiles apart := by
  rw [expandTarget_eq, expandTarget_eq, Expansion.parts_withUnity, Expansion.parts_withUnity]
  cases h : Expansion.parts ctx target with
  | error e => exact .inl ⟨e, rfl, rfl⟩
  | ok parts =>
    right
    obtain ⟨-, -, -, hfinal⟩ := Expansion.parts_eq_ok_iff.1 h
    obtain ⟨houtput, hkind⟩ := Expansion.output_of_finalStep hfinal
    refine ⟨parts.output, _, _, _, parts.final, rfl, ?_, hkind, houtput, parts.collects h⟩
    have hunity : parts.unity ctx (target.withUnity false) = [] := parts.unity_of_apart rfl
    rw [Except.map, Expansion.Parts.arrange, hunity]
    rfl

end NinjaGen
