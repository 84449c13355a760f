import NinjaGen.CommandLine.Run
import NinjaGen.Proofs.Project.Cleaning
import NinjaGen.Proofs.Project.Layers

/-!
# The command that cleans

Whether the command refuses to clean depends on the build root alone. The generated file is removed
wherever its path leads, and so the command removes a file outside of the project when it is told
to.

* `Location.IsBelow` says that a location is strictly inside a directory, `..` being resolved.
* `changed_of_runCommand_clean`: what the command changes is in the project, or it is the generated
  file.
* `runCommand_clean_spec` says when there is a refusal, and when a file outside of the project goes.
-/

namespace NinjaGen

/-- Whether a location is below another one, and not that one itself. -/
def Location.IsBelow (m l : Location) : Prop := l <+: m ∧ m ≠ l

instance (m l : Location) : Decidable (Location.IsBelow m l) :=
  inferInstanceAs (Decidable (_ ∧ _))

/-- What is in a build root inside a project is in the project. -/
theorem IsInside.isBelow {root buildRoot : Path} (h : IsInside root buildRoot) {m : Location}
    (hm : (root.join buildRoot).location <+: m) : Location.IsBelow m root.location := by
  obtain ⟨names, hne, hlocation⟩ := h.exists_location
  rw [hlocation] at hm
  refine ⟨(List.prefix_append _ _).trans hm, ?_⟩
  rintro rfl
  have hlen := hm.length_le
  rw [List.length_append] at hlen
  exact hne (List.eq_nil_of_length_eq_zero (by omega))

theorem Project.root_eq_of_load {t : FileTree} {w : Workspace} {o : Overrides} {p : Project}
    (h : Project.load t w o = .ok p) : p.root = w.root := by
  obtain ⟨_, _, -, -, hsettles⟩ := (Project.load_spec t w o).1 p h
  exact hsettles.root

namespace CommandLine

variable {t : FileTree} {w : Workspace} {o : Overrides} {p : Project} {colour : Bool}

/-! ## The run of a clean -/

theorem tree_runCommand_clean (h : Project.load t w o = .ok p) :
    (runCommand t w colour (.clean o)).tree = (p.clean t).1 := by
  simp only [runCommand, h]
  split
  next hclean => rw [hclean]; rfl
  next hclean => rw [hclean]

theorem failure_runCommand_clean (h : Project.load t w o = .ok p) :
    (runCommand t w colour (.clean o)).failure =
      match (p.clean t).2 with
      | .ok _ => none
      | .error e => some e := by
  simp only [runCommand, h]
  split
  next hclean => rw [hclean]; rfl
  next hclean => rw [hclean]

theorem tree_runCommand_clean_of_error {e : Failure} (h : Project.load t w o = .error e) :
    (runCommand t w colour (.clean o)).tree = t := by
  simp only [runCommand, h]
  rfl

/-! ## What the command changes -/

/-- What the command changes is in the project, or it is the generated file. -/
theorem changed_of_runCommand_clean (hroot : w.root.isAbsolute = true) {m : Location}
    (hm : (runCommand t w colour (.clean o)).tree.at? m ≠ t.at? m) :
    Location.IsBelow m w.root.location ∨ ∃ p, Project.load t w o = .ok p ∧
      RemovesOutput t w.root p.options.buildRoot p.output ∧ m = p.output.location := by
  cases hload : Project.load t w o with
  | error e =>
    rw [tree_runCommand_clean_of_error hload] at hm
    exact absurd rfl hm
  | ok p =>
    have hplace := Project.root_eq_of_load hload
    rw [tree_runCommand_clean hload] at hm
    rcases changed_of_clean (hplace ▸ hroot) (Prod.eta _).symm hm with
      ⟨hremoves, heq⟩ | ⟨hinside, -, hbelow⟩
    · exact .inr ⟨p, rfl, hplace ▸ hremoves, heq⟩
    · exact .inl (hplace ▸ hinside.isBelow hbelow)

/-- The generated file is gone after the command when the clean gets to it, and nobody is told that
anything was wrong. -/
theorem removed_of_removesOutput (hroot : w.root.isAbsolute = true)
    (h : Project.load t w o = .ok p)
    (hremoves : RemovesOutput t w.root p.options.buildRoot p.output) :
    (∃ text, t.at? p.output.location = some (.file text)) ∧
      (runCommand t w colour (.clean o)).tree.at? p.output.location = none ∧
      (runCommand t w colour (.clean o)).failure = none := by
  rw [tree_runCommand_clean h, failure_runCommand_clean h]
  rw [← Project.root_eq_of_load h] at hroot hremoves
  refine ⟨(FileTree.isFile_iff.1 hremoves.found.1).2, ?_⟩
  rcases clean_cases hroot hremoves.inside (Prod.eta (p.clean t)).symm with
    ⟨hkept, -⟩ | ⟨-, removed, hok, hswept⟩
  · rw [hremoves.removed] at hkept
    cases hkept
  · rw [hswept.at?, if_pos (.inr ⟨hremoves.found, rfl⟩), hok]
    exact ⟨rfl, rfl⟩

/-- **What decides about a clean.** The command is refused exactly when the build root is not inside
the project, and then it changes nothing. What it changes is inside the project, or it is the
generated file; and when the clean gets to that, the file is removed and the run does not fail,
wherever the file is. So a file outside of the project is changed exactly when the output of the
project leads to one outside, whichever layer chose it, and the clean gets to it. -/
theorem runCommand_clean_spec (hroot : w.root.isAbsolute = true) (t : FileTree) (o : Overrides)
    (colour : Bool) :
    (∀ p, Project.load t w o = .ok p →
      ((∃ refused, (runCommand t w colour (.clean o)).failure = some (.buildRootRefused refused)) ↔
        ¬ IsInside w.root p.options.buildRoot) ∧
      (¬ IsInside w.root p.options.buildRoot → (runCommand t w colour (.clean o)).tree = t) ∧
      (RemovesOutput t w.root p.options.buildRoot p.output →
        (∃ text, t.at? p.output.location = some (.file text)) ∧
          (runCommand t w colour (.clean o)).tree.at? p.output.location = none ∧
          (runCommand t w colour (.clean o)).failure = none)) ∧
    (∀ m, (runCommand t w colour (.clean o)).tree.at? m ≠ t.at? m →
      Location.IsBelow m w.root.location ∨ ∃ p, Project.load t w o = .ok p ∧
        RemovesOutput t w.root p.options.buildRoot p.output ∧ m = p.output.location) ∧
    ((∃ m, (runCommand t w colour (.clean o)).tree.at? m ≠ t.at? m ∧
        ¬ Location.IsBelow m w.root.location) ↔
      ∃ p, Project.load t w o = .ok p ∧ RemovesOutput t w.root p.options.buildRoot p.output ∧
        ¬ Location.IsBelow p.output.location w.root.location) := by
  refine ⟨fun p h => ⟨?_, fun houtside => ?_, removed_of_removesOutput hroot h⟩,
    fun m => changed_of_runCommand_clean hroot, ?_, ?_⟩
  · rw [failure_runCommand_clean h]
    rw [← Project.root_eq_of_load h] at hroot ⊢
    constructor
    · rintro ⟨refused, hrefused⟩
      split at hrefused
      · cases hrefused
      next e he =>
        rw [Option.some.inj hrefused] at he
        exact not_isInside_of_refused hroot (Prod.ext rfl he)
    · intro houtside
      rw [Project.clean, clean_of_not_isInside hroot houtside]
      exact ⟨p.options.buildRoot, rfl⟩
  · rw [← Project.root_eq_of_load h] at hroot houtside
    rw [tree_runCommand_clean h, Project.clean, clean_of_not_isInside hroot houtside]
  · rintro ⟨m, hm, houtside⟩
    rcases changed_of_runCommand_clean hroot hm with hbelow | ⟨p, h, hremoves, rfl⟩
    · exact absurd hbelow houtside
    · exact ⟨p, h, hremoves, houtside⟩
  · rintro ⟨p, h, hremoves, houtside⟩
    obtain ⟨⟨text, hfile⟩, hgone, -⟩ :=
      @removed_of_removesOutput t w o p colour hroot h hremoves
    refine ⟨_, ?_, houtside⟩
    rw [hgone, hfile]
    exact nofun

/-- A run that is told of a file in the directory next to the project. -/
theorem runCommand_clean_spec_beside :
    let t := ((FileTree.empty.put ["home"] .directory).put ["home", "note.txt"] (.file "mine")).put
      ["proj"] .directory
    let w : Workspace := ⟨⟨"/proj"⟩, none⟩
    let o : Overrides := { output := some ⟨"../home/note.txt"⟩ }
    w.root.isAbsolute = true ∧
      (∃ m, (runCommand t w false (.clean o)).tree.at? m ≠ t.at? m ∧
        ¬ Location.IsBelow m w.root.location) ∧
      ∃ p, Project.load t w o = .ok p ∧ IsInside w.root p.options.buildRoot ∧
        RemovesOutput t w.root p.options.buildRoot p.output ∧
        ¬ Location.IsBelow p.output.location w.root.location := by
  intro t w o
  have hroot : w.root.isAbsolute = true := by decide
  have hlost : (runCommand t w false (.clean o)).tree.at? ["home", "note.txt"] ≠
      t.at? ["home", "note.txt"] := by decide +kernel
  have hchanged : ∃ m, (runCommand t w false (.clean o)).tree.at? m ≠ t.at? m ∧
      ¬ Location.IsBelow m w.root.location := ⟨_, hlost, by decide +kernel⟩
  obtain ⟨p, hload, hremoves, hplace⟩ := (runCommand_clean_spec hroot t o false).2.2.1 hchanged
  exact ⟨hroot, hchanged, p, hload, hremoves.inside, hremoves, hplace⟩

/-- The file next to the project is removed, and nobody is told that anything was wrong. -/
theorem clean_removes_beside :
    let t := ((FileTree.empty.put ["home"] .directory).put ["home", "note.txt"] (.file "mine")).put
      ["proj"] .directory
    let w : Workspace := ⟨⟨"/proj"⟩, none⟩
    let outcome := runCommand t w false (.clean { output := some ⟨"../home/note.txt"⟩ })
    outcome.failure = none ∧ outcome.stderr = "     Removed ../home/note.txt\n" ∧
      t.at? ["home", "note.txt"] = some (.file "mine") ∧
      outcome.tree.at? ["home", "note.txt"] = none ∧
      ¬ Location.IsBelow ["home", "note.txt"] w.root.location := by
  decide +kernel

end CommandLine

end NinjaGen
