import NinjaGen.Proofs.FileTree.Following

/-!
# Removing directories and files

A directory is emptied before it is removed, and its path is followed anew for the second stage.
Where the path leads through what the first stage has removed, the directory stays, empty.

* `Path.LeadsThroughItself` are the paths of this kind. They have a `..`
  (`Path.not_leadsThroughItself`).
* `FileTree.removeDirectory_cases` says all that removing a directory can do, and from it
  `FileTree.at?_of_removeDirectory` what is left after it has succeeded.
* `FileTree.removeFile_of_isFile`: a file is removed, and nothing but the file.
-/

namespace NinjaGen

/-- Whether a path leads through something below its own location. -/
def Path.LeadsThroughItself (p : Path) : Prop :=
  ∃ k ∈ p.passed, p.location <+: k ∧ k ≠ p.location

instance (p : Path) : Decidable p.LeadsThroughItself :=
  inferInstanceAs (Decidable (∃ k ∈ p.passed, _))

/-- Only `..` leads back from below. -/
theorem Path.not_leadsThroughItself {p : Path} (h : .parent ∉ p.components) :
    ¬ p.LeadsThroughItself := by
  rintro ⟨k, hk, hbelow, hne⟩
  exact hne ((prefix_of_mem_passed h hk).eq_of_length_le hbelow.length_le)

namespace FileTree

variable {t u : FileTree} {p : Path} {m : Location}

/-! ## Directories -/

/-- A path to a directory that has been emptied leads there still, unless it leads through what has
been removed. -/
theorem locate_removeBelow (hleads : t.Leads p) :
    (t.removeBelow p.location).locate p =
      if p.LeadsThroughItself then .error .notFound else .ok p.location := by
  split
  next hthrough =>
    obtain ⟨husable, hpassed⟩ := hleads
    obtain ⟨k, hk, hbelow⟩ := hthrough
    refine locate_eq_notFound husable (fun j hj => ?_) ⟨k, hk, ?_⟩
    · rw [at?_removeBelow, hpassed j hj]
      split
      · exact .inr rfl
      · exact .inl rfl
    · rw [at?_removeBelow, if_pos hbelow]
  next hthrough =>
    refine locate_eq_ok_iff.2 ⟨hleads.mono fun k hk hdir => ?_, rfl⟩
    rw [at?_removeBelow, if_neg fun hbelow => hthrough ⟨k, hk, hbelow⟩, hdir]

/-- **What removing a directory can do.** Either nothing, with an error; or the directory is emptied
and then it stays, after an error or because the path leads through itself; or it is removed. -/
theorem removeDirectory_cases {result : Except FileError Unit}
    (h : t.removeDirectory p = (u, result)) :
    (u = t ∧ ∃ e, result = .error e) ∨
      (t.Leads p ∧ t.at? p.location = some .directory ∧
        ((u = t.removeBelow p.location ∧
            ((∃ e, result = .error e) ∨ (result = .ok () ∧ p.LeadsThroughItself))) ∨
          (u = (t.removeBelow p.location).remove p.location ∧ result = .ok () ∧
            ¬ p.LeadsThroughItself))) := by
  unfold removeDirectory at h
  split at h
  next e he =>
    obtain ⟨rfl, rfl⟩ := Prod.mk.inj h
    exact .inl ⟨rfl, e, rfl⟩
  next l hl =>
    obtain ⟨hleads, rfl⟩ := locate_eq_ok_iff.1 hl
    split at h
    · obtain ⟨rfl, rfl⟩ := Prod.mk.inj h
      exact .inl ⟨rfl, _, rfl⟩
    · obtain ⟨rfl, rfl⟩ := Prod.mk.inj h
      exact .inl ⟨rfl, _, rfl⟩
    next hdir =>
      refine .inr ⟨hleads, hdir, ?_⟩
      dsimp only at h
      rw [locate_removeBelow hleads] at h
      by_cases hthrough : p.LeadsThroughItself
      · rw [if_pos hthrough] at h
        obtain ⟨rfl, rfl⟩ := Prod.mk.inj h
        exact .inl ⟨rfl, .inr ⟨rfl, hthrough⟩⟩
      · rw [if_neg hthrough] at h
        dsimp only at h
        split at h
        · obtain ⟨rfl, rfl⟩ := Prod.mk.inj h
          exact .inl ⟨rfl, .inl ⟨_, rfl⟩⟩
        · obtain ⟨rfl, rfl⟩ := Prod.mk.inj h
          exact .inl ⟨rfl, .inl ⟨_, rfl⟩⟩
        · obtain ⟨rfl, rfl⟩ := Prod.mk.inj h
          exact .inl ⟨rfl, .inl ⟨_, rfl⟩⟩
        · obtain ⟨rfl, rfl⟩ := Prod.mk.inj h
          exact .inr ⟨rfl, rfl, hthrough⟩

theorem at?_remove_removeBelow (hp : p.location ≠ []) (m : Location) :
    ((t.removeBelow p.location).remove p.location).at? m =
      if p.location <+: m then none else t.at? m := by
  rw [at?_remove _ m hp, at?_removeBelow]
  split
  · rfl
  next hbelow => rw [if_neg fun h => hbelow h.1]

/-- Removing a directory changes nothing outside of it, whether it succeeds or not. -/
theorem below_of_removeDirectory (hp : p.location ≠ [])
    (h : (t.removeDirectory p).1.at? m ≠ t.at? m) :
    t.at? p.location = some .directory ∧ p.location <+: m := by
  rcases removeDirectory_cases (u := (t.removeDirectory p).1) rfl with
    ⟨hu, -⟩ | ⟨-, hdir, ⟨hu, -⟩ | ⟨hu, -⟩⟩
  · exact absurd (by rw [hu]) h
  · rw [hu, at?_removeBelow] at h
    by_contra hbelow
    exact h (if_neg fun hm => hbelow ⟨hdir, hm.1⟩)
  · rw [hu, at?_remove_removeBelow hp] at h
    by_contra hbelow
    exact h (if_neg fun hm => hbelow ⟨hdir, hm⟩)

/-- **What is left when a directory has been removed.** -/
theorem at?_of_removeDirectory (hp : p.location ≠ []) (h : t.removeDirectory p = (u, .ok ())) :
    t.at? p.location = some .directory ∧
      ∀ m, u.at? m = if p.location <+: m ∧ (m = p.location → ¬ p.LeadsThroughItself) then none
        else t.at? m := by
  rcases removeDirectory_cases h with
    ⟨-, e, he⟩ | ⟨-, hdir, ⟨rfl, ⟨e, he⟩ | ⟨-, hthrough⟩⟩ | ⟨rfl, -, hthrough⟩⟩
  · cases he
  · cases he
  · refine ⟨hdir, fun m => ?_⟩
    rw [at?_removeBelow]
    simp only [hthrough, not_true_eq_false, imp_false, ne_eq]
  · refine ⟨hdir, fun m => ?_⟩
    rw [at?_remove_removeBelow hp]
    simp only [hthrough, not_false_eq_true, implies_true, and_true]

/-! ## Files -/

/-- **A file can always be removed**, and nothing else goes with it. -/
theorem removeFile_of_isFile (h : t.isFile p = true) :
    t.removeFile p = (t.remove p.location, .ok ()) ∧
      ∀ m, (t.remove p.location).at? m = if m = p.location then none else t.at? m := by
  obtain ⟨hleads, text, htext⟩ := isFile_iff.1 h
  have hp : p.location ≠ [] := by
    intro hroot
    rw [hroot, at?_nil] at htext
    cases htext
  constructor
  · rw [removeFile, locate_eq_ok_iff.2 ⟨hleads, rfl⟩]
    simp only [htext]
  · intro m
    rw [at?_remove t m hp]
    by_cases hm : m = p.location
    · rw [if_pos hm, if_pos (hm ▸ List.prefix_rfl)]
    · rw [if_neg hm]
      split
      next hbelow =>
        -- There is nothing below a file.
        cases hat : t.at? m with
        | none => rfl
        | some e => exact absurd (eq_of_prefix_of_file htext hat hbelow) hm
      next => rfl

end FileTree

end NinjaGen
