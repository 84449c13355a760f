import NinjaGen.Clean
import NinjaGen.Proofs.FileTree.Removing

/-!
# Cleaning

Cleaning removes the build root and the generated file. The build root is removed only where it is a
directory inside the project, and everything else stays as it is.

* `IsInside` says that a build root is strictly below the project root, and it decides
  (`isRemovable_iff`); then its location is below that of the project root
  (`IsInside.exists_location`).
* `Cleaned t directory output u removed` says what a clean that has succeeded leaves and reports. It
  is `Swept` for a path of the file that does not lead up; `clean_cases` is all that a clean can do.
* `clean_spec` says what a clean does in each case, and that another one finds nothing to do.
-/

namespace NinjaGen

/-! ## Build roots inside a project -/

/-- **Whether a build root is strictly inside a project**: its path continues that of the project by
names, at least one, and it has no `..` itself. -/
structure IsInside (root buildRoot : Path) : Prop where
  parent : .parent ∉ buildRoot.components
  below : ∃ names : List String, names ≠ [] ∧
    (root.join buildRoot).components = root.components ++ names.map .normal

section Inside

variable {root buildRoot : Path}

/-- Components that stand for pieces and do not lead up are names. -/
theorem exists_names (pieces : List (List Char)) {cs : List Component}
    (hcs : ∀ c ∈ cs, c ∈ pieces.filterMap Component.ofPiece?) (hparent : .parent ∉ cs) :
    ∃ names : List String, cs = names.map .normal := by
  induction cs with
  | nil => exact ⟨[], rfl⟩
  | cons c cs ih =>
    obtain ⟨hc, hcs⟩ := List.forall_mem_cons.1 hcs
    obtain ⟨names, rfl⟩ := ih hcs (mt (List.mem_cons_of_mem c) hparent)
    obtain ⟨piece, -, hpiece⟩ := List.mem_filterMap.1 hc
    cases c with
    | root => exact absurd hpiece (Component.ofPiece?_ne_root piece)
    | current => exact absurd hpiece (Component.ofPiece?_ne_current piece)
    | parent => exact absurd List.mem_cons_self hparent
    | normal name => exact ⟨name :: names, rfl⟩

/-- A build root without `..` continues the project root by names, if its path continues that of
the project root at all. -/
theorem exists_names_of_isPrefix (hroot : root.isAbsolute = true)
    (hparent : .parent ∉ buildRoot.components)
    (hbelow : root.components <+: (root.join buildRoot).components) :
    ∃ names : List String,
      (root.join buildRoot).components = root.components ++ names.map .normal := by
  obtain ⟨rest, hrest⟩ := hbelow
  suffices h : ∃ names : List String, rest = names.map .normal by
    obtain ⟨names, rfl⟩ := h
    exact ⟨names, hrest.symm⟩
  cases habs : buildRoot.isAbsolute with
  | false =>
    rw [Path.components_join_of_isAbsolute hroot habs, List.append_cancel_left_eq,
      ← Path.filterMap_pieces habs] at hrest
    subst hrest
    refine exists_names _ (fun _ hc => hc) fun hmem => hparent ?_
    rw [Path.filterMap_pieces habs] at hmem
    exact (List.mem_filter.1 hmem).1
  | true =>
    have hjoin : root.join buildRoot = buildRoot := by rw [Path.join, if_pos habs]
    rw [hjoin] at hrest
    have hmem : ∀ c ∈ rest, c ∈ buildRoot.components := fun c hc =>
      hrest ▸ List.mem_append_right root.components hc
    rw [Path.components_of_isAbsolute hroot, Path.components_of_isAbsolute habs,
      List.cons_append] at hrest
    refine exists_names buildRoot.pieces (fun c hc => ?_) fun h => hparent (hmem _ h)
    rw [← (List.cons.inj hrest).2]
    exact List.mem_append_right _ hc

/-- **A build root is removed only where it is inside the project.** -/
theorem isRemovable_iff (hroot : root.isAbsolute = true) :
    isRemovable root buildRoot = true ↔ IsInside root buildRoot := by
  unfold isRemovable
  simp only [Bool.and_eq_true, Bool.not_eq_true', List.contains_eq_mem, decide_eq_false_iff_not,
    Path.startsWith_iff, decide_eq_true_eq]
  constructor
  · rintro ⟨⟨hparent, hbelow⟩, hne⟩
    obtain ⟨names, hnames⟩ := exists_names_of_isPrefix hroot hparent hbelow
    refine ⟨hparent, names, ?_, hnames⟩
    rintro rfl
    exact hne (by rw [hnames, List.map_nil, List.append_nil])
  · rintro ⟨hparent, names, hne, hnames⟩
    refine ⟨⟨hparent, hnames ▸ List.prefix_append _ _⟩, fun heq => hne ?_⟩
    have hkept : (names.map Component.normal).filter (· ≠ .current) = names.map .normal :=
      List.filter_eq_self.2 (List.forall_mem_map.2 fun _ _ => decide_eq_true nofun)
    rw [hnames, List.filter_append, hkept, List.append_right_eq_self] at heq
    exact List.map_eq_nil_iff.1 heq

/-- The location of a build root that is inside a project is below that of the project root. -/
theorem IsInside.exists_location (h : IsInside root buildRoot) :
    ∃ names ≠ [], (root.join buildRoot).location = root.location ++ names := by
  obtain ⟨names, hne, hnames⟩ := h.below
  refine ⟨names, hne, ?_⟩
  rw [Path.location, hnames, List.foldl_append, Path.foldl_lead_names]
  rfl

theorem IsInside.location_ne_nil (h : IsInside root buildRoot) :
    (root.join buildRoot).location ≠ [] := by
  obtain ⟨names, hne, hbelow⟩ := h.exists_location
  simp [hbelow, hne]

end Inside

/-! ## What is removed -/

/-- Whether a location goes with a directory: it is below that, or it is the directory itself, which
goes unless its path leads through what it holds. -/
def FileTree.GoesWith (t : FileTree) (directory : Path) (m : Location) : Prop :=
  t.isThere directory = true ∧ directory.location <+: m ∧
    (m = directory.location → ¬ directory.LeadsThroughItself)

instance (t : FileTree) (directory : Path) (m : Location) : Decidable (t.GoesWith directory m) :=
  inferInstanceAs (Decidable (_ ∧ _))

/-- **What a clean that has succeeded leaves and reports.** -/
structure Cleaned (t : FileTree) (directory output : Path) (u : FileTree) (removed : List Path) :
    Prop where
  /-- No file stood in the place of the directory. -/
  place : t.isThere directory = true → t.at? directory.location = some .directory
  /-- The directory is gone with all that is in it, and so is the file; all else is as it was. -/
  at? : ∀ m, u.at? m =
    if t.GoesWith directory m ∨ (t.isFile output = true ∧ m = output.location) then none
    else t.at? m
  /-- What is reported was there, and the file was outside of the directory. -/
  report : removed = (if t.isThere directory then [directory] else []) ++
    if t.isFile output ∧ ¬ (t.isThere directory ∧ directory.location <+: output.location)
    then [output] else []

/-- Whether a path leads to a file when a directory has been removed: it does before, and neither
the file nor what the path passes goes with the directory. -/
def FileTree.FindsAfter (t : FileTree) (directory output : Path) : Prop :=
  t.isFile output = true ∧ ∀ k ∈ output.location :: output.passed, ¬ t.GoesWith directory k

instance (t : FileTree) (directory output : Path) : Decidable (t.FindsAfter directory output) :=
  inferInstanceAs (Decidable (_ ∧ ∀ k ∈ _, _))

/-- **Whether a clean removes the generated file**: the build root may be removed and is, and after
that the path of the file leads to one. -/
structure RemovesOutput (t : FileTree) (root buildRoot output : Path) : Prop where
  inside : IsInside root buildRoot
  removed : (removeDirectoryIfThere t (root.join buildRoot)).2.isOk = true
  found : t.FindsAfter (root.join buildRoot) output

/-- What a clean that has succeeded leaves and reports, wherever the path of the file leads. -/
structure Swept (t : FileTree) (directory output : Path) (u : FileTree) (removed : List Path) :
    Prop where
  /-- No file stood in the place of the directory. -/
  place : t.isThere directory = true → t.at? directory.location = some .directory
  /-- The directory is gone with all that is in it, and so is the file that is found after that; all
  else is as it was. -/
  at? : ∀ m, u.at? m =
    if t.GoesWith directory m ∨ (t.FindsAfter directory output ∧ m = output.location) then none
    else t.at? m
  report : removed = (if t.isThere directory then [directory] else []) ++
    if t.FindsAfter directory output then [output] else []

section Stages

variable {t u v : FileTree} {root buildRoot directory output : Path} {gone : Bool}
  {removed : List Path}

theorem removeDirectoryIfThere_eq_ok (hlocation : directory.location ≠ [])
    (h : removeDirectoryIfThere t directory = (u, .ok gone)) :
    gone = t.isThere directory ∧
      (t.isThere directory = true → t.at? directory.location = some .directory) ∧
      ∀ m, u.at? m = if t.GoesWith directory m then none else t.at? m := by
  unfold removeDirectoryIfThere at h
  split at h
  next hthere =>
    split at h
    next v hremove =>
      obtain ⟨rfl, hgone⟩ := Prod.mk.inj h
      obtain ⟨hdir, hat⟩ := FileTree.at?_of_removeDirectory hlocation hremove
      refine ⟨by rw [hthere]; exact (Except.ok.inj hgone).symm, fun _ => hdir, fun m => ?_⟩
      rw [hat m]
      simp only [FileTree.GoesWith, hthere, true_and]
    next =>
      obtain ⟨-, hgone⟩ := Prod.mk.inj h
      cases hgone
  next hthere =>
    obtain ⟨rfl, hgone⟩ := Prod.mk.inj h
    rw [Bool.not_eq_true] at hthere
    refine ⟨by rw [hthere]; exact (Except.ok.inj hgone).symm, fun h => ?_, fun m => ?_⟩
    · rw [hthere] at h
      cases h
    · rw [if_neg fun hgoes => Bool.eq_false_iff.1 hthere hgoes.1]

theorem removeDirectoryIfThere_eq_error {cause : Failure}
    (h : removeDirectoryIfThere t directory = (u, .error cause)) :
    (∃ e, cause = .directoryKept directory e) ∧ u = (t.removeDirectory directory).1 := by
  unfold removeDirectoryIfThere at h
  split at h
  · split at h
    · cases (Prod.mk.inj h).2
    next v e hremove =>
      obtain ⟨rfl, hcause⟩ := Prod.mk.inj h
      exact ⟨⟨e, (Except.error.inj hcause).symm⟩, by rw [hremove]⟩
  · cases (Prod.mk.inj h).2

/-- Removing the file never fails. -/
theorem exists_removeFileIfThere (t : FileTree) (output : Path) :
    ∃ u, removeFileIfThere t output = (u, .ok (t.isFile output)) ∧
      ∀ m, u.at? m = if t.isFile output = true ∧ m = output.location then none else t.at? m := by
  unfold removeFileIfThere
  cases hfile : t.isFile output with
  | false => exact ⟨t, rfl, fun m => rfl⟩
  | true =>
    obtain ⟨hremove, hat⟩ := FileTree.removeFile_of_isFile hfile
    refine ⟨t.remove output.location, ?_, fun m => ?_⟩
    · rw [if_pos rfl, hremove]
    · rw [hat m]
      simp only [true_and]

/-- What a path finds when the directory has gone. -/
theorem FileTree.isFile_iff_findsAfter
    (hat : ∀ m, u.at? m = if t.GoesWith directory m then none else t.at? m) :
    u.isFile output = true ↔ t.FindsAfter directory output := by
  have hkept : ∀ {m e}, u.at? m = some e → ¬ t.GoesWith directory m ∧ t.at? m = some e := by
    intro m e he
    rw [hat] at he
    split at he
    · cases he
    next hstays => exact ⟨hstays, he⟩
  unfold FindsAfter
  rw [isFile_iff, isFile_iff]
  constructor
  · rintro ⟨hleads, text, htext⟩
    refine ⟨⟨hleads.mono fun k _ hdir => (hkept hdir).2, text, (hkept htext).2⟩, fun k hk => ?_⟩
    rcases List.mem_cons.1 hk with rfl | hk
    · exact (hkept htext).1
    · exact (hkept (hleads.2 k hk)).1
  · rintro ⟨⟨hleads, text, htext⟩, hstays⟩
    refine ⟨hleads.mono fun k hk hdir => ?_, text, ?_⟩
    · rw [hat, if_neg (hstays k (List.mem_cons_of_mem _ hk)), hdir]
    · rw [hat, if_neg (hstays _ List.mem_cons_self), htext]

/-- A file that is in the place of the directory is none. -/
theorem FileTree.goesWith_of_file (hfile : t.isFile output = true)
    (hdir : t.isThere directory = true → t.at? directory.location = some .directory)
    (hthere : t.isThere directory = true) (hbelow : directory.location <+: output.location) :
    t.GoesWith directory output.location := by
  refine ⟨hthere, hbelow, fun heq => ?_⟩
  obtain ⟨-, text, htext⟩ := isFile_iff.1 hfile
  rw [heq, hdir hthere] at htext
  cases htext

/-- A file whose path has no `..` is still found exactly when it was not in the directory. -/
theorem FileTree.findsAfter_iff (houtput : .parent ∉ output.components)
    (hdir : t.isThere directory = true → t.at? directory.location = some .directory) :
    t.FindsAfter directory output ↔
      t.isFile output = true ∧
        ¬ (t.isThere directory = true ∧ directory.location <+: output.location) := by
  refine and_congr_right fun hfile => ⟨fun hstays ⟨hthere, hbelow⟩ => ?_, fun hout k hk hgoes => ?_⟩
  · exact hstays _ List.mem_cons_self (goesWith_of_file hfile hdir hthere hbelow)
  · refine hout ⟨hgoes.1, hgoes.2.1.trans ?_⟩
    rcases List.mem_cons.1 hk with rfl | hk
    · exact List.prefix_rfl
    · exact Path.prefix_of_mem_passed houtput hk

/-- What a clean leaves and reports when the path of the file has no `..`. -/
theorem Swept.cleaned (h : Swept t directory output u removed)
    (houtput : .parent ∉ output.components) : Cleaned t directory output u removed := by
  have hfinds := FileTree.findsAfter_iff houtput h.place
  refine ⟨h.place, fun m => ?_, by rw [h.report]; simp only [hfinds]⟩
  rw [h.at?]
  refine if_congr (or_congr_right' fun hgoes => and_congr_left fun hm => ?_) rfl rfl
  refine ⟨fun hfinds => hfinds.1, fun hfile => hfinds.2 ⟨hfile, fun ⟨hthere, hbelow⟩ => ?_⟩⟩
  exact hgoes (hm ▸ FileTree.goesWith_of_file hfile h.place hthere hbelow)

end Stages

/-! ## What a clean does -/

section Clean

variable {t u : FileTree} {root buildRoot directory output : Path} {removed : List Path}

/-- What is left is what was there and has not been removed. -/
theorem Cleaned.at?_eq_some (h : Cleaned t directory output u removed) {m : Location} {e : Entry}
    (he : u.at? m = some e) :
    t.at? m = some e ∧ ¬ t.GoesWith directory m ∧
      ¬ (t.isFile output = true ∧ m = output.location) := by
  rw [h.at?] at he
  split at he
  · cases he
  next hkept => exact ⟨he, not_or.1 hkept⟩

/-- After a clean neither the directory nor the file is found. -/
theorem Cleaned.not_found (h : Cleaned t directory output u removed) :
    u.isThere directory = false ∧ u.isFile output = false := by
  have hled : ∀ p, u.Leads p → t.Leads p := fun p hleads =>
    hleads.mono fun k _ hdir => (h.at?_eq_some hdir).1
  constructor
  · rw [Bool.eq_false_iff]
    intro hthere
    obtain ⟨hleads, hne⟩ := FileTree.isThere_iff.1 hthere
    obtain ⟨e, he⟩ := Option.ne_none_iff_exists'.1 hne
    obtain ⟨hbefore, hkept, -⟩ := h.at?_eq_some he
    have hwas : t.isThere directory = true :=
      FileTree.isThere_iff.2 ⟨hled directory hleads, hbefore ▸ Option.some_ne_none e⟩
    by_cases hthrough : directory.LeadsThroughItself
    · obtain ⟨k, hk, hbelow, hne⟩ := hthrough
      exact (h.at?_eq_some (hleads.2 k hk)).2.1 ⟨hwas, hbelow, fun heq => absurd heq hne⟩
    · exact hkept ⟨hwas, List.prefix_rfl, fun _ => hthrough⟩
  · rw [Bool.eq_false_iff]
    intro hfile
    obtain ⟨hleads, text, htext⟩ := FileTree.isFile_iff.1 hfile
    obtain ⟨hbefore, -, hkept⟩ := h.at?_eq_some htext
    exact hkept ⟨FileTree.isFile_iff.2 ⟨hled output hleads, text, hbefore⟩, rfl⟩

/-- Where nothing is found nothing is removed. -/
theorem clean_of_not_found (hinside : isRemovable root buildRoot = true)
    (hdirectory : t.isThere (root.join buildRoot) = false) (hfile : t.isFile output = false) :
    clean t root buildRoot output = (t, .ok []) := by
  simp [clean, hinside, removeDirectoryIfThere, hdirectory, removeFileIfThere, hfile]

/-- All that a clean can do with a build root that may be removed. -/
theorem clean_cases (hroot : root.isAbsolute = true) (hinside : IsInside root buildRoot)
    {result : Except Failure (List Path)} (h : clean t root buildRoot output = (u, result)) :
    ((removeDirectoryIfThere t (root.join buildRoot)).2.isOk = false ∧
        (∃ e, result = .error (.directoryKept (root.join buildRoot) e)) ∧
        u = (t.removeDirectory (root.join buildRoot)).1) ∨
      (removeDirectoryIfThere t (root.join buildRoot)).2.isOk = true ∧
        ∃ removed, result = .ok removed ∧ Swept t (root.join buildRoot) output u removed := by
  unfold clean at h
  rw [if_pos ((isRemovable_iff hroot).2 hinside)] at h
  dsimp only at h
  cases hstage : removeDirectoryIfThere t (root.join buildRoot) with
  | mk v outcome =>
    rw [hstage] at h
    cases outcome with
    | error cause =>
      obtain ⟨rfl, rfl⟩ := Prod.mk.inj h
      obtain ⟨⟨e, rfl⟩, hu⟩ := removeDirectoryIfThere_eq_error hstage
      exact .inl ⟨rfl, ⟨e, rfl⟩, hu⟩
    | ok gone =>
      obtain ⟨rfl, hdir, hv⟩ := removeDirectoryIfThere_eq_ok hinside.location_ne_nil hstage
      obtain ⟨w, hfile, hw⟩ := exists_removeFileIfThere v output
      dsimp only at h
      rw [hfile] at h
      obtain ⟨rfl, rfl⟩ := Prod.mk.inj h
      have hfinds : v.isFile output = true ↔ t.FindsAfter (root.join buildRoot) output :=
        FileTree.isFile_iff_findsAfter hv
      refine .inr ⟨rfl, _, rfl, hdir, fun m => ?_, by simp only [hfinds]⟩
      rw [hw m, hv m]
      simp only [hfinds]
      by_cases hgoes : t.GoesWith (root.join buildRoot) m
      · rw [if_pos hgoes, ite_self, if_pos (.inl hgoes)]
      · rw [if_neg hgoes]
        simp only [hgoes, false_or]

theorem clean_of_not_isInside (hroot : root.isAbsolute = true) (h : ¬ IsInside root buildRoot) :
    clean t root buildRoot output = (t, .error (.buildRootRefused buildRoot)) :=
  clean_of_not_isRemovable (Bool.eq_false_iff.2 (mt (isRemovable_iff hroot).1 h))

/-- What changes is the file, or lies in a directory inside the project. -/
theorem changed_of_clean (hroot : root.isAbsolute = true) {result : Except Failure (List Path)}
    (h : clean t root buildRoot output = (u, result)) {m : Location} (hm : u.at? m ≠ t.at? m) :
    (RemovesOutput t root buildRoot output ∧ m = output.location) ∨
      (IsInside root buildRoot ∧ t.at? (root.join buildRoot).location = some .directory ∧
        (root.join buildRoot).location <+: m) := by
  by_cases hinside : IsInside root buildRoot
  · rcases clean_cases hroot hinside h with ⟨-, -, hu⟩ | ⟨hremoved, removed, -, hswept⟩
    · rw [hu] at hm
      exact .inr ⟨hinside, FileTree.below_of_removeDirectory hinside.location_ne_nil hm⟩
    · rw [hswept.at?] at hm
      by_cases hgone : t.GoesWith (root.join buildRoot) m ∨
          (t.FindsAfter (root.join buildRoot) output ∧ m = output.location)
      · rcases hgone with ⟨hthere, hbelow, -⟩ | ⟨hfinds, heq⟩
        · exact .inr ⟨hinside, hswept.place hthere, hbelow⟩
        · exact .inl ⟨⟨hinside, hremoved, hfinds⟩, heq⟩
      · exact absurd (if_neg hgone) hm
  · rw [clean_of_not_isInside hroot hinside] at h
    obtain ⟨rfl, -⟩ := Prod.mk.inj h
    exact absurd rfl hm

/-- Only a build root that is not inside the project is refused. -/
theorem not_isInside_of_refused (hroot : root.isAbsolute = true) {refused : Path}
    (h : clean t root buildRoot output = (u, .error (.buildRootRefused refused))) :
    ¬ IsInside root buildRoot := by
  intro hinside
  rcases clean_cases hroot hinside h with ⟨-, ⟨e, he⟩, -⟩ | ⟨-, removed, hok, -⟩
  · cases he
  · cases hok

/-- A clean that succeeds leaves nothing to clean. -/
theorem cleaned_of_clean (hroot : root.isAbsolute = true) (houtput : .parent ∉ output.components)
    (h : clean t root buildRoot output = (u, .ok removed)) :
    Cleaned t (root.join buildRoot) output u removed ∧
      clean u root buildRoot output = (u, .ok []) := by
  by_cases hinside : IsInside root buildRoot
  · rcases clean_cases hroot hinside h with ⟨-, ⟨e, he⟩, -⟩ | ⟨-, _, hok, hswept⟩
    · cases he
    · cases hok
      have hcleaned := hswept.cleaned houtput
      obtain ⟨hdirectory, hfile⟩ := hcleaned.not_found
      exact ⟨hcleaned, clean_of_not_found ((isRemovable_iff hroot).2 hinside) hdirectory hfile⟩
  · rw [clean_of_not_isInside hroot hinside] at h
    cases (Prod.mk.inj h).2

/-- The path of a directory inside a project leads through itself at most if that of the project
has a `..`. -/
theorem IsInside.not_leadsThroughItself (h : IsInside root buildRoot)
    (hparent : .parent ∉ root.components) : ¬ (root.join buildRoot).LeadsThroughItself := by
  obtain ⟨names, -, hnames⟩ := h.below
  refine Path.not_leadsThroughItself ?_
  rw [hnames, List.mem_append, List.mem_map]
  rintro (hmem | ⟨name, -, hname⟩)
  · exact hparent hmem
  · cases hname

/-- **Cleaning removes the build root and the generated file, and nothing else.** What changes is
the file, or lies in a directory strictly inside the project; a build root that is not is refused,
and then nothing changes. After a success the directory and the file are gone, all else is as it
was, the report names what was there, and another clean finds nothing to do. The directory itself
stays, empty, where its path leads through what it holds; this takes a `..` in the project root. -/
theorem clean_spec (hroot : root.isAbsolute = true) (houtput : .parent ∉ output.components)
    (t : FileTree) (buildRoot : Path) :
    (∀ m, (clean t root buildRoot output).1.at? m ≠ t.at? m →
        (t.isFile output = true ∧ m = output.location) ∨
          (IsInside root buildRoot ∧ t.at? (root.join buildRoot).location = some .directory ∧
            (root.join buildRoot).location <+: m)) ∧
      (IsInside root buildRoot →
        ∃ names ≠ [], (root.join buildRoot).location = root.location ++ names) ∧
      ((∃ u refused, clean t root buildRoot output = (u, .error (.buildRootRefused refused))) ↔
        ¬ IsInside root buildRoot) ∧
      (¬ IsInside root buildRoot → (clean t root buildRoot output).1 = t) ∧
      (∀ u removed, clean t root buildRoot output = (u, .ok removed) →
        Cleaned t (root.join buildRoot) output u removed ∧
          clean u root buildRoot output = (u, .ok [])) ∧
      (.parent ∉ root.components → IsInside root buildRoot →
        ¬ (root.join buildRoot).LeadsThroughItself) := by
  refine ⟨fun m hm => (changed_of_clean hroot (Prod.eta _).symm hm).imp_left fun ⟨h, heq⟩ =>
      ⟨h.found.1, heq⟩,
    IsInside.exists_location, ⟨?_, fun h => ⟨t, buildRoot, clean_of_not_isInside hroot h⟩⟩,
    fun h => by rw [clean_of_not_isInside hroot h],
    fun u removed => cleaned_of_clean hroot houtput,
    fun hparent hinside => hinside.not_leadsThroughItself hparent⟩
  rintro ⟨u, refused, h⟩
  exact not_isInside_of_refused hroot h

/-- A build root that is spelled with `.` goes with all it holds, and one that leads back up is
refused. -/
theorem clean_spec_dotted :
    let t := ((((FileTree.empty.put ["proj"] .directory).put ["proj", "main.c"] (.file "")).put
      ["proj", "build"] .directory).put ["proj", "build", "a.o"] (.file "")).put
      ["proj", "build.ninja"] (.file "")
    let root : Path := ⟨"/proj"⟩
    let output : Path := ⟨"/proj/build.ninja"⟩
    root.isAbsolute = true ∧ .parent ∉ output.components ∧
      (∃ u, clean t root ⟨"./build"⟩ output = (u, .ok [⟨"/proj/./build"⟩, output]) ∧
        Cleaned t (root.join ⟨"./build"⟩) output u [⟨"/proj/./build"⟩, output] ∧
        clean u root ⟨"./build"⟩ output = (u, .ok [])) ∧
      ¬ IsInside root ⟨"build/.."⟩ ∧ (clean t root ⟨"build/.."⟩ output).1 = t := by
  intro t root output
  have hroot : root.isAbsolute = true := by decide
  have houtput : .parent ∉ output.components := by decide
  have hok : (clean t root ⟨"./build"⟩ output).2 = .ok [⟨"/proj/./build"⟩, output] := by
    decide +kernel
  have hup : Component.parent ∈ (Path.mk "build/..").components := by decide
  have houtside : ¬ IsInside root ⟨"build/.."⟩ := fun h => h.parent hup
  obtain ⟨-, -, -, -, hsuccess, -⟩ := clean_spec hroot houtput t ⟨"./build"⟩
  obtain ⟨-, -, -, hrefused, -⟩ := clean_spec hroot houtput t ⟨"build/.."⟩
  exact ⟨hroot, houtput, ⟨_, Prod.ext rfl hok, hsuccess _ _ (Prod.ext rfl hok)⟩, houtside,
    hrefused houtside⟩

/-- Where the path of the project root leads through the build root and back, the build root is
emptied and stays. -/
theorem clean_keeps_directory :
    let t := ((FileTree.empty.put ["build"] .directory).put ["build", "sub"] .directory).put
      ["build", "sub", "a.o"] (.file "")
    let root : Path := ⟨"/build/sub/../.."⟩
    let output : Path := ⟨"/build.ninja"⟩
    root.isAbsolute = true ∧ .parent ∉ output.components ∧
      (clean t root ⟨"build"⟩ output).2 = .ok [root.join ⟨"build"⟩] ∧
      (root.join ⟨"build"⟩).location = ["build"] ∧
      (clean t root ⟨"build"⟩ output).1.at? ["build"] = some .directory := by
  decide +kernel

end Clean

end NinjaGen
