import NinjaGen.Proofs.Glob.Joining
import NinjaGen.Proofs.Glob.Listing

/-!
# Projects that are moved

A list of sources stands for the same paths wherever the project is, as long as the text of its
directory is no pattern itself.

* `Glob.HoldsSame` says of two directories that they hold the same.
* `Glob.IsMovable` says of a pattern that its matches lie below the directory, and can be reached
  from the other directory as well.
* `Glob.isFile_moved`: a path below one directory leads to a file when it does below the other.
* `Glob.files_moved` puts this together.
-/

namespace NinjaGen

/-! ## Steps that stay below -/

/-- Whether components never lead above where they start. -/
def Component.StayBelow (cs : List Component) : Prop :=
  ∀ front, front ++ [.parent] <+: cs → front.foldl Component.lead [] ≠ []

namespace Component

variable {cs front : List Component}

theorem StayBelow.of_prefix (h : StayBelow cs) (hfront : front <+: cs) : StayBelow front :=
  fun part hpart => h part (hpart.trans hfront)

theorem stayBelow_of_not_mem (h : .parent ∉ cs) : StayBelow cs :=
  fun _ hpart => absurd (hpart.subset (List.mem_append_right _ (List.mem_singleton_self _))) h

/-- Components that stay below lead from everywhere to where they lead from the root. -/
theorem foldl_lead_of_stayBelow (h : StayBelow cs) (hroot : .root ∉ cs) (l : Location) :
    cs.foldl lead l = l ++ cs.foldl lead [] := by
  induction cs using List.reverseRecOn with
  | nil => exact (List.append_nil l).symm
  | append_singleton front c ih =>
    rw [List.mem_append, not_or] at hroot
    rw [List.foldl_append, List.foldl_append, ih (h.of_prefix (List.prefix_append _ _)) hroot.1]
    cases c with
    | root => simp at hroot
    | current => rfl
    | parent => exact List.dropLast_append_of_ne_nil (h front List.prefix_rfl)
    | normal name => exact List.append_assoc ..

end Component

namespace Path

theorem IsPlain.eq_of_same {p q : Path} (hp : p.IsPlain) (hq : q.IsPlain) (h : p.same q = true) :
    p = q := by
  rw [← hp, ← hq, withoutCurrent, withoutCurrent, same_iff.1 h]

end Path

namespace Glob

variable {t u : FileTree} {base dest p : Path} {names : List String} {pattern entry : String}
  {entries : List String} {ps qs found : List Path}

theorem root_not_mem_steps (names : List String) : .root ∉ steps names := by
  intro h
  obtain ⟨n, -, hn⟩ := List.mem_filterMap.1 h
  exact Component.ofPiece?_ne_root _ hn

/-! ## Directories that hold the same -/

/-- **Whether two directories hold the same**, each in its tree. -/
structure HoldsSame (t : FileTree) (base : Path) (u : FileTree) (dest : Path) : Prop where
  /-- Both are directories. -/
  isDirectory : t.isDirectory base = true ∧ u.isDirectory dest = true
  /-- Their paths start at the root directory. -/
  isAbsolute : base.isAbsolute = true ∧ dest.isAbsolute = true
  /-- The same names lead to the same in both. -/
  at? : ∀ names, t.at? (base.location ++ names) = u.at? (dest.location ++ names)

theorem HoldsSame.symm (h : HoldsSame t base u dest) : HoldsSame u dest t base :=
  ⟨h.isDirectory.symm, h.isAbsolute.symm, fun names => (h.at? names).symm⟩

/-- Directories hold the same when the same is below them, in whatever order. -/
theorem HoldsSame.of_descendants (hdir : t.isDirectory base = true ∧ u.isDirectory dest = true)
    (habs : base.isAbsolute = true ∧ dest.isAbsolute = true)
    (h : (t.descendants base.location).Perm (u.descendants dest.location)) :
    HoldsSame t base u dest := by
  refine ⟨hdir, habs, fun names => ?_⟩
  by_cases hne : names = []
  · rw [hne, List.append_nil, List.append_nil, (FileTree.isDirectory_iff.1 hdir.1).2,
      (FileTree.isDirectory_iff.1 hdir.2).2]
  · refine Option.ext fun e => ?_
    have hmem := h.mem_iff (a := (names, e))
    rwa [FileTree.mem_descendants, FileTree.mem_descendants, and_iff_right hne,
      and_iff_right hne] at hmem

theorem components_extend_origin (hbase : base.isAbsolute = true)
    (hnames : ∀ n ∈ names, '/' ∉ n.toList) :
    (extend (origin base) names).components = base.components ++ steps names := by
  rw [components_extend_of_not_mem (isAbsolute_origin base) hnames,
    Path.same_iff.1 (same_origin hbase)]

theorem location_extend_origin (hbase : base.isAbsolute = true)
    (hnames : ∀ n ∈ names, '/' ∉ n.toList) (hbelow : Component.StayBelow (steps names)) :
    (extend (origin base) names).location =
      base.location ++ (steps names).foldl Component.lead [] := by
  rw [Path.location, components_extend_origin hbase hnames, List.foldl_append,
    Component.foldl_lead_of_stayBelow hbelow (root_not_mem_steps names), Path.location]

/-- Below a directory a path leads to what it leads to below one that holds the same. -/
theorem at?_moved (hsame : HoldsSame t base u dest) (hnames : ∀ n ∈ names, '/' ∉ n.toList)
    (hbelow : Component.StayBelow (steps names)) :
    u.at? (extend (origin dest) names).location = t.at? (extend (origin base) names).location := by
  rw [location_extend_origin hsame.isAbsolute.1 hnames hbelow,
    location_extend_origin hsame.isAbsolute.2 hnames hbelow, hsame.at?]

/-- A path that can be followed below a directory can be followed below one that holds the same,
unless it is too long there. -/
theorem leads_moved (hsame : HoldsSame t base u dest) (hnames : ∀ n ∈ names, '/' ∉ n.toList)
    (hbelow : Component.StayBelow (steps names))
    (hfits : (extend (origin dest) names).refusal? = none)
    (h : t.Leads (extend (origin base) names)) : u.Leads (extend (origin dest) names) := by
  induction names using List.reverseRecOn with
  | nil =>
    exact (FileTree.isDirectory_iff.1
      (isDirectory_origin hsame.isAbsolute.2 hsame.isDirectory.2)).1
  | append_singleton names n ih =>
    obtain ⟨hfront, hlast⟩ := List.forall_mem_append.1 hnames
    have hn := List.forall_mem_singleton.1 hlast
    have hbelow' : Component.StayBelow (steps names) := by
      refine hbelow.of_prefix ?_
      rw [steps, steps, List.filterMap_append]
      exact List.prefix_append _ _
    rw [extend_append] at h hfits ⊢
    obtain ⟨hdir, hshort, -⟩ :=
      (FileTree.leads_join_iff (isAbsolute_extend (isAbsolute_origin base) hfront) hn).1 h
    obtain ⟨hleads, hplace⟩ := FileTree.isDirectory_iff.1 hdir
    have habs := isAbsolute_extend (isAbsolute_origin dest) hfront
    refine (FileTree.leads_join_iff habs hn).2 ⟨FileTree.isDirectory_iff.2 ⟨?_, ?_⟩, hshort, hfits⟩
    · exact ih hfront hbelow' (Path.refusal?_of_join habs (Path.isAbsolute_of_not_mem hn) hfits)
        hleads
    · rw [at?_moved hsame hfront hbelow', hplace]

/-- **A path that leads to a file below a directory** does so below one that holds the same. -/
theorem isFile_moved (hsame : HoldsSame t base u dest) (hnames : ∀ n ∈ names, '/' ∉ n.toList)
    (hbelow : Component.StayBelow (steps names))
    (hfits : (extend (origin dest) names).refusal? = none)
    (h : t.isFile (extend (origin base) names) = true) :
    u.isFile (extend (origin dest) names) = true := by
  obtain ⟨hleads, hfile⟩ := FileTree.isFile_iff.1 h
  refine FileTree.isFile_iff.2 ⟨leads_moved hsame hnames hbelow hfits hleads, ?_⟩
  rwa [at?_moved hsame hnames hbelow]

/-! ## Patterns that are moved -/

/-- **Whether a pattern can be moved from one directory to another.** -/
structure IsMovable (t : FileTree) (base dest : Path) (pattern : String) : Prop where
  /-- It is relative. -/
  relative : (Path.mk pattern).isAbsolute = false
  /-- It does not lead out of the directory: its matches are reached from there without a step
  above it. -/
  below : ∀ found, matchedFiles t (base.join ⟨pattern⟩) = .ok found → ∀ q ∈ found,
    ∃ cs, q.components = base.components ++ cs ∧ Component.StayBelow cs
  /-- The paths of its matches are not too long with the other directory in place of the one. -/
  fits : ∀ found, matchedFiles t (base.join ⟨pattern⟩) = .ok found → ∀ q ∈ found,
    q.text.utf8ByteSize + Text.width (origin dest).stem < pathLimit + Text.width (origin base).stem

/-- A pattern can be moved when its matches are below the directory, without a step that leads
up. -/
theorem IsMovable.of_matchedFiles (hrelative : (Path.mk pattern).isAbsolute = false)
    (h : matchedFiles t (base.join ⟨pattern⟩) = .ok found)
    (hbelow : ∀ q ∈ found, base.components <+: q.components ∧
      .parent ∉ q.components.drop base.components.length)
    (hfits : ∀ q ∈ found, q.text.utf8ByteSize + Text.width (origin dest).stem <
      pathLimit + Text.width (origin base).stem) : IsMovable t base dest pattern := by
  refine ⟨hrelative, fun found' h' q hq => ?_, fun found' h' => ?_⟩
  · obtain rfl := Except.ok.inj (h.symm.trans h')
    obtain ⟨⟨cs, hcs⟩, hparent⟩ := hbelow q hq
    rw [← hcs, List.drop_left] at hparent
    exact ⟨cs, hcs.symm, Component.stayBelow_of_not_mem hparent⟩
  · obtain rfl := Except.ok.inj (h.symm.trans h')
    exact hfits

/-- With another directory in place of the one, a path that is not too long is no worse. -/
theorem refusal?_moved (hnames : ∀ n ∈ names, '/' ∉ n.toList)
    (hdest : (origin dest).refusal? = none) (h : (extend (origin base) names).refusal? = none)
    (hfits : (extend (origin base) names).text.utf8ByteSize + Text.width (origin dest).stem <
      pathLimit + Text.width (origin base).stem) :
    (extend (origin dest) names).refusal? = none := by
  by_cases hne : names = []
  · rw [hne]
    exact hdest
  · obtain ⟨added, -, htext⟩ := exists_toList_extend hnames hne
    have hbaseText := htext _ (isAbsolute_origin base)
    have hdestText := htext _ (isAbsolute_origin dest)
    rw [Path.refusal?_eq_none_iff, ← Text.width_toList] at h hdest ⊢
    rw [← Text.width_toList] at hfits
    rw [hbaseText, Text.width_append] at hfits
    rw [hbaseText, List.mem_append, not_or] at h
    rw [hdestText, List.mem_append, not_or, Text.width_append]
    exact ⟨⟨mt ((origin dest).stem_sublist.subset ·) hdest.1, h.1.2⟩, by omega⟩

/-- Below a directory a path is seen as the steps to it. -/
theorem relativeTo_extend_origin (hbase : base.isAbsolute = true)
    (hnames : ∀ n ∈ names, '/' ∉ n.toList) :
    (extend (origin base) names).relativeTo base = Path.ofComponents (steps names) := by
  have habs : (extend (origin base) names).isAbsolute = base.isAbsolute := by
    rw [hbase, isAbsolute_extend (isAbsolute_origin base) hnames]
  rw [Path.relativeTo, if_pos habs, components_extend_origin hbase hnames, Path.stepsFrom_append]

theorem isPlain_ofComponents_steps (hnames : ∀ n ∈ names, '/' ∉ n.toList) :
    (Path.ofComponents (steps names)).IsPlain := by
  refine Path.isPlain_iff.2 ⟨[], steps names, fun c hc => ?_, .inl rfl, rfl⟩
  obtain ⟨n, hn, hc⟩ := List.mem_filterMap.1 hc
  exact Component.isStep_of_ofPiece? (hnames n hn) hc

/-- A match below a directory is reached by names for which the pattern stands, and these lead
nowhere else. -/
theorem exists_names_of_mem (ht : t.IsProper) (hbase : base.isAbsolute = true)
    (hplain : isPattern base.text = false) (hmovable : IsMovable t base dest pattern)
    (h : matchedFiles t (base.join ⟨pattern⟩) = .ok found) {q : Path} (hq : q ∈ found) :
    ∃ names, Stands ⟨pattern⟩ names ∧ q = extend (origin base) names ∧
      Component.StayBelow (steps names) := by
  obtain ⟨-, names, hnames, rfl⟩ :=
    (mem_matchedFiles_join_iff ht hbase hplain hmovable.relative h).1 hq
  obtain ⟨cs, hcs, hbelow⟩ := hmovable.below found h _ hq
  rw [components_extend_origin hbase hnames.slash_not_mem, List.append_cancel_left_eq] at hcs
  exact ⟨names, hnames, rfl, hcs ▸ hbelow⟩

theorem isMatch_moved (ht : t.IsProper) (hu : u.IsProper) (hsame : HoldsSame t base u dest)
    (hbase : isPattern base.text = false) (hdest : isPattern dest.text = false)
    (hmovable : IsMovable t base dest pattern) (h : IsMatch t base pattern p) :
    IsMatch u dest pattern p := by
  obtain ⟨habs, habs'⟩ := hsame.isAbsolute
  obtain ⟨files, hfiles, file, hfile, rfl⟩ := h
  obtain ⟨names, hnames, rfl, hbelow⟩ := exists_names_of_mem ht habs hbase hmovable hfiles hfile
  have hisFile := isFile_of_mem_matchedFiles hfiles hfile
  have hrefusal := refusal?_moved hnames.slash_not_mem
    (FileTree.isDirectory_iff.1 (isDirectory_origin habs' hsame.isDirectory.2)).1.1.1
    (FileTree.isFile_iff.1 hisFile).1.1.1 (hmovable.fits files hfiles _ hfile)
  obtain ⟨segs, hsegs, -⟩ := hnames.2
  have hfiles' := matchedFiles_join (t := u) habs' hdest hmovable.relative
  rw [hsegs] at hfiles'
  refine ⟨_, hfiles', extend (origin dest) names, ?_, ?_⟩
  · exact (mem_matchedFiles_join_iff hu habs' hdest hmovable.relative hfiles').2
      ⟨isFile_moved hsame hnames.slash_not_mem hbelow hrefusal hisFile, names, hnames, rfl⟩
  · rw [relativeTo_extend_origin habs hnames.slash_not_mem,
      relativeTo_extend_origin habs' hnames.slash_not_mem]

theorem isPlain_of_isMatch (ht : t.IsProper) (hbase : base.isAbsolute = true)
    (hplain : isPattern base.text = false) (hmovable : IsMovable t base dest pattern)
    (h : IsMatch t base pattern p) : p.IsPlain := by
  obtain ⟨files, hfiles, file, hfile, rfl⟩ := h
  obtain ⟨names, hnames, rfl, -⟩ := exists_names_of_mem ht hbase hplain hmovable hfiles hfile
  rw [relativeTo_extend_origin hbase hnames.slash_not_mem]
  exact isPlain_ofComponents_steps hnames.slash_not_mem

/-! ## Lists of sources that are moved -/

/-- What is new among sorted plain paths depends on nothing but which these are. -/
theorem unseen_eq_of_mem_iff {seen : List (List Component)} (hplain : ∀ p ∈ ps, p.IsPlain)
    (hps : ps.Pairwise fun p q => p.le q = true) (hqs : qs.Pairwise fun p q => p.le q = true)
    (h : ∀ p, p ∈ ps ↔ p ∈ qs) : unseen seen ps = unseen seen qs := by
  have hlisting : ∀ {rs : List Path}, (rs.Pairwise fun p q => p.le q = true) →
      Path.IsListing (unseen seen rs) := fun hrs =>
    Path.isListing_iff.2 ⟨hrs.sublist (unseen_sublist seen _),
      (pairwise_unseen seen _).imp fun hne => by rw [hne]; exact Bool.false_ne_true⟩
  have hmem : ∀ {rs : List Path}, (∀ p ∈ rs, p.IsPlain) → ∀ p,
      p ∈ unseen seen rs ↔ p ∈ rs ∧ p.components ∉ seen := by
    refine fun hrs p => ⟨mem_of_mem_unseen, fun ⟨hp, hnew⟩ => ?_⟩
    obtain ⟨q, hq, hsame⟩ := (exists_mem_unseen hp).resolve_left hnew
    rwa [← (hrs q (mem_of_mem_unseen hq).1).eq_of_same (hrs p hp) hsame]
  refine (hlisting hps).eq_of_mem_iff (hlisting hqs) fun p => ?_
  rw [hmem hplain, hmem fun p hp => hplain p ((h p).2 hp), h]

/-- The files of a pattern that is moved: the same error, or the same files. -/
theorem patternFiles_moved (ht : t.IsProper) (hu : u.IsProper) (hsame : HoldsSame t base u dest)
    (hbase : isPattern base.text = false) (hdest : isPattern dest.text = false)
    (hmovable : IsMovable t base dest pattern) (hback : IsMovable u dest base pattern) :
    (∃ e, patternFiles t base pattern = .error e ∧ patternFiles u dest pattern = .error e) ∨
      ∃ ps qs, patternFiles t base pattern = .ok ps ∧ patternFiles u dest pattern = .ok qs ∧
        (∀ p, p ∈ ps ↔ p ∈ qs) ∧ ∀ found, addNew found ps = addNew found qs := by
  have hfiles := matchedFiles_join (t := t) hsame.isAbsolute.1 hbase hmovable.relative
  have hfiles' := matchedFiles_join (t := u) hsame.isAbsolute.2 hdest hmovable.relative
  cases hsegs : segments ⟨pattern⟩ with
  | error e =>
    rw [hsegs] at hfiles hfiles'
    exact .inl ⟨e, by rw [patternFiles, hfiles]; rfl, by rw [patternFiles, hfiles']; rfl⟩
  | ok segs =>
    rw [hsegs] at hfiles hfiles'
    obtain ⟨ps, hps⟩ : ∃ ps, patternFiles t base pattern = .ok ps :=
      ⟨_, map_eq_ok_iff.2 ⟨_, hfiles, rfl⟩⟩
    obtain ⟨qs, hqs⟩ : ∃ qs, patternFiles u dest pattern = .ok qs :=
      ⟨_, map_eq_ok_iff.2 ⟨_, hfiles', rfl⟩⟩
    have hmem : ∀ p, p ∈ ps ↔ p ∈ qs := by
      intro p
      rw [mem_patternFiles_iff hps, mem_patternFiles_iff hqs]
      exact ⟨isMatch_moved ht hu hsame hbase hdest hmovable,
        isMatch_moved hu ht hsame.symm hdest hbase hback⟩
    refine .inr ⟨ps, qs, hps, hqs, hmem, fun found => congrArg (found ++ ·) ?_⟩
    refine unseen_eq_of_mem_iff (fun p hp => ?_) (pairwise_of_patternFiles hps)
      (pairwise_of_patternFiles hqs) hmem
    exact isPlain_of_isMatch ht hsame.isAbsolute.1 hbase hmovable ((mem_patternFiles_iff hps).1 hp)

theorem filesFrom_moved (ht : t.IsProper) (hu : u.IsProper) (hsame : HoldsSame t base u dest)
    (hbase : isPattern base.text = false) (hdest : isPattern dest.text = false)
    (hmovable : ∀ entry ∈ entries, isPattern entry = true →
      IsMovable t base dest entry ∧ IsMovable u dest base entry) (found : List Path) :
    filesFrom t base found entries = filesFrom u dest found entries := by
  induction entries generalizing found with
  | nil => rfl
  | cons entry r ih =>
    obtain ⟨hentry, hr⟩ := List.forall_mem_cons.1 hmovable
    have hrest := ih hr
    rw [filesFrom, filesFrom, entryFiles, entryFiles]
    split
    next hpattern =>
      obtain ⟨hto, hback⟩ := hentry hpattern
      rcases patternFiles_moved ht hu hsame hbase hdest hto hback with
        ⟨e, hps, hqs⟩ | ⟨ps, qs, hps, hqs, hmem, hnew⟩
      · rw [hps, hqs]
        rfl
      · rw [hps, hqs]
        cases ps with
        | nil =>
          obtain rfl : qs = [] := List.eq_nil_iff_forall_not_mem.2 fun p hp => by
            simpa using (hmem p).2 hp
          exact congrArg _ (funext fun _ => hrest _)
        | cons p ps =>
          cases qs with
          | nil => exact absurd ((hmem p).1 List.mem_cons_self) List.not_mem_nil
          | cons q qs =>
            show filesFrom t base (addNew found (p :: ps)) r =
              filesFrom u dest (addNew found (q :: qs)) r
            rw [hnew, hrest]
    next => exact congrArg _ (funext fun _ => hrest _)

/-- **A list of sources stands for the same paths wherever the project is**, and gives the same
notices, or fails for the same pattern. The directories hold the same, and their texts are no
patterns; the patterns of the list do not lead out of them. -/
theorem files_moved (ht : t.IsProper) (hu : u.IsProper) (hsame : HoldsSame t base u dest)
    (hbase : isPattern base.text = false) (hdest : isPattern dest.text = false)
    (hmovable : ∀ entry ∈ entries, isPattern entry = true →
      IsMovable t base dest entry ∧ IsMovable u dest base entry) :
    files t base entries = files u dest entries :=
  filesFrom_moved ht hu hsame hbase hdest hmovable []

/-- The sources of a project in one place and, in another tree, further down. -/
theorem files_moved_down :
    let t := (((FileTree.empty.put ["p"] .directory).put ["p", "a.c"] (.file "")).put
      ["p", "src"] .directory).put ["p", "src", "b.c"] (.file "")
    let u := ((((FileTree.empty.put ["home"] .directory).put ["home", "q"] .directory).put
      ["home", "q", "src"] .directory).put ["home", "q", "src", "b.c"] (.file "")).put
      ["home", "q", "a.c"] (.file "")
    let base : Path := ⟨"/p"⟩
    let dest : Path := ⟨"/home//q/"⟩
    let entries := ["src/*.c", "z.c", "?.c"]
    t.IsProper ∧ u.IsProper ∧ HoldsSame t base u dest ∧
      (files t base entries).outcome = .ok [⟨"src/b.c"⟩, ⟨"z.c"⟩, ⟨"a.c"⟩] ∧
      files t base entries = files u dest entries := by
  intro t u base dest entries
  have ht : t.IsProper := by
    unfold FileTree.IsProper Component.IsStep
    decide +kernel
  have hu : u.IsProper := by
    unfold FileTree.IsProper Component.IsStep
    decide +kernel
  have hsame : HoldsSame t base u dest := by
    exact .of_descendants (by decide +kernel) (by decide +kernel) (by decide +kernel)
  have hmovable : ∀ entry ∈ entries, isPattern entry = true →
      IsMovable t base dest entry ∧ IsMovable u dest base entry := by
    have hsrc : matchedFiles t (base.join ⟨"src/*.c"⟩) = .ok [⟨"/p/src/b.c"⟩] := by decide +kernel
    have hsrc' : matchedFiles u (dest.join ⟨"src/*.c"⟩) = .ok [⟨"/home/q/src/b.c"⟩] := by
      decide +kernel
    have htop : matchedFiles t (base.join ⟨"?.c"⟩) = .ok [⟨"/p/a.c"⟩] := by decide +kernel
    have htop' : matchedFiles u (dest.join ⟨"?.c"⟩) = .ok [⟨"/home/q/a.c"⟩] := by decide +kernel
    refine List.forall_mem_cons.2 ⟨fun _ => ⟨?_, ?_⟩, List.forall_mem_cons.2 ⟨nofun,
      List.forall_mem_singleton.2 fun _ => ⟨?_, ?_⟩⟩⟩
    · exact .of_matchedFiles (by decide) hsrc (by decide +kernel) (by decide +kernel)
    · exact .of_matchedFiles (by decide) hsrc' (by decide +kernel) (by decide +kernel)
    · exact .of_matchedFiles (by decide) htop (by decide +kernel) (by decide +kernel)
    · exact .of_matchedFiles (by decide) htop' (by decide +kernel) (by decide +kernel)
  exact ⟨ht, hu, hsame, by decide +kernel,
    files_moved ht hu hsame (by decide +kernel) (by decide +kernel) hmovable⟩

/-- Where the text of the directory is a pattern, it stands for other directories, and the files in
it are missed. -/
theorem files_lost_in_brackets :
    let t := (((FileTree.empty.put ["x"] .directory).put ["x", "main.c"] (.file "")).put
      ["[y]"] .directory).put ["[y]", "main.c"] (.file "")
    let base : Path := ⟨"/x"⟩
    let dest : Path := ⟨"/[y]"⟩
    HoldsSame t base t dest ∧ IsMovable t base dest "*.c" ∧ IsMovable t dest base "*.c" ∧
      (files t base ["*.c"]).outcome = .ok [⟨"main.c"⟩] ∧
      (files t dest ["*.c"]).outcome = .ok [] := by
  intro t base dest
  have hbase : matchedFiles t (base.join ⟨"*.c"⟩) = .ok [⟨"/x/main.c"⟩] := by decide +kernel
  have hdest : matchedFiles t (dest.join ⟨"*.c"⟩) = .ok [] := by decide +kernel
  exact ⟨.of_descendants (by decide +kernel) (by decide +kernel) (by decide +kernel),
    .of_matchedFiles (by decide) hbase (by decide +kernel) (by decide +kernel),
    .of_matchedFiles (by decide) hdest nofun nofun, by decide +kernel, by decide +kernel⟩

end Glob

end NinjaGen
