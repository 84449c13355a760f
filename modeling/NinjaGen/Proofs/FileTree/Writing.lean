import NinjaGen.Proofs.FileTree.Following

/-!
# Writing a file

A file is written in two stages: the directories around its place are made where there is nothing,
and then the file takes its place.

* `FileTree.Gains t u made` says that `u` is `t` with new directories at some of the locations
  `made`. Each piece that is followed keeps this (`FileTree.gains_makeFrom`), whether or not all
  directories could be made in the end.
* `FileTree.Written t p text u` says what has changed when a file has been written
  (`FileTree.written_of_writeFile`); after an error there are new directories at most
  (`FileTree.gains_of_writeFile`).
-/

namespace NinjaGen

/-! ## The directory of a path -/

theorem Location.mem_passed_self {pieces : List (List Char)} (h : pieces ≠ []) (l : Location) :
    l ∈ passed l pieces := by
  obtain ⟨piece, rest, rfl⟩ := List.exists_cons_of_ne_nil h
  exact List.mem_cons_self

namespace Path

theorem trimPieces_isPrefix (pieces : List (List Char)) : trimPieces pieces <+: pieces :=
  List.rdropWhile_prefix _ pieces

theorem pieces_intercalate {pieces : List (List Char)} (hne : pieces ≠ [])
    (h : ∀ piece ∈ pieces, '/' ∉ piece) :
    (Path.mk ("/".intercalate (pieces.map String.ofList))).pieces = pieces := by
  have htexts : (pieces.map String.ofList).map String.toList = pieces := by
    rw [List.map_map]
    exact (List.map_congr_left fun _ _ => String.toList_ofList).trans (List.map_id pieces)
  rw [Path.pieces, String.toList_intercalate, htexts]
  exact List.splitOn_intercalate '/' h hne

/-- The directory of a path has the first pieces of the path, or it is where the path starts. -/
theorem directory_eq_or (p : Path) :
    p.directory = ⟨if p.isAbsolute then "/" else ""⟩ ∨
      ∃ rest, rest ≠ [] ∧ p.pieces = p.directory.pieces ++ rest := by
  unfold directory
  split
  next => exact .inl rfl
  next hne =>
    generalize hfront : trimPieces (trimPieces p.pieces).dropLast = front at hne ⊢
    have hlast : front <+: (trimPieces p.pieces).dropLast := hfront ▸ trimPieces_isPrefix _
    obtain ⟨rest, hrest⟩ := hlast.trans ((List.dropLast_prefix _).trans (trimPieces_isPrefix _))
    have hslash : ∀ piece ∈ front, '/' ∉ piece := fun piece hp =>
      slash_not_mem_of_mem_splitOn (hrest ▸ List.mem_append_left rest hp : piece ∈ p.pieces)
    refine .inr ⟨rest, ?_, by rw [pieces_intercalate hne hslash, hrest]⟩
    rintro rfl
    -- The last piece that counts is none of the directory's.
    have hshorter := hlast.length_le
    have hwhole := (trimPieces_isPrefix p.pieces).length_le
    have hpos := List.length_pos_iff.2 hne
    rw [List.append_nil] at hrest
    rw [List.length_dropLast, hrest] at hshorter
    rw [hrest] at hpos
    omega

end Path

/-! ## Making directories -/

namespace FileTree

variable {t u v : FileTree} {p : Path} {l m : Location} {made more : List Location}

/-- Whether `u` is `t` with new directories at some of the locations `made`. -/
def Gains (t u : FileTree) (made : List Location) : Prop :=
  ∀ m, u.at? m = t.at? m ∨ (t.at? m = none ∧ u.at? m = some .directory ∧ m ∈ made)

namespace Gains

theorem refl (t : FileTree) (made : List Location) : t.Gains t made := fun _ => .inl rfl

theorem mono (h : t.Gains u made) (hsub : made ⊆ more) : t.Gains u more := fun m =>
  (h m).imp_right fun ⟨hnone, hdir, hm⟩ => ⟨hnone, hdir, hsub hm⟩

theorem trans (h : t.Gains u made) (h' : u.Gains v made) : t.Gains v made := by
  intro m
  rcases h' m with hv | ⟨hnone, hdir, hm⟩
  · rw [hv]
    exact h m
  · rcases h m with hu | ⟨-, hu, -⟩
    · exact .inr ⟨hu ▸ hnone, hdir, hm⟩
    · rw [hu] at hnone
      cases hnone

/-- One directory more. -/
theorem put (hl : t.at? l = none) (hroom : t.HasRoom l) (hm : l ∈ made) :
    t.Gains (t.put l .directory) made := by
  intro m
  rw [at?_put hroom]
  by_cases h : m = l
  · exact .inr ⟨h ▸ hl, if_pos h, h ▸ hm⟩
  · exact .inl (if_neg h)

/-- What was there is still there. -/
theorem at?_eq (h : t.Gains u made) {e : Entry} (he : t.at? m = some e) : u.at? m = some e := by
  rcases h m with hu | ⟨hnone, -⟩
  · rw [hu, he]
  · rw [he] at hnone
    cases hnone

end Gains

/-- **Directories are made where the path goes and nowhere else**, also when an error ends it. What
follows the path of the directories is `rest`. -/
theorem gains_makeFrom {pieces rest : List (List Char)} (hrest : rest ≠ [])
    (hl : t.at? l = some .directory) :
    t.Gains (t.makeFrom l pieces).1 (Location.passed l (pieces ++ rest)) := by
  induction pieces generalizing t l with
  | nil => exact .refl t _
  | cons piece pieces ih =>
    have hne : pieces ++ rest ≠ [] := by simp [hrest]
    have hnext : Location.passed (Location.next l piece) (pieces ++ rest) ⊆
        Location.passed l (piece :: pieces ++ rest) := List.subset_cons_self _ _
    rw [Location.next_eq] at hnext
    rw [makeFrom]
    by_cases hsame : piece = [] ∨ piece = ['.']
    · rw [if_pos hsame] at hnext ⊢
      exact (ih hl).mono hnext
    rw [if_neg hsame] at hnext ⊢
    by_cases hup : piece = ['.', '.']
    · rw [if_pos hup] at hnext ⊢
      exact (ih (at?_dropLast hl)).mono hnext
    rw [if_neg hup] at hnext ⊢
    split
    · exact .refl t _
    dsimp only
    split
    next hdir => exact (ih hdir).mono hnext
    next => exact .refl t _
    next hnone =>
      have hroom : t.HasRoom (l ++ [String.ofList piece]) :=
        ⟨by simp, by rwa [List.dropLast_concat], by simp [hnone]⟩
      have hput : t.Gains (t.put (l ++ [String.ofList piece]) .directory) _ :=
        .put hnone hroom (Location.mem_passed_self hne _)
      refine (hput.trans (ih ?_)).mono hnext
      rw [at?_put hroom, if_pos rfl]

/-- The directories of a path are made where the path goes. -/
theorem gains_makeDirectories (t : FileTree) (p : Path) :
    t.Gains (t.makeDirectories p.directory).1 p.passed := by
  unfold makeDirectories
  split
  · exact .refl t _
  · rcases p.directory_eq_or with hstart | ⟨rest, hrest, hpieces⟩
    · rw [hstart]
      cases p.isAbsolute <;> exact .refl t _
    · rw [Path.passed, hpieces]
      exact gains_makeFrom hrest (at?_nil t)

/-! ## Writing -/

/-- **What has changed when a file has been written**: `u` is `t` with a file of that text where the
path leads. -/
structure Written (t : FileTree) (p : Path) (text : String) (u : FileTree) : Prop where
  /-- The path leads to the text. -/
  read : u.read p = .ok text
  /-- No directory had to give way. -/
  place : t.at? p.location ≠ some .directory
  /-- Whatever else was there is there as it was. -/
  kept : ∀ m e, m ≠ p.location → t.at? m = some e → u.at? m = some e
  /-- What is new besides are directories that the path leads through. -/
  gained : ∀ m e, m ≠ p.location → t.at? m = none → u.at? m = some e →
    e = .directory ∧ m ∈ p.passed

/-- Where a path leads there is room for a file, unless a directory is there. -/
theorem hasRoom_of_locate (hl : t.locate p = .ok l) (hdir : t.at? l ≠ some .directory) :
    t.HasRoom l := by
  refine ⟨?_, at?_dropLast_of_locate hl, hdir⟩
  rintro rfl
  exact hdir (at?_nil t)

/-- Whether a file is written is decided when the directories have been made. -/
theorem writeFile_cases {text : String} {result : Except FileError Unit}
    (h : t.writeFile p text = (u, result)) :
    ((∃ e, result = .error e) ∧ u = (t.makeDirectories p.directory).1) ∨
      (result = .ok () ∧ ∃ l, (t.makeDirectories p.directory).1.locate p = .ok l ∧
        (t.makeDirectories p.directory).1.at? l ≠ some .directory ∧
        u = (t.makeDirectories p.directory).1.put l (.file text)) := by
  unfold writeFile at h
  generalize t.makeDirectories p.directory = made at h ⊢
  obtain ⟨v, outcome⟩ := made
  cases outcome with
  | error e =>
    obtain ⟨rfl, rfl⟩ := Prod.mk.inj h
    exact .inl ⟨⟨e, rfl⟩, rfl⟩
  | ok =>
    dsimp only at h ⊢
    generalize v.locate (p.directory.join ⟨draftName⟩) = draft at h
    generalize v.locate p = place at h ⊢
    split at h
    · obtain ⟨rfl, rfl⟩ := Prod.mk.inj h
      exact .inl ⟨⟨_, rfl⟩, rfl⟩
    · obtain ⟨rfl, rfl⟩ := Prod.mk.inj h
      exact .inl ⟨⟨_, rfl⟩, rfl⟩
    · obtain ⟨rfl, rfl⟩ := Prod.mk.inj h
      exact .inl ⟨⟨_, rfl⟩, rfl⟩
    · split at h
      · obtain ⟨rfl, rfl⟩ := Prod.mk.inj h
        exact .inl ⟨⟨_, rfl⟩, rfl⟩
      next hdir =>
        obtain ⟨rfl, rfl⟩ := Prod.mk.inj h
        exact .inr ⟨rfl, _, rfl, hdir, rfl⟩

/-- A file that could not be written leaves new directories behind at most. -/
theorem gains_of_writeFile {text : String} {e : FileError}
    (h : t.writeFile p text = (u, .error e)) : t.Gains u p.passed := by
  rcases writeFile_cases h with ⟨-, hu⟩ | ⟨hresult, -⟩
  · rw [hu]
    exact gains_makeDirectories t p
  · cases hresult

/-- **A file that is written changes its own place**, and makes directories on the way to it. -/
theorem written_of_writeFile {text : String} (h : t.writeFile p text = (u, .ok ())) :
    t.Written p text u := by
  rcases writeFile_cases h with ⟨⟨_, hresult⟩, -⟩ | ⟨-, l, hl, hdir, rfl⟩
  · cases hresult
  have hgains := gains_makeDirectories t p
  have hroom := hasRoom_of_locate hl hdir
  obtain ⟨hleads, rfl⟩ := locate_eq_ok_iff.1 hl
  refine ⟨read_eq_ok_iff.2 ⟨hleads.mono fun k hk hkdir => ?_, ?_⟩, fun heq => ?_,
    fun m e hm he => ?_, fun m e hm hnone he => ?_⟩
  · have hne : k ≠ p.location := fun heq => hdir (heq ▸ hkdir)
    rw [at?_put hroom, if_neg hne, hkdir]
  · rw [at?_put hroom, if_pos rfl]
  · exact hdir (hgains.at?_eq heq)
  · rw [at?_put hroom, if_neg hm, hgains.at?_eq he]
  · rw [at?_put hroom, if_neg hm] at he
    rcases hgains m with hu | ⟨-, hu, hmem⟩
    · rw [hu, hnone] at he
      cases he
    · rw [hu] at he
      cases he
      exact ⟨rfl, hmem⟩

end FileTree

end NinjaGen
