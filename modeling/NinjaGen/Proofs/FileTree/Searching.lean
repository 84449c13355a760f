import NinjaGen.Descriptor
import NinjaGen.Proofs.Glob.Walking
import NinjaGen.Proofs.Path.Order

/-!
# Files of a name

A search goes through a directory and all that is below it, except for the directories that are
hidden or to be skipped, and collects the files of one name.

* `FileTree.IsOpen` says that a search comes to what names lead to: it enters every directory on the
  way (`FileTree.isReached_iff`).
* `FileTree.nodup_descendants`: what is below a directory is there once.
* `FileTree.filesNamed_spec` says which files a search collects, and in which order.
-/

namespace NinjaGen

open Glob (extend)

namespace FileTree

variable {t : FileTree} {root : Path} {l : Location} {names : List String} {name : String}
  {skipped : List Path}

/-! ## Directories on the way -/

/-- The directories on the way are those to which the names lead that come before the last. -/
theorem mem_directoriesOnWay_iff {d : String × Path} :
    d ∈ directoriesOnWay root names ↔
      ∃ front last rest, rest ≠ [] ∧ names = front ++ last :: rest ∧
        d = (last, extend root (front ++ [last])) := by
  induction names generalizing root with
  | nil => simp [directoriesOnWay]
  | cons first names ih =>
    cases names with
    | nil =>
      simp only [directoriesOnWay, List.not_mem_nil, false_iff]
      rintro ⟨front, last, rest, hrest, heq, -⟩
      have hlength := congrArg List.length heq
      have hpos := List.length_pos_iff.2 hrest
      simp only [List.length_append, List.length_cons, List.length_nil] at hlength
      omega
    | cons second names =>
      rw [directoriesOnWay, List.mem_cons, ih]
      · constructor
        · rintro (rfl | ⟨front, last, rest, hrest, heq, rfl⟩)
          · exact ⟨[], first, second :: names, by simp, rfl, rfl⟩
          · exact ⟨first :: front, last, rest, hrest, by rw [heq, List.cons_append], rfl⟩
        · rintro ⟨front, last, rest, hrest, heq, rfl⟩
          cases front with
          | nil =>
            obtain ⟨rfl, -⟩ := List.cons.inj heq
            exact .inl rfl
          | cons _ front =>
            obtain ⟨rfl, hnames⟩ := List.cons.inj heq
            exact .inr ⟨front, last, rest, hrest, hnames, rfl⟩
      · simp

/-- **Whether a search comes to what names lead to**: none of the directories on the way, that where
it starts aside, is hidden or one of those to be skipped. -/
def IsOpen (root : Path) (skipped : List Path) (names : List String) : Prop :=
  ∀ front last rest, rest ≠ [] → names = front ++ last :: rest →
    isHidden last = false ∧ ∀ s ∈ skipped, (extend root (front ++ [last])).same s = false

theorem isReached_iff : isReached root skipped names = true ↔ IsOpen root skipped names := by
  rw [isReached, List.all_eq_true]
  constructor
  · intro h front last rest hrest heq
    have hd := h _ (mem_directoriesOnWay_iff.2 ⟨front, last, rest, hrest, heq, rfl⟩)
    simpa using hd
  · intro h d hd
    obtain ⟨front, last, rest, hrest, heq, rfl⟩ := mem_directoriesOnWay_iff.1 hd
    simpa using h front last rest hrest heq

/-! ## What is below a directory -/

theorem nodup_descendants (t : FileTree) (l : Location) :
    (t.descendants l).Pairwise fun a b => a.1 ≠ b.1 := by
  rw [descendants, List.pairwise_filterMap]
  refine (List.pairwise_map.1 t.nodup).imp fun {a b} hne c hc d hd heq => hne ?_
  split at hc
  next hbelow =>
    split at hd
    next hbelow' =>
      cases hc
      cases hd
      rw [below?_eq_some_iff.1 hbelow, below?_eq_some_iff.1 hbelow']
      exact congrArg _ heq
    next => cases hd
  next => cases hc

/-! ## Files of a name -/

/-- Names that lead to different entries make different paths. -/
theorem extend_inj (ht : t.IsProper) {a b : Location × Entry} (ha : a ∈ t.descendants l)
    (hb : b ∈ t.descendants l) (h : (extend root a.1).same (extend root b.1) = true) :
    a.1 = b.1 := by
  rw [Path.same_iff, Glob.components_extend fun n hn => ht.isStep ha hn,
    Glob.components_extend fun n hn => ht.isStep hb hn, List.append_cancel_left_eq] at h
  exact List.map_injective_iff.2 (fun m n hmn => Component.normal.inj hmn) h

/-- The names by which a search comes to files of a name, in the order of the tree. -/
def namesOfFiles (t : FileTree) (root : Path) (name : String) (skipped : List Path) :
    List (List String) :=
  ((t.descendants root.location).filter fun e =>
    e.2 ≠ .directory && e.1.getLast? = some name && isReached root skipped e.1).map (·.1)

theorem mem_namesOfFiles_iff :
    names ∈ t.namesOfFiles root name skipped ↔ names.getLast? = some name ∧
      (∃ text, t.at? (root.location ++ names) = some (.file text)) ∧
        IsOpen root skipped names := by
  simp only [namesOfFiles, List.mem_map, List.mem_filter, Prod.exists, Bool.and_eq_true,
    decide_eq_true_eq, isReached_iff, mem_descendants]
  constructor
  · rintro ⟨names, e, ⟨⟨-, he⟩, ⟨hfile, hlast⟩, hopen⟩, rfl⟩
    cases e with
    | directory => exact absurd rfl hfile
    | file text => exact ⟨hlast, ⟨text, he⟩, hopen⟩
  · rintro ⟨hlast, ⟨text, hfile⟩, hopen⟩
    have hne : names ≠ [] := by
      rintro rfl
      cases hlast
    exact ⟨names, .file text, ⟨⟨hne, hfile⟩, ⟨nofun, hlast⟩, hopen⟩, rfl⟩

theorem filesNamed_of_isDirectory (hroot : t.isDirectory root = true) :
    t.filesNamed root name skipped =
      .ok (Path.sort ((t.namesOfFiles root name skipped).map (extend root))) := by
  obtain ⟨hleads, hdir⟩ := isDirectory_iff.1 hroot
  have hlocate : t.locate root = .ok root.location := locate_eq_ok_iff.2 ⟨hleads, rfl⟩
  have hstatus : t.status root = .ok .directory := status_eq_ok_iff.2 ⟨hleads, hdir⟩
  rw [filesNamed, hlocate, hstatus, namesOfFiles, List.map_map]
  rfl

section Found

variable {found : List Path}

/-- What a search collects goes forward in the order of paths. -/
theorem isListing_of_filesNamed (ht : t.IsProper) (hroot : t.isDirectory root = true)
    (h : t.filesNamed root name skipped = .ok found) : Path.IsListing found := by
  rw [filesNamed_of_isDirectory hroot] at h
  obtain rfl := Except.ok.inj h
  refine Path.isListing_iff.2 ⟨Path.pairwise_sort _, ?_⟩
  refine (Path.sort_perm _).symm.pairwise ?_ fun h h' => h (by rwa [Path.same_comm])
  rw [namesOfFiles, List.map_map, List.pairwise_map]
  refine (nodup_descendants t _).filter _ |>.imp_of_mem fun ha hb hne hsame => hne ?_
  exact extend_inj ht (List.mem_filter.1 ha).1 (List.mem_filter.1 hb).1 hsame

theorem mem_filesNamed_iff (hroot : t.isDirectory root = true)
    (h : t.filesNamed root name skipped = .ok found) {p : Path} :
    p ∈ found ↔ ∃ names, p = extend root names ∧ names.getLast? = some name ∧
      (∃ text, t.at? (root.location ++ names) = some (.file text)) ∧
        IsOpen root skipped names := by
  rw [filesNamed_of_isDirectory hroot] at h
  obtain rfl := Except.ok.inj h
  simp only [Path.mem_sort, List.mem_map, mem_namesOfFiles_iff]
  constructor
  · rintro ⟨names, hnames, rfl⟩
    exact ⟨names, rfl, hnames⟩
  · rintro ⟨names, rfl, hnames⟩
    exact ⟨names, hnames, rfl⟩

end Found

/-- **A search collects the files of a name, each once and in the order of their paths**, to which
it comes through directories that are neither hidden nor to be skipped. The directory where it
starts may be either, and so may the files, and what bears the name but is no file counts for
nothing. -/
theorem filesNamed_spec (ht : t.IsProper) (hroot : t.isDirectory root = true) (name : String)
    (skipped : List Path) :
    ∃ found, t.filesNamed root name skipped = .ok found ∧
      found.Pairwise (fun p q => p.order q = .lt) ∧
      ∀ p, p ∈ found ↔ ∃ names, p = extend root names ∧ names.getLast? = some name ∧
        (∃ text, t.at? (root.location ++ names) = some (.file text)) ∧
        IsOpen root skipped names := by
  have hfound := @filesNamed_of_isDirectory t root name skipped hroot
  exact ⟨_, hfound, isListing_of_filesNamed ht hroot hfound,
    fun p => mem_filesNamed_iff hroot hfound⟩

/-- A search starts in a directory that is hidden and to be skipped. It goes through one that bears
the name, and past a hidden one and one to be skipped that is spelled in another way. -/
theorem filesNamed_spec_hidden :
    let t := (((((((((FileTree.empty.put [".proj"] .directory).put [".proj", "lib"] .directory).put
      [".proj", "lib", "F"] .directory).put [".proj", "lib", "F", "F"] (.file "")).put
      [".proj", "lib-x"] .directory).put [".proj", "lib-x", "F"] (.file "")).put
      [".proj", ".git"] .directory).put [".proj", ".git", "F"] (.file "")).put
      [".proj", "build"] .directory).put [".proj", "build", "F"] (.file "")
    let root : Path := ⟨"/.proj"⟩
    let skipped : List Path := [⟨"/.proj//build/"⟩, root]
    let found : List Path := [⟨"/.proj/lib/F/F"⟩, ⟨"/.proj/lib-x/F"⟩]
    t.IsProper ∧ t.isDirectory root = true ∧ t.filesNamed root "F" skipped = .ok found ∧
      found.Pairwise (fun p q => p.order q = .lt) ∧
      ∀ p, p ∈ found ↔ ∃ names, p = extend root names ∧ names.getLast? = some "F" ∧
        (∃ text, t.at? (root.location ++ names) = some (.file text)) ∧
        IsOpen root skipped names := by
  intro t root skipped found
  have ht : t.IsProper := by
    unfold FileTree.IsProper Component.IsStep
    decide +kernel
  have hroot : t.isDirectory root = true := by decide +kernel
  have hfound : t.filesNamed root "F" skipped = .ok found := by
    have hforward : Path.IsListing found := by
      unfold Path.IsListing
      decide +kernel
    have hnames : (t.namesOfFiles root "F" skipped).map (extend root) =
        [⟨"/.proj/lib-x/F"⟩, ⟨"/.proj/lib/F/F"⟩] := by decide +kernel
    rw [filesNamed_of_isDirectory hroot, hnames,
      Path.sort_eq_of_perm hforward (List.Perm.swap _ _ _)]
  obtain ⟨found', hfound', hspec⟩ := filesNamed_spec ht hroot "F" skipped
  obtain rfl := Except.ok.inj (hfound.symm.trans hfound')
  exact ⟨ht, hroot, hfound, hspec⟩

end FileTree

end NinjaGen
