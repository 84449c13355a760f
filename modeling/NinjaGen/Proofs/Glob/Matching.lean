import NinjaGen.Proofs.FileTree.Continuing
import NinjaGen.Proofs.Glob.Walking

/-!
# What a pattern matches

A pattern for paths stands for lists of names, whatever the tree; a walk finds the files to which
such names lead.

* `Glob.Pattern.StandsFor` says for which names a pattern for names stands, and
  `Glob.Pattern.accepts_iff` that these are the ones that it accepts.
* `Glob.Follows` says that names, one after another, are as segments have them.
* `Glob.mem_childNames_iff`, `Glob.mem_descendantNames_iff`: the names that a walk has to choose
  from.
* `Glob.mem_walk_iff`: a file is found by a walk when names that follow the segments lead to it.
-/

namespace NinjaGen.Glob

variable {t : FileTree} {p q : Path} {segs : List Segment} {names : List String} {n : String}

/-! ## Names for which a pattern stands -/

/-- **Whether a pattern stands for a name**: `*` stands for any characters, and another part for one
character that it allows. -/
inductive Pattern.StandsFor : Pattern → List Char → Prop
  | nil : StandsFor [] []
  | anyText {parts : Pattern} {name : List Char} (front : List Char) (h : StandsFor parts name) :
    StandsFor (.anyText :: parts) (front ++ name)
  | char {part : Part} {parts : Pattern} {c : Char} {name : List Char} (hpart : part ≠ .anyText)
    (hc : part.allows c = true) (h : StandsFor parts name) : StandsFor (part :: parts) (c :: name)

/-- A name that `*` stands for may begin with one character more. -/
theorem Pattern.StandsFor.cons {parts : Pattern} {name : List Char}
    (h : StandsFor (.anyText :: parts) name) (c : Char) :
    StandsFor (.anyText :: parts) (c :: name) := by
  cases h with
  | anyText front h => exact .anyText (c :: front) h
  | char hpart => exact absurd rfl hpart

/-- **A pattern accepts the names for which it stands.** -/
theorem Pattern.accepts_iff {parts : Pattern} {name : List Char} :
    parts.accepts name = true ↔ parts.StandsFor name := by
  constructor
  · intro h
    induction parts generalizing name with
    | nil =>
      obtain rfl := List.isEmpty_iff.1 (Pattern.accepts_nil name ▸ h)
      exact .nil
    | cons part parts ih =>
      by_cases hpart : part = .anyText
      · subst hpart
        induction name with
        | nil => exact .anyText [] (ih (Pattern.accepts_anyText_nil parts ▸ h))
        | cons c name ihname =>
          rw [Pattern.accepts_anyText_cons, Bool.or_eq_true] at h
          rcases h with h | h
          · exact .anyText [] (ih h)
          · exact (ihname h).cons c
      · cases name with
        | nil =>
          rw [Pattern.accepts_cons_nil hpart] at h
          cases h
        | cons c name =>
          rw [Pattern.accepts_cons_cons hpart, Bool.and_eq_true] at h
          exact .char hpart h.1 (ih h.2)
  · intro h
    induction h with
    | nil => rfl
    | @anyText parts name front _ ih =>
      induction front with
      | nil =>
        cases name with
        | nil => exact (Pattern.accepts_anyText_nil parts).trans ih
        | cons c name => rw [List.nil_append, Pattern.accepts_anyText_cons, ih, Bool.true_or]
      | cons c front ihfront =>
        rw [List.cons_append, Pattern.accepts_anyText_cons, ihfront, Bool.or_true]
    | char hpart hc _ ih => rw [Pattern.accepts_cons_cons hpart, hc, ih, Bool.and_self]

/-! ## Names that follow segments -/

/-- **Whether names, one after another, are as segments have them.** A pattern stands for `.` and
`..` only where it begins with a dot; segments for any directories stand for names of entries, and
with them the segment that comes after, so that they lead down and nowhere else. -/
inductive Follows : List Segment → List String → Prop
  | nil : Follows [] []
  | name {text : List Char} {rest : List Segment} {names : List String} (h : Follows rest names) :
    Follows (.name text :: rest) (String.ofList text :: names)
  | pattern {parts : Pattern} {rest : List Segment} {n : String} {names : List String}
    (hstands : parts.StandsFor n.toList)
    (hname : (Component.normal n).IsStep ∨
      parts.head? = some (.exactly '.') ∧ (n = "." ∨ n = ".."))
    (h : Follows rest names) : Follows (.pattern parts :: rest) (n :: names)
  | anyDirectories {rest : List Segment} {names : List String}
    (h : Follows (.anyDirectories :: rest) names) :
    Follows (.anyDirectories :: .anyDirectories :: rest) names
  | deep {segment : Segment} {rest : List Segment} {dirs : List String} {n : String}
    {names : List String} (hsegment : segment ≠ .anyDirectories)
    (hnames : ∀ m ∈ dirs ++ [n], (Component.normal m).IsStep) (haccepts : segment.accepts n = true)
    (h : Follows rest names) :
    Follows (.anyDirectories :: segment :: rest) (dirs ++ n :: names)

theorem Follows.slash_not_mem (h : Follows segs names) (hsegs : Plain segs) :
    ∀ n ∈ names, '/' ∉ n.toList := by
  induction h with
  | nil => exact List.forall_mem_nil _
  | name _ ih => exact List.forall_mem_cons.2 ⟨hsegs _ List.mem_cons_self, ih hsegs.tail⟩
  | pattern _ hname _ ih =>
    refine List.forall_mem_cons.2 ⟨?_, ih hsegs.tail⟩
    rcases hname with hstep | ⟨-, rfl | rfl⟩
    · exact hstep.1
    · decide
    · decide
  | anyDirectories _ ih => exact ih hsegs.tail
  | deep _ hnames _ _ ih =>
    rw [List.append_cons]
    exact List.forall_mem_append.2 ⟨fun m hm => (hnames m hm).1, ih hsegs.tail.tail⟩

/-- Names in front are followed as they are. -/
theorem follows_names_append_iff {fronts : List (List Char)} :
    Follows (fronts.map .name ++ segs) names ↔
      ∃ rest, Follows segs rest ∧ names = fronts.map String.ofList ++ rest := by
  induction fronts generalizing names with
  | nil => simp
  | cons front fronts ih =>
    simp only [List.map_cons, List.cons_append]
    constructor
    · intro h
      cases h with
      | name h =>
        obtain ⟨rest, hrest, rfl⟩ := ih.1 h
        exact ⟨rest, hrest, rfl⟩
    · rintro ⟨rest, hrest, rfl⟩
      exact .name (ih.2 ⟨rest, hrest, rfl⟩)

/-! ## Names in a tree -/

theorem mem_childNames_iff :
    n ∈ childNames t p ↔ t.isDirectory p = true ∧ t.at? (p.location ++ [n]) ≠ none := by
  unfold childNames
  split
  next l hlocate =>
    obtain ⟨-, rfl⟩ := FileTree.locate_eq_ok_iff.1 hlocate
    rw [List.mem_ite_nil_right]
    refine and_congr_right fun _ => ?_
    simp only [FileTree.childNames, List.mem_filterMap, Prod.exists, FileTree.mem_descendants]
    constructor
    · rintro ⟨names, e, ⟨-, he⟩, hn⟩
      split at hn
      next name =>
        cases hn
        rw [he]
        exact Option.some_ne_none e
      next => cases hn
    · intro hne
      obtain ⟨e, he⟩ := Option.ne_none_iff_exists'.1 hne
      exact ⟨[n], e, ⟨List.cons_ne_nil _ _, he⟩, rfl⟩
  next hlocate =>
    simp only [List.not_mem_nil, false_iff, not_and]
    intro hdir
    rw [FileTree.locate_eq_ok_iff.2 ⟨(FileTree.isDirectory_iff.1 hdir).1, rfl⟩] at hlocate
    cases hlocate

theorem mem_descendantNames_iff :
    names ∈ descendantNames t p ↔
      t.isDirectory p = true ∧ names ≠ [] ∧ t.at? (p.location ++ names) ≠ none := by
  unfold descendantNames
  split
  next l hlocate =>
    obtain ⟨-, rfl⟩ := FileTree.locate_eq_ok_iff.1 hlocate
    rw [List.mem_ite_nil_right]
    refine and_congr_right fun _ => ?_
    simp [FileTree.mem_descendants, Option.ne_none_iff_exists']
  next hlocate =>
    simp only [List.not_mem_nil, false_iff, not_and]
    intro hdir
    rw [FileTree.locate_eq_ok_iff.2 ⟨(FileTree.isDirectory_iff.1 hdir).1, rfl⟩] at hlocate
    cases hlocate

/-! ## Paths on the way to a file -/

theorem extend_append (p : Path) (front rest : List String) :
    extend p (front ++ rest) = extend (extend p front) rest := List.foldl_append ..

/-- A path that is continued to a file leads somewhere itself, and to a directory unless it is the
file. -/
theorem isThere_of_isFile_extend (hp : p.isAbsolute = true) (hnames : ∀ n ∈ names, '/' ∉ n.toList)
    (h : t.isFile (extend p names) = true) :
    t.isThere p = true ∧ (names ≠ [] → t.isDirectory p = true) := by
  induction names generalizing p with
  | nil =>
    obtain ⟨hleads, text, hfile⟩ := FileTree.isFile_iff.1 h
    exact ⟨FileTree.isThere_iff.2 ⟨hleads, hfile ▸ Option.some_ne_none _⟩,
      fun hne => absurd rfl hne⟩
  | cons n names ih =>
    obtain ⟨hn, hnames⟩ := List.forall_mem_cons.1 hnames
    obtain ⟨hthere, -⟩ := ih (Path.isAbsolute_join hp hn) hnames h
    have hdir := ((FileTree.leads_join_iff hp hn).1 (FileTree.isThere_iff.1 hthere).1).1
    obtain ⟨hleads, hat⟩ := FileTree.isDirectory_iff.1 hdir
    exact ⟨FileTree.isThere_iff.2 ⟨hleads, hat ▸ Option.some_ne_none _⟩, fun _ => hdir⟩

theorem location_extend (hnames : ∀ n ∈ names, (Component.normal n).IsStep) :
    (extend p names).location = p.location ++ names := by
  rw [Path.location, components_extend hnames, List.foldl_append, Path.foldl_lead_names,
    Path.location]

/-! ## Walks -/

theorem follows_of_mem_walk (ht : t.IsProper) (hq : t.isFile q = true) (h : q ∈ walk t p segs) :
    ∃ names, Follows segs names ∧ q = extend p names := by
  fun_induction walk t p segs with
  | case1 p =>
    obtain rfl := List.mem_singleton.1 h
    exact ⟨[], .nil, rfl⟩
  | case2 p text rest next found hfound ih =>
    obtain ⟨names, hnames, rfl⟩ := ih h
    exact ⟨_, .name hnames, rfl⟩
  | case3 => cases h
  | case4 p parts rest ih =>
    obtain ⟨n, hn, hrest⟩ := List.mem_flatMap.1 h
    obtain ⟨names, hnames, rfl⟩ := ih n hrest
    refine ⟨n :: names, .pattern (Pattern.accepts_iff.1 (List.mem_filter.1 hn).2) ?_ hnames, rfl⟩
    rcases List.mem_append.1 (List.mem_filter.1 hn).1 with hchild | hspecial
    · exact .inl (isStep_of_mem_childNames ht hchild)
    · rw [List.mem_ite_nil_right, List.mem_ite_nil_right] at hspecial
      obtain ⟨-, hhead, hspecial⟩ := hspecial
      exact .inr ⟨hhead, by simpa using hspecial⟩
  | case5 p =>
    -- Directories without a segment behind them are no files.
    have hdir := (FileTree.isDirectory_iff.1 (List.mem_filter.1 h).2).2
    obtain ⟨-, text, hfile⟩ := FileTree.isFile_iff.1 hq
    rw [hdir] at hfile
    cases hfile
  | case6 p rest ih =>
    obtain ⟨names, hnames, rfl⟩ := ih h
    exact ⟨names, .anyDirectories hnames, rfl⟩
  | case7 p segment rest hsegment ih =>
    obtain ⟨front, hfront, hrest⟩ := List.mem_flatMap.1 h
    obtain ⟨names, hnames, rfl⟩ := ih front hrest
    obtain ⟨hmem, haccepts⟩ := List.mem_filter.1 hfront
    obtain ⟨-, hne, -⟩ := mem_descendantNames_iff.1 hmem
    obtain ⟨dirs, n, rfl⟩ := (List.eq_nil_or_concat' front).resolve_left hne
    rw [List.getLast?_concat] at haccepts
    refine ⟨dirs ++ n :: names, .deep hsegment ?_ haccepts hnames, ?_⟩
    · exact fun m hm => isStep_of_mem_descendantNames ht hmem hm
    · rw [List.append_cons dirs n names]
      exact (extend_append p _ names).symm

theorem mem_walk_of_follows (hp : p.isAbsolute = true) (hsegs : Plain segs)
    (hnames : Follows segs names) (h : t.isFile (extend p names) = true) :
    extend p names ∈ walk t p segs := by
  have hslash := hnames.slash_not_mem hsegs
  induction hnames generalizing p with
  | nil => exact List.mem_singleton_self p
  | @name text rest names hnames ih =>
    obtain ⟨hn, hrest⟩ := List.forall_mem_cons.1 hslash
    have hnext := Path.isAbsolute_join hp hn
    rw [walk, if_pos, extend, List.foldl_cons]
    · exact ih hnext hsegs.tail h hrest
    · have hthere := (isThere_of_isFile_extend hnext hrest h).1
      split
      · exact (isThere_of_isFile_extend hp hslash h).2 (List.cons_ne_nil _ _)
      · exact hthere
  | @pattern parts rest n names hstands hname hnames ih =>
    obtain ⟨hn, hrest⟩ := List.forall_mem_cons.1 hslash
    have hnext := Path.isAbsolute_join hp hn
    have hdir := (isThere_of_isFile_extend hp hslash h).2 (List.cons_ne_nil _ _)
    rw [walk, List.mem_flatMap]
    refine ⟨n, List.mem_filter.2 ⟨?_, Pattern.accepts_iff.2 hstands⟩, ih hnext hsegs.tail h hrest⟩
    rcases hname with hstep | ⟨hhead, hspecial⟩
    · refine List.mem_append_left _ (mem_childNames_iff.2 ⟨hdir, ?_⟩)
      have hthere := (isThere_of_isFile_extend hnext hrest h).1
      rw [← location_join_of_isStep hstep]
      exact (FileTree.isThere_iff.1 hthere).2
    · rw [if_pos hdir, if_pos hhead]
      exact List.mem_append_right _ (by simpa using hspecial)
  | anyDirectories hnames ih =>
    rw [walk]
    exact ih hp hsegs.tail h hslash
  | @deep segment rest dirs n names hsegment hsteps haccepts hnames ih =>
    rw [List.append_cons] at h hslash ⊢
    rw [extend_append] at h ⊢
    obtain ⟨hfront, hrest⟩ := List.forall_mem_append.1 hslash
    have hnext := isAbsolute_extend hp hfront
    have hthere := (isThere_of_isFile_extend hnext hrest h).1
    rw [← extend_append] at h
    have hdir := (isThere_of_isFile_extend hp hslash h).2 (by simp)
    rw [extend_append] at h
    rw [walk, List.mem_flatMap]
    · refine ⟨dirs ++ [n], List.mem_filter.2 ⟨mem_descendantNames_iff.2 ⟨hdir, by simp, ?_⟩, ?_⟩,
        ih hnext hsegs.tail.tail h hrest⟩
      · rw [← location_extend hsteps]
        exact (FileTree.isThere_iff.1 hthere).2
      · rw [List.getLast?_concat]
        exact haccepts
    · exact hsegment

/-- **A walk finds a file when names that follow the segments lead to it.** -/
theorem mem_walk_iff (ht : t.IsProper) (hsegs : Plain segs) (hp : p.isAbsolute = true)
    (hq : t.isFile q = true) :
    q ∈ walk t p segs ↔ ∃ names, Follows segs names ∧ q = extend p names := by
  constructor
  · exact follows_of_mem_walk ht hq
  · rintro ⟨names, hnames, rfl⟩
    exact mem_walk_of_follows hp hsegs hnames hq

end NinjaGen.Glob
