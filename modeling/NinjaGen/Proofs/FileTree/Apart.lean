import NinjaGen.Proofs.FileTree.Following

/-!
# Trees without one of their directories

A path that never comes to a directory finds the same whether or not that directory is there, and
what is below other directories is the same but for what is below that one.

* `Path.Enters p l` says that `p` comes to `l` or below it when it is followed; `Path.enters_iff`
  goes by the components of `p`, and `Path.enters_join` by one name more.
* `FileTree.status_remove` is what a path finds that does not enter the directory, and
  `FileTree.descendants_remove`, `FileTree.childNames_remove` are the lists of what is below others.
* `FileTree.IsProper` says that entries have names of one step each.
* `FileTree.DiffersBelow` relates two trees that are the same without a directory.
-/

namespace NinjaGen

/-! ## Paths that lead into a directory -/

/-- The locations that pieces of a path pass are those of their starts. -/
theorem Location.mem_passed_iff {pieces : List (List Char)} {l k : Location} :
    k = pieces.foldl next l ∨ k ∈ passed l pieces ↔
      ∃ cs, cs <+: pieces.filterMap Component.ofPiece? ∧ k = cs.foldl Component.lead l := by
  induction pieces generalizing l with
  | nil => simp [passed]
  | cons piece rest ih =>
    rw [List.foldl_cons, passed, List.mem_cons, or_left_comm, ih, next]
    cases hpiece : Component.ofPiece? piece with
    | none =>
      rw [List.filterMap_cons_none hpiece, or_iff_right_iff_imp]
      rintro rfl
      exact ⟨[], List.nil_prefix, rfl⟩
    | some c =>
      simp only [List.filterMap_cons_some hpiece, List.prefix_cons_iff]
      constructor
      · rintro (rfl | ⟨cs, hcs, rfl⟩)
        · exact ⟨[], .inl rfl, rfl⟩
        · exact ⟨c :: cs, .inr ⟨cs, rfl, hcs⟩, rfl⟩
      · rintro ⟨_, rfl | ⟨cs, rfl, hcs⟩, rfl⟩
        · exact .inl rfl
        · exact .inr ⟨cs, hcs, rfl⟩

namespace Path

/-- Whether a path comes to a location, or below it, when it is followed. -/
def Enters (p : Path) (l : Location) : Prop := ∃ k ∈ p.location :: p.passed, l <+: k

instance (p : Path) (l : Location) : Decidable (p.Enters l) :=
  inferInstanceAs (Decidable (∃ k ∈ _, _))

variable {p : Path} {l : Location} {name : String}

/-- An absolute path comes to the locations of its starts. -/
theorem mem_places_iff (hp : p.isAbsolute = true) {k : Location} :
    k ∈ p.location :: p.passed ↔
      ∃ cs, cs <+: p.components ∧ k = cs.foldl Component.lead [] := by
  rw [List.mem_cons, ← foldl_next_pieces, passed, Location.mem_passed_iff,
    components_of_isAbsolute hp]
  simp only [List.prefix_cons_iff]
  constructor
  · rintro ⟨cs, hcs, rfl⟩
    exact ⟨.root :: cs, .inr ⟨cs, rfl, hcs⟩, rfl⟩
  · rintro ⟨_, rfl | ⟨cs, rfl, hcs⟩, rfl⟩
    · exact ⟨[], List.nil_prefix, rfl⟩
    · exact ⟨cs, hcs, rfl⟩

/-- A path enters what one of its starts leads into. -/
theorem enters_iff (hp : p.isAbsolute = true) :
    p.Enters l ↔ ∃ cs, cs <+: p.components ∧ l <+: cs.foldl Component.lead [] := by
  unfold Enters
  simp only [mem_places_iff hp]
  constructor
  · rintro ⟨_, ⟨cs, hcs, rfl⟩, hl⟩
    exact ⟨cs, hcs, hl⟩
  · rintro ⟨cs, hcs, hl⟩
    exact ⟨_, ⟨cs, hcs, rfl⟩, hl⟩

theorem enters_of_location (h : l <+: p.location) : p.Enters l := ⟨_, List.mem_cons_self, h⟩

theorem ne_nil_of_not_enters (h : ¬ p.Enters l) : l ≠ [] := by
  rintro rfl
  exact h (enters_of_location List.nil_prefix)

/-! ## Paths continued by a name -/

theorem isAbsolute_of_not_mem (hname : '/' ∉ name.toList) : (Path.mk name).isAbsolute = false := by
  rw [isAbsolute, decide_eq_false_iff_not]
  exact fun hhead => hname (List.mem_of_mem_head? (Option.mem_def.2 hhead))

theorem isAbsolute_join (hp : p.isAbsolute = true) (hname : '/' ∉ name.toList) :
    (p.join ⟨name⟩).isAbsolute = true := by
  rw [isAbsolute, decide_eq_true_eq] at hp
  rw [join, isAbsolute_of_not_mem hname, if_neg (by simp)]
  split <;> simp [isAbsolute, List.head?_append, hp]

/-- The component of a name comes last, if the name has one. -/
theorem components_join_of_not_mem (hp : p.isAbsolute = true) (hname : '/' ∉ name.toList) :
    (p.join ⟨name⟩).components = p.components ++ (Component.ofPiece? name.toList).toList := by
  have hrelative := isAbsolute_of_not_mem hname
  rw [components_join_of_isAbsolute hp hrelative, ← filterMap_pieces hrelative, pieces,
    List.splitOn_eq_singleton hname]
  cases h : Component.ofPiece? name.toList <;> simp [h]

theorem location_join (hp : p.isAbsolute = true) (hname : '/' ∉ name.toList) :
    (p.join ⟨name⟩).location = Location.next p.location name.toList := by
  rw [location, components_join_of_not_mem hp hname, List.foldl_append, Location.next]
  cases Component.ofPiece? name.toList <;> rfl

/-- **A path with one name more** enters what the path enters, or what it comes to by the name. -/
theorem enters_join (hp : p.isAbsolute = true) (hname : '/' ∉ name.toList) :
    (p.join ⟨name⟩).Enters l ↔ p.Enters l ∨ l <+: (p.join ⟨name⟩).location := by
  refine ⟨fun h => ?_, fun h => h.elim (fun h => ?_) enters_of_location⟩
  · obtain ⟨cs, hcs, hl⟩ := (enters_iff (isAbsolute_join hp hname)).1 h
    rw [components_join_of_not_mem hp hname] at hcs
    by_cases heq : cs = (p.join ⟨name⟩).components
    · rw [heq] at hl
      exact .inr hl
    · refine .inl ((enters_iff hp).2 ⟨cs, ?_, hl⟩)
      rw [components_join_of_not_mem hp hname] at heq
      cases hpiece : Component.ofPiece? name.toList with
      | none => simpa [hpiece] using hcs
      | some c =>
        rw [hpiece] at hcs heq
        exact (List.prefix_concat_iff.1 hcs).resolve_left heq
  · obtain ⟨cs, hcs, hl⟩ := (enters_iff hp).1 h
    refine (enters_iff (isAbsolute_join hp hname)).2 ⟨cs, hcs.trans ?_, hl⟩
    rw [components_join_of_not_mem hp hname]
    exact List.prefix_append _ _

/-- Neither `.` nor `..` leads into a directory. -/
theorem not_enters_join_of_special (hp : p.isAbsolute = true) (h : ¬ p.Enters l)
    (hname : name.toList = ['.'] ∨ name.toList = ['.', '.']) : ¬ (p.join ⟨name⟩).Enters l := by
  have hslash : '/' ∉ name.toList := by rcases hname with h | h <;> simp [h]
  rw [enters_join hp hslash, location_join hp hslash, not_or]
  refine ⟨h, fun hl => h (enters_of_location ?_)⟩
  rcases hname with hname | hname
  · rwa [hname] at hl
  · rw [hname] at hl
    exact hl.trans (List.dropLast_prefix _)

end Path

namespace FileTree

variable {t u : FileTree} {p : Path} {l m : Location}

/-! ## What a path finds -/

theorem followAll_congr {pieces : List (List Char)}
    (h : ∀ k ∈ Location.passed m pieces, t.at? k = u.at? k) :
    t.followAll m pieces = u.followAll m pieces := by
  induction pieces generalizing m with
  | nil => rfl
  | cons piece rest ih =>
    obtain ⟨hm, hrest⟩ := List.forall_mem_cons.1 h
    have hfollow : t.follow m piece = u.follow m piece := by rw [follow, follow, hm]
    rw [followAll, followAll, hfollow]
    cases hnext : u.follow m piece with
    | error e => rfl
    | ok k =>
      obtain ⟨-, -, rfl⟩ := follow_eq_ok_iff.1 hnext
      exact ih hrest

/-- Following a path needs nothing but what it passes. -/
theorem locate_congr (h : ∀ k ∈ p.passed, t.at? k = u.at? k) : t.locate p = u.locate p := by
  unfold locate
  split
  · rfl
  · split
    · rfl
    · exact followAll_congr h

/-- A path that does not enter a location leads where it led when that has been removed. -/
theorem locate_remove (h : ¬ p.Enters l) : (t.remove l).locate p = t.locate p := by
  refine locate_congr fun k hk => ?_
  rw [at?_remove _ _ (Path.ne_nil_of_not_enters h),
    if_neg fun hl => h ⟨k, List.mem_cons_of_mem _ hk, hl⟩]

/-- **What a path finds that does not enter a location is there when that has been removed.** -/
theorem status_remove (h : ¬ p.Enters l) : (t.remove l).status p = t.status p := by
  unfold status
  rw [locate_remove h]
  cases hlocate : t.locate p with
  | error e => rfl
  | ok k =>
    obtain ⟨-, rfl⟩ := locate_eq_ok_iff.1 hlocate
    have hat : (t.remove l).at? p.location = t.at? p.location := by
      rw [at?_remove _ _ (Path.ne_nil_of_not_enters h), if_neg (mt Path.enters_of_location h)]
    simp only [bind, Except.bind, hat]

theorem isThere_remove (h : ¬ p.Enters l) : (t.remove l).isThere p = t.isThere p := by
  rw [isThere, isThere, status_remove h]

theorem isFile_remove (h : ¬ p.Enters l) : (t.remove l).isFile p = t.isFile p := by
  rw [isFile, isFile, status_remove h]

theorem isDirectory_remove (h : ¬ p.Enters l) : (t.remove l).isDirectory p = t.isDirectory p := by
  rw [isDirectory, isDirectory, status_remove h]

theorem read_remove (h : ¬ p.Enters l) : (t.remove l).read p = t.read p := by
  rw [read, read, status_remove h]

/-- A path that enters a location leads to nothing when that has been removed. -/
theorem isThere_remove_of_enters (hl : l ≠ []) (h : p.Enters l) :
    (t.remove l).isThere p = false := by
  obtain ⟨k, hk, hbelow⟩ := h
  have hgone : (t.remove l).at? k = none := by rw [at?_remove _ _ hl, if_pos hbelow]
  rw [Bool.eq_false_iff]
  intro hthere
  obtain ⟨hleads, hne⟩ := isThere_iff.1 hthere
  rcases List.mem_cons.1 hk with rfl | hk
  · exact hne hgone
  · rw [hleads.2 k hk] at hgone
    cases hgone

/-! ## What is below a directory -/

theorem descendants_remove (t : FileTree) (l m : Location) :
    (t.remove l).descendants m = (t.descendants m).filter fun e => !l.isPrefixOf (m ++ e.1) := by
  unfold descendants
  rw [List.filter_filterMap, remove, keep, List.filterMap_filter]
  congr 1
  funext e
  cases hbelow : below? m e.1 with
  | none => simp
  | some names =>
    have he := below?_eq_some_iff.1 hbelow
    cases names with
    | nil => simp
    | cons name rest => simp [he, Option.filter]

theorem childNames_remove (t : FileTree) (l m : Location) :
    (t.remove l).childNames m =
      (t.childNames m).filter fun name => !l.isPrefixOf (m ++ [name]) := by
  unfold childNames
  rw [descendants_remove, List.filterMap_filter, List.filter_filterMap]
  congr 1
  funext e
  obtain ⟨names, e⟩ := e
  cases names with
  | nil => simp
  | cons name rest => cases rest <;> simp [Option.filter]

/-! ## Trees with names of one step -/

/-- Whether each name in a tree is one step of a path: it is not empty, is neither `.` nor `..`, and
has no slash. -/
def IsProper (t : FileTree) : Prop := ∀ e ∈ t.entries, ∀ name ∈ e.1, (Component.normal name).IsStep

theorem IsProper.isStep (h : t.IsProper) {names : Location} {e : Entry}
    (hmem : (names, e) ∈ t.descendants m) {name : String} (hname : name ∈ names) :
    (Component.normal name).IsStep := by
  obtain ⟨hne, he⟩ := mem_descendants.1 hmem
  have hentry := (at?_eq_some_iff (by simp [hne])).1 he
  exact h _ hentry name (List.mem_append_right m hname)

/-! ## Two trees -/

/-- **Whether two trees differ in nothing but what is in a directory**, which may be missing. -/
structure DiffersBelow (t u : FileTree) (l : Location) : Prop where
  same : t.remove l = u.remove l
  left : ∀ text, t.at? l ≠ some (.file text)
  right : ∀ text, u.at? l ≠ some (.file text)

theorem eq_of_entries (h : t.entries = u.entries) : t = u := by
  cases t
  cases u
  simpa using h

/-- What is put into a directory makes no difference elsewhere. -/
theorem remove_put (h : l <+: m) (e : Entry) : (t.put m e).remove l = t.remove l := by
  refine eq_of_entries ?_
  unfold put
  split
  · simp only [remove, keep, List.filter_cons, List.filter_filter]
    rw [if_neg (by simp [List.isPrefixOf_iff_prefix.2 h])]
    refine List.filter_congr fun a _ => ?_
    by_cases ha : a.1 = m
    · simp [ha, List.isPrefixOf_iff_prefix.2 h]
    · simp [ha]
  · rfl

theorem DiffersBelow.refl (h : ∀ text, t.at? l ≠ some (.file text)) : t.DiffersBelow t l :=
  ⟨rfl, h, h⟩

/-- A tree may gain anything in the directory. -/
theorem DiffersBelow.put (h : t.DiffersBelow u l) (hm : l <+: m) {e : Entry}
    (he : m = l → e = .directory) : t.DiffersBelow (u.put m e) l := by
  refine ⟨by rw [h.same, remove_put hm], h.left, fun text => ?_⟩
  by_cases hroom : u.HasRoom m
  · rw [at?_put hroom]
    split
    next heq => simp [he heq.symm]
    next => exact h.right text
  · rw [FileTree.put, dif_neg hroom]
    exact h.right text

end FileTree

end NinjaGen
