import NinjaGen.Proofs.FileTree.Apart

/-!
# Paths that are continued

An absolute path that is continued goes on behind one slash, whether or not it ends in a slash
itself.

* `Path.stem` is the text before that slash (`Path.toList_join`, `Path.pieces_join`).
* `Path.mem_passed_join`: a path that is continued by a name passes what it passed, and the place to
  which it led.
* `FileTree.leads_join_iff`: so a tree lets it be followed when the path leads to a directory, and
  the name and the whole are not too long.
-/

namespace NinjaGen

theorem Location.passed_concat (l : Location) (pieces : List (List Char)) (piece : List Char) :
    passed l (pieces ++ [piece]) = passed l pieces ++ [pieces.foldl next l] := by
  induction pieces generalizing l with
  | nil => rfl
  | cons first rest ih =>
    rw [List.cons_append, passed, ih]
    rfl

namespace Path

variable {p q : Path} {name : String}

/-! ## Texts -/

theorem text_ne_empty_of_isAbsolute (hp : p.isAbsolute = true) : p.text.toList ≠ [] := by
  intro hempty
  simp [isAbsolute, hempty] at hp

/-- The text of a path without a slash at its end. -/
def stem (p : Path) : List Char :=
  if p.text.toList.getLast? = some '/' then p.text.toList.dropLast else p.text.toList

theorem toList_eq_stem (p : Path) :
    p.text.toList = p.stem ∨ p.text.toList = p.stem ++ ['/'] := by
  unfold stem
  split
  next hlast =>
    obtain ⟨front, hfront⟩ := List.getLast?_eq_some_iff.1 hlast
    exact .inr (by rw [hfront, List.dropLast_concat])
  next => exact .inl rfl

theorem stem_sublist (p : Path) : p.stem.Sublist p.text.toList := by
  rcases p.toList_eq_stem with h | h
  · rw [h]
  · rw [h]
    exact List.sublist_append_left _ _

/-- **A relative path goes on behind a slash.** -/
theorem toList_join (hp : p.isAbsolute = true) (hq : q.isAbsolute = false) :
    (p.join q).text.toList = p.stem ++ '/' :: q.text.toList := by
  have hne := text_ne_empty_of_isAbsolute hp
  rw [join, hq, if_neg Bool.false_ne_true, stem]
  split
  next hend =>
    have hlast := hend.resolve_left hne
    obtain ⟨front, hfront⟩ := List.getLast?_eq_some_iff.1 hlast
    rw [if_pos hlast, String.toList_append, hfront, List.dropLast_concat, List.append_assoc]
    rfl
  next hend =>
    rw [not_or] at hend
    rw [if_neg hend.2, String.toList_append, String.toList_append, List.append_assoc]
    rfl

theorem pieces_join (hp : p.isAbsolute = true) (hq : q.isAbsolute = false) :
    (p.join q).pieces = p.stem.splitOn '/' ++ q.pieces := by
  rw [pieces, toList_join hp hq, List.splitOn_append_cons_self]
  rfl

theorem pieces_eq_stem (p : Path) :
    p.pieces = p.stem.splitOn '/' ∨ p.pieces = p.stem.splitOn '/' ++ [[]] := by
  unfold pieces
  rcases p.toList_eq_stem with h | h
  · exact .inl (by rw [h])
  · exact .inr (by rw [h, List.splitOn_append_cons_self, List.splitOn_nil])

theorem pieces_join_name (hp : p.isAbsolute = true) (hname : '/' ∉ name.toList) :
    (p.join ⟨name⟩).pieces = p.stem.splitOn '/' ++ [name.toList] := by
  rw [pieces_join hp (isAbsolute_of_not_mem hname), pieces, List.splitOn_eq_singleton hname]

/-- An empty name leaves nothing but a slash. -/
theorem stem_join (hp : p.isAbsolute = true) (hname : '/' ∉ name.toList) :
    (p.join ⟨name⟩).stem =
      if name.toList = [] then p.stem else p.stem ++ '/' :: name.toList := by
  rw [stem, toList_join hp (isAbsolute_of_not_mem hname)]
  by_cases hempty : name.toList = []
  · simp [hempty]
  · have hlast : (p.stem ++ '/' :: name.toList).getLast? ≠ some '/' := by
      rw [List.append_cons, List.getLast?_append_of_ne_nil _ hempty]
      exact fun h => hname (List.mem_of_getLast? h)
    rw [if_neg hlast, if_neg hempty]

/-! ## What the system has against a path -/

theorem refusal?_eq_none_iff :
    p.refusal? = none ↔ '\x00' ∉ p.text.toList ∧ p.text.utf8ByteSize < pathLimit := by
  unfold refusal?
  by_cases hnull : '\x00' ∈ p.text.toList
  · simp [hnull]
  · by_cases hlong : pathLimit ≤ p.text.utf8ByteSize
    · simp [hnull, hlong]
    · simp [hnull, hlong, not_le.1 hlong]

theorem width_le_of_sublist {cs ds : List Char} (h : cs.Sublist ds) :
    Text.width cs ≤ Text.width ds := by
  induction h with
  | slnil => exact le_rfl
  | cons c _ ih => exact ih.trans (Nat.le_add_left ..)
  | cons_cons c _ ih => exact Nat.add_le_add_left ih _

/-- A path of fewer characters is taken as well. -/
theorem refusal?_of_sublist (h : p.text.toList.Sublist q.text.toList) (hq : q.refusal? = none) :
    p.refusal? = none := by
  rw [refusal?_eq_none_iff] at hq ⊢
  refine ⟨fun hnull => hq.1 (h.subset hnull), lt_of_le_of_lt ?_ hq.2⟩
  rw [← Text.width_toList, ← Text.width_toList]
  exact width_le_of_sublist h

theorem refusal?_of_join (hp : p.isAbsolute = true) (hq : q.isAbsolute = false)
    (h : (p.join q).refusal? = none) : p.refusal? = none := by
  refine refusal?_of_sublist ?_ h
  rw [toList_join hp hq]
  rcases p.toList_eq_stem with htext | htext
  · rw [htext]
    exact List.sublist_append_left _ _
  · rw [htext]
    exact (List.Sublist.refl _).append (List.singleton_sublist.2 List.mem_cons_self)

/-! ## What a path passes -/

/-- A path that is continued by a name passes its own place as well. -/
theorem mem_passed_join (hp : p.isAbsolute = true) (hname : '/' ∉ name.toList) {k : Location} :
    k ∈ (p.join ⟨name⟩).passed ↔ k ∈ p.passed ∨ k = p.location := by
  rw [passed, pieces_join_name hp hname, Location.passed_concat, List.mem_append,
    List.mem_singleton, ← foldl_next_pieces, passed]
  rcases p.pieces_eq_stem with h | h
  · rw [h]
  · have hempty : ∀ l : Location, Location.next l [] = l := fun l => rfl
    rw [h, Location.passed_concat, List.foldl_append, List.foldl_cons, List.foldl_nil, hempty,
      List.mem_append, List.mem_singleton, or_assoc, or_self]

theorem isUsable_join_iff (hp : p.isAbsolute = true) (hname : '/' ∉ name.toList) :
    (p.join ⟨name⟩).IsUsable ↔
      p.IsUsable ∧ isLongName name.toList = false ∧ (p.join ⟨name⟩).refusal? = none := by
  have hne : ∀ q : Path, q.isAbsolute = true → q.text ≠ "" := fun q hq hempty =>
    text_ne_empty_of_isAbsolute hq (by rw [hempty]; rfl)
  have hshort : isLongName [] = false := by decide
  have hpieces : (∀ piece ∈ p.pieces, isLongName piece = false) ↔
      ∀ piece ∈ p.stem.splitOn '/', isLongName piece = false := by
    rcases p.pieces_eq_stem with h | h
    · rw [h]
    · rw [h, List.forall_mem_append, List.forall_mem_singleton, and_iff_left hshort]
  rw [IsUsable, IsUsable, hpieces, pieces_join_name hp hname, List.forall_mem_append,
    List.forall_mem_singleton]
  constructor
  · rintro ⟨hrefusal, -, hfront, hlast⟩
    exact ⟨⟨refusal?_of_join hp (isAbsolute_of_not_mem hname) hrefusal, hne p hp, hfront⟩, hlast,
      hrefusal⟩
  · rintro ⟨⟨-, -, hfront⟩, hlast, hrefusal⟩
    exact ⟨hrefusal, hne _ (isAbsolute_join hp hname), hfront, hlast⟩

end Path

namespace FileTree

variable {t : FileTree} {p : Path} {name : String}

/-- **A path that is continued by a name can be followed** when it leads to a directory, and the
name and the whole are not too long. -/
theorem leads_join_iff (hp : p.isAbsolute = true) (hname : '/' ∉ name.toList) :
    t.Leads (p.join ⟨name⟩) ↔ t.isDirectory p = true ∧ isLongName name.toList = false ∧
      (p.join ⟨name⟩).refusal? = none := by
  rw [isDirectory_iff, Leads, Leads, Path.isUsable_join_iff hp hname]
  simp only [Path.mem_passed_join hp hname, or_imp, forall_and, forall_eq]
  tauto

/-- Another spelling of a path to a directory leads there as well. -/
theorem isDirectory_of_same {q : Path} (hp : p.isAbsolute = true) (hq : q.isAbsolute = true)
    (hsame : p.same q = true) (husable : q.IsUsable) (h : t.isDirectory p = true) :
    t.isDirectory q = true := by
  obtain ⟨⟨-, hpassed⟩, hplace⟩ := isDirectory_iff.1 h
  have hall : ∀ k ∈ q.location :: q.passed, t.at? k = some .directory := by
    intro k hk
    rw [Path.mem_places_iff hq, ← Path.same_iff.1 hsame, ← Path.mem_places_iff hp] at hk
    rcases List.mem_cons.1 hk with rfl | hk
    · exact hplace
    · exact hpassed k hk
  obtain ⟨hplace, hpassed⟩ := List.forall_mem_cons.1 hall
  exact isDirectory_iff.2 ⟨⟨husable, hpassed⟩, hplace⟩

end FileTree

end NinjaGen
