import NinjaGen.Layout
import Mathlib.Data.List.DropRight

/-!
# The components of paths that are put together

Paths are texts, and what is put together of them is put together as text. This module says what
that does to their components.

* A component `IsStep` if it can be one step of a path behind its start: a name, or `..`. The root
  and `.` stand at the start of a path and nowhere else (`Path.exists_steps`).
* `Path.components_join`: a step that is appended is the last component.
* `Path.components_withoutCurrent`, `Path.components_under`: the components of a path without `.`,
  and of a path that is moved below a directory.
* `Path.ending` is the text behind the last slash. What is appended to a path goes on with it
  (`Path.exists_components_appendText`); if it is a name, it goes on with the last component
  (`Path.exists_components_of_endsInName`).
-/

namespace NinjaGen

/-! ## Steps -/

/-- Whether a text between two slashes is a name. -/
def Component.IsName (piece : List Char) : Prop :=
  piece ≠ [] ∧ piece ≠ ['.'] ∧ piece ≠ ['.', '.']

instance (piece : List Char) : Decidable (Component.IsName piece) :=
  inferInstanceAs (Decidable (_ ∧ _))

/-- Whether a component can stand behind others: its text has no slash and means the component. -/
def Component.IsStep (c : Component) : Prop :=
  '/' ∉ c.text.toList ∧ Component.ofPiece? c.text.toList = some c

namespace Component

theorem ofPiece?_of_isName {piece : List Char} (h : IsName piece) :
    Component.ofPiece? piece = some (normal (String.ofList piece)) := by
  obtain ⟨hempty, hdot, hdots⟩ := h
  simp [Component.ofPiece?, hempty, hdot, hdots]

theorem ofPiece?_of_not_isName {piece : List Char} (h : ¬ IsName piece) :
    ofPiece? piece = none ∨ piece = ['.', '.'] := by
  unfold ofPiece?
  split
  · exact .inl rfl
  next hempty =>
    rw [not_or] at hempty
    exact .inr (by_contra fun hdots => h ⟨hempty.1, hempty.2, hdots⟩)

/-- A name with something behind it is a name. -/
theorem IsName.append {piece : List Char} (h : IsName piece) (s : List Char) :
    IsName (piece ++ s) := by
  obtain ⟨hempty, hdot, hdots⟩ := h
  refine ⟨by simp [hempty], fun heq => ?_, fun heq => ?_⟩
  · rcases List.append_eq_singleton_iff.1 heq with ⟨h, -⟩ | ⟨h, -⟩
    · exact hempty h
    · exact hdot h
  · rcases List.append_eq_cons_iff.1 heq with ⟨h, -⟩ | ⟨r, rfl, hr⟩
    · exact hempty h
    · rcases List.append_eq_singleton_iff.1 hr.symm with ⟨rfl, -⟩ | ⟨rfl, -⟩
      · exact hdot rfl
      · exact hdots rfl

/-- A name is one behind a dot as well. -/
theorem IsName.append_left {piece s : List Char} (h : IsName s) (hpiece : ofPiece? piece = none) :
    IsName (piece ++ s) := by
  unfold ofPiece? at hpiece
  split at hpiece
  next hp =>
    rcases hp with rfl | rfl
    · exact h
    · obtain ⟨hempty, hdot, hdots⟩ := h
      simp [IsName, hempty, hdot]
  next => split at hpiece <;> cases hpiece

theorem isStep_normal {name : String} (hslash : '/' ∉ name.toList) (h : IsName name.toList) :
    (normal name).IsStep := by
  refine ⟨hslash, ?_⟩
  rw [text, ofPiece?_of_isName h, String.ofList_toList]

theorem isStep_parent : parent.IsStep := by
  refine ⟨?_, ?_⟩ <;> decide

/-- The name of a step. -/
theorem IsStep.isName {name : String} (h : (normal name).IsStep) : IsName name.toList := by
  obtain ⟨-, h⟩ := h
  rw [text, ofPiece?] at h
  split at h
  · cases h
  next hempty =>
    split at h
    · cases h
    next hdots => exact ⟨fun he => hempty (.inl he), fun he => hempty (.inr he), hdots⟩

theorem isStep_of_ofPiece? {piece : List Char} (hslash : '/' ∉ piece) {c : Component}
    (h : ofPiece? piece = some c) : c.IsStep := by
  by_cases hn : IsName piece
  · rw [ofPiece?_of_isName hn] at h
    cases h
    exact isStep_normal (by simpa using hslash) (by simpa using hn)
  · rcases ofPiece?_of_not_isName hn with hnone | rfl
    · rw [hnone] at h
      cases h
    · cases h
      exact isStep_parent

end Component

namespace Path

open Component

/-! ## Texts between slashes -/

theorem slash_not_mem_of_mem_splitOn {cs piece : List Char} (h : piece ∈ cs.splitOn '/') :
    '/' ∉ piece := by
  induction cs generalizing piece with
  | nil =>
    rw [List.splitOn_nil, List.mem_singleton] at h
    simp [h]
  | cons c r ih =>
    obtain ⟨first, rest, hsplit⟩ := List.exists_cons_of_ne_nil (List.splitOn_ne_nil '/' r)
    rw [List.splitOn_cons_eq_if_modifyHead, hsplit] at h
    rw [hsplit] at ih
    split at h
    · rcases List.mem_cons.1 h with rfl | h
      · exact List.not_mem_nil
      · exact ih h
    next hc =>
      rw [List.modifyHead_cons] at h
      rcases List.mem_cons.1 h with rfl | h
      · have hslash : '/' ≠ c := fun heq => hc (heq ▸ beq_self_eq_true c)
        exact List.not_mem_cons_of_ne_of_not_mem hslash (ih List.mem_cons_self)
      · exact ih (List.mem_cons_of_mem first h)

theorem isStep_of_mem_filterMap {pieces : List (List Char)} (h : ∀ piece ∈ pieces, '/' ∉ piece) :
    ∀ c ∈ pieces.filterMap ofPiece?, c.IsStep := by
  intro c hc
  obtain ⟨piece, hp, hpiece⟩ := List.mem_filterMap.1 hc
  exact isStep_of_ofPiece? (h piece hp) hpiece

/-- What a path starts with, given the text before its first slash. -/
def start (p : Path) (first : List Char) : List Component :=
  if p.isAbsolute then [.root]
  else if first = ['.'] then [.current]
  else (ofPiece? first).toList

theorem components_eq {p : Path} {first : List Char} {rest : List (List Char)}
    (h : p.pieces = first :: rest) : p.components = p.start first ++ rest.filterMap ofPiece? := by
  unfold components start
  split
  next habs =>
    have hfirst : first = [] := by
      cases htext : p.text.toList with
      | nil => simp [isAbsolute, htext] at habs
      | cons c r =>
        have hc : c = '/' := by simpa [isAbsolute, htext] using habs
        subst hc
        rw [pieces, htext, List.splitOn_cons_eq_if_modifyHead, if_pos (by decide)] at h
        exact (List.cons.inj h).1.symm
    subst hfirst
    rw [h]
    rfl
  · split
    next heq =>
      obtain ⟨rfl, rfl⟩ := List.cons.inj (heq.symm.trans h)
      rfl
    next hdot =>
      have hfirst : first ≠ ['.'] := fun heq => hdot rest (heq ▸ h)
      rw [if_neg hfirst, h]
      cases hc : ofPiece? first <;> simp [hc]

/-- **The root and `.` stand only at the start of a path.** -/
theorem exists_steps (p : Path) :
    ∃ start steps, p.components = start ++ steps ∧ (∀ c ∈ steps, c.IsStep) ∧
      (start = [] ∨ start = [.root] ∨ start = [.current]) := by
  have hpieces : ∀ piece ∈ p.pieces, '/' ∉ piece := fun _ => slash_not_mem_of_mem_splitOn
  unfold components
  split
  · exact ⟨[.root], _, rfl, isStep_of_mem_filterMap hpieces, .inr (.inl rfl)⟩
  · split
    next rest heq =>
      refine ⟨[.current], _, rfl, isStep_of_mem_filterMap fun piece hp => ?_, .inr (.inr rfl)⟩
      exact hpieces piece (heq ▸ List.mem_cons_of_mem _ hp)
    next => exact ⟨[], _, rfl, isStep_of_mem_filterMap hpieces, .inl rfl⟩

theorem isStep_of_mem_components {p : Path} {c : Component} (h : c ∈ p.components)
    (hroot : c ≠ .root) (hcurrent : c ≠ .current) : c.IsStep := by
  obtain ⟨start, steps, heq, hsteps, hstart⟩ := p.exists_steps
  rw [heq, List.mem_append] at h
  rcases h with h | h
  · rcases hstart with rfl | rfl | rfl
    · cases h
    · exact absurd (List.mem_singleton.1 h) hroot
    · exact absurd (List.mem_singleton.1 h) hcurrent
  · exact hsteps c h

/-- The components of a text whose last slash stands before `last`. -/
theorem components_append_slash (front : List Char) {last : List Char} (h : '/' ∉ last) :
    (Path.mk (String.ofList (front ++ '/' :: last))).components =
      (Path.mk (String.ofList (front ++ ['/']))).components ++ (ofPiece? last).toList := by
  obtain ⟨first, rest, hsplit⟩ := List.exists_cons_of_ne_nil (List.splitOn_ne_nil '/' front)
  have hpieces : ∀ piece : List Char, '/' ∉ piece →
      (Path.mk (String.ofList (front ++ '/' :: piece))).pieces = first :: (rest ++ [piece]) := by
    intro piece hpiece
    rw [pieces, String.toList_ofList, List.splitOn_append_cons_self, hsplit,
      List.splitOn_eq_singleton hpiece]
    rfl
  have hstart : (Path.mk (String.ofList (front ++ '/' :: last))).start first =
      (Path.mk (String.ofList (front ++ ['/']))).start first := by
    cases front <;> simp [start, isAbsolute]
  have hlast : [last].filterMap ofPiece? = (ofPiece? last).toList := by
    cases hl : ofPiece? last <;> simp [hl]
  rw [components_eq (hpieces last h), components_eq (hpieces [] List.not_mem_nil), hstart,
    List.filterMap_append, List.filterMap_append, hlast]
  simp [ofPiece?]

/-- A slash at the end of a path means nothing. -/
theorem components_append_singleton {cs : List Char} (h : cs ≠ []) :
    (Path.mk (String.ofList (cs ++ ['/']))).components =
      (Path.mk (String.ofList cs)).components := by
  obtain ⟨first, rest, hsplit⟩ := List.exists_cons_of_ne_nil (List.splitOn_ne_nil '/' cs)
  have hp : (Path.mk (String.ofList (cs ++ ['/']))).pieces = first :: (rest ++ [[]]) := by
    rw [pieces, String.toList_ofList, List.splitOn_append_cons_self, hsplit, List.splitOn_nil]
    rfl
  have hq : (Path.mk (String.ofList cs)).pieces = first :: rest := by
    rw [pieces, String.toList_ofList, hsplit]
  have hstart : (Path.mk (String.ofList (cs ++ ['/']))).start first =
      (Path.mk (String.ofList cs)).start first := by
    cases cs with
    | nil => exact absurd rfl h
    | cons => simp [start, isAbsolute]
  rw [components_eq hp, components_eq hq, hstart, List.filterMap_append]
  simp [ofPiece?]

/-- The components of a text without slashes. -/
theorem components_of_not_mem {cs : List Char} (hslash : '/' ∉ cs) (hdot : cs ≠ ['.']) :
    (Path.mk (String.ofList cs)).components = (ofPiece? cs).toList := by
  have hpieces : (Path.mk (String.ofList cs)).pieces = cs :: [] := by
    rw [pieces, String.toList_ofList, List.splitOn_eq_singleton hslash]
  have habs : (Path.mk (String.ofList cs)).isAbsolute = false := by
    cases cs with
    | nil => rfl
    | cons c r =>
      have hc : c ≠ '/' := fun heq => hslash (heq ▸ List.mem_cons_self)
      simp [isAbsolute, hc]
  rw [components_eq hpieces, start, habs, if_neg (by simp), if_neg hdot]
  simp

/-! ## Steps that are appended -/

/-- A text without slashes that is joined to a path stands behind a slash, unless the path is
empty. -/
theorem exists_join (p : Path) {text : String} (h : '/' ∉ text.toList) :
    (p.text = "" ∧ p.join ⟨text⟩ = ⟨text⟩) ∨
      ∃ front, p.join ⟨text⟩ = ⟨String.ofList (front ++ '/' :: text.toList)⟩ ∧
        (Path.mk (String.ofList (front ++ ['/']))).components = p.components := by
  have habs : (Path.mk text).isAbsolute = false := by
    cases htext : text.toList with
    | nil => simp [isAbsolute, htext]
    | cons a r =>
      rw [htext] at h
      have ha : a ≠ '/' := fun heq => h (heq ▸ List.mem_cons_self)
      simp [isAbsolute, htext, ha]
  obtain ⟨start⟩ := p
  rw [join, habs, if_neg (by simp)]
  split
  next hend =>
    rcases hend with hempty | hend
    · obtain rfl : start = "" := by simpa using hempty
      exact .inl ⟨rfl, congrArg Path.mk String.empty_append⟩
    · obtain ⟨front, hfront⟩ := List.getLast?_eq_some_iff.1 hend
      obtain rfl : start = String.ofList (front ++ ['/']) := by
        rw [← hfront, String.ofList_toList]
      refine .inr ⟨front, congrArg Path.mk ?_, rfl⟩
      rw [← String.toList_inj]
      simp
  next hend =>
    rw [not_or] at hend
    refine .inr ⟨start.toList, congrArg Path.mk ?_, ?_⟩
    · rw [← String.toList_inj]
      simp
    · rw [components_append_singleton hend.1, String.ofList_toList]

theorem components_join {p : Path} {c : Component} (h : c.IsStep) :
    (p.join ⟨c.text⟩).components = p.components ++ [c] := by
  obtain ⟨hslash, hpiece⟩ := h
  have hlast : (ofPiece? c.text.toList).toList = [c] := by rw [hpiece]; rfl
  rcases p.exists_join hslash with ⟨hempty, hjoin⟩ | ⟨front, hjoin, hfront⟩
  · have hdot : c.text.toList ≠ ['.'] := fun heq => by simp [heq, ofPiece?] at hpiece
    have hp : p.components = [] := by
      obtain ⟨text⟩ := p
      obtain rfl : text = "" := hempty
      decide
    have hcomponents := components_of_not_mem hslash hdot
    rw [String.ofList_toList] at hcomponents
    rw [hjoin, hcomponents, hlast, hp, List.nil_append]
  · rw [hjoin, components_append_slash front hslash, hlast, hfront]

theorem components_join_normal {p : Path} {name : String} (h : (Component.normal name).IsStep) :
    (p.join ⟨name⟩).components = p.components ++ [.normal name] :=
  components_join (c := .normal name) h

theorem components_foldl_join {p : Path} {cs : List Component} (h : ∀ c ∈ cs, c.IsStep) :
    (cs.foldl (fun p c => p.join ⟨c.text⟩) p).components = p.components ++ cs := by
  induction cs generalizing p with
  | nil => simp
  | cons c r ih =>
    obtain ⟨hc, hr⟩ := List.forall_mem_cons.1 h
    rw [List.foldl_cons, ih hr, components_join hc, List.append_assoc, List.singleton_append]

/-! ## Paths without `.` -/

theorem components_ofComponents {start steps : List Component} (hsteps : ∀ c ∈ steps, c.IsStep)
    (hstart : start = [] ∨ start = [.root]) :
    (ofComponents (start ++ steps)).components = start ++ steps := by
  have hempty : (Path.mk "").components = [] := by decide
  have hroot : ((Path.mk "").join ⟨Component.root.text⟩).components = [.root] := by decide
  rcases hstart with rfl | rfl
  · rw [List.nil_append, ofComponents, components_foldl_join hsteps, hempty, List.nil_append]
  · rw [ofComponents, List.singleton_append, List.foldl_cons, components_foldl_join hsteps, hroot]
    rfl

/-- The components of a path without `.` are those that a path without `.` has. -/
theorem exists_steps_filter (p : Path) :
    ∃ start steps, p.components.filter (· ≠ .current) = start ++ steps ∧
      (∀ c ∈ steps, c.IsStep) ∧ (start = [] ∨ start = [.root]) := by
  obtain ⟨start, steps, heq, hsteps, hstart⟩ := p.exists_steps
  have hcurrent : ∀ c ∈ steps, decide (c ≠ .current) = true := by
    intro c hc
    refine decide_eq_true fun hcur => ?_
    have := (hsteps c hc).2
    rw [hcur] at this
    exact absurd this (ofPiece?_ne_current _)
  rw [heq, List.filter_append, List.filter_eq_self.2 hcurrent]
  rcases hstart with rfl | rfl | rfl
  · exact ⟨[], steps, rfl, hsteps, .inl rfl⟩
  · exact ⟨[.root], steps, rfl, hsteps, .inr rfl⟩
  · exact ⟨[], steps, rfl, hsteps, .inl rfl⟩

theorem components_withoutCurrent (p : Path) :
    p.withoutCurrent.components = p.components.filter (· ≠ .current) := by
  obtain ⟨start, steps, heq, hsteps, hstart⟩ := p.exists_steps_filter
  rw [withoutCurrent, heq, components_ofComponents hsteps hstart]

/-! ## Paths below a directory -/

/-- What stands for a component in a path that continues a directory. -/
def descended : Component → Option Component
  | .root | .current => none
  | .parent => some (.normal "__")
  | .normal name => some (.normal name)

/-- Only names stand for components. -/
theorem exists_name_of_mem_descended {cs : List Component} {c : Component}
    (h : c ∈ cs.filterMap descended) : ∃ name, c = .normal name := by
  obtain ⟨d, -, hd⟩ := List.mem_filterMap.1 h
  cases d with
  | root | current => cases hd
  | parent | normal =>
    cases hd
    exact ⟨_, rfl⟩

theorem foldl_descend (cs : List Component) (dir : Path) :
    cs.foldl descend dir = (cs.filterMap descended).foldl (fun p c => p.join ⟨c.text⟩) dir := by
  induction cs generalizing dir with
  | nil => rfl
  | cons c r ih =>
    cases c with
    | root | current => exact ih dir
    | parent | normal => exact ih _

theorem isStep_of_mem_descended {p : Path} :
    ∀ c ∈ p.components.filterMap descended, c.IsStep := by
  intro d hd
  obtain ⟨c, hc, hdesc⟩ := List.mem_filterMap.1 hd
  cases c with
  | root | current => cases hdesc
  | parent =>
    cases hdesc
    exact isStep_normal (by decide) (by decide)
  | normal name =>
    cases hdesc
    exact isStep_of_mem_components hc nofun nofun

/-- **The components of a path that is moved below a directory**: those without `.` if they start
with the directory, and otherwise those of the directory and what they become behind it. -/
theorem components_under (p dir : Path) :
    (p.under dir).components =
      if dir.components <+: p.withoutCurrent.components then p.withoutCurrent.components
      else dir.components ++ p.withoutCurrent.components.filterMap descended := by
  unfold under
  by_cases h : dir.components <+: p.withoutCurrent.components
  · rw [if_pos (startsWith_iff.2 h), if_pos h]
  · rw [if_neg (mt startsWith_iff.1 h), if_neg h, foldl_descend,
      components_foldl_join isStep_of_mem_descended]

/-- A path that is moved below a directory starts with it. -/
theorem startsWith_under (p dir : Path) : (p.under dir).startsWith dir = true := by
  rw [startsWith_iff, components_under]
  split
  · assumption
  · exact List.prefix_append _ _

/-! ## The text behind the last slash -/

/-- The text behind the last slash. -/
def ending (p : Path) : List Char := p.text.toList.rtakeWhile (· ≠ '/')

/-- Whether the text behind the last slash is a name. -/
def EndsInName (p : Path) : Prop := IsName p.ending

instance (p : Path) : Decidable p.EndsInName := inferInstanceAs (Decidable (IsName _))

theorem ending_append_slash (front : List Char) {last : List Char} (h : '/' ∉ last) :
    (Path.mk (String.ofList (front ++ '/' :: last))).ending = last := by
  have hlast : ∀ c ∈ last.reverse, decide (c ≠ '/') = true := fun c hc =>
    decide_eq_true fun heq => h (heq ▸ List.mem_reverse.1 hc)
  have hreverse : (front ++ '/' :: last).reverse = last.reverse ++ '/' :: front.reverse := by simp
  rw [ending, String.toList_ofList, List.rtakeWhile, hreverse,
    List.takeWhile_append_of_pos hlast, List.takeWhile_cons_of_neg (by simp), List.append_nil,
    List.reverse_reverse]

theorem ending_of_not_mem {cs : List Char} (h : '/' ∉ cs) :
    (Path.mk (String.ofList cs)).ending = cs := by
  rw [ending, String.toList_ofList, List.rtakeWhile_eq_self_iff]
  exact fun c hc => decide_eq_true fun heq => h (heq ▸ hc)

/-- A path is its ending, behind a slash if there is any. -/
theorem exists_front (p : Path) :
    '/' ∉ p.ending ∧ (p = ⟨String.ofList p.ending⟩ ∨
      ∃ front, p = ⟨String.ofList (front ++ '/' :: p.ending)⟩) := by
  obtain ⟨text⟩ := p
  by_cases h : '/' ∈ text.toList
  · obtain ⟨last, front, heq, hlast⟩ :=
      List.eq_append_cons_of_mem (List.mem_reverse.2 h)
    have htext : text = String.ofList (front.reverse ++ '/' :: last.reverse) := by
      rw [← String.toList_inj, ← List.reverse_inj, heq]
      simp
    have hslash : '/' ∉ last.reverse := mt List.mem_reverse.1 hlast
    rw [htext, ending_append_slash _ hslash]
    exact ⟨hslash, .inr ⟨_, rfl⟩⟩
  · have hend := ending_of_not_mem h
    rw [String.ofList_toList] at hend
    rw [hend]
    exact ⟨h, .inl (by rw [String.ofList_toList])⟩

theorem ending_join (p : Path) {c : Component} (h : c.IsStep) :
    (p.join ⟨c.text⟩).ending = c.text.toList := by
  rcases p.exists_join h.1 with ⟨-, hjoin⟩ | ⟨front, hjoin, -⟩
  · have hend := ending_of_not_mem h.1
    rwa [String.ofList_toList, ← hjoin] at hend
  · rw [hjoin, ending_append_slash front h.1]

/-- What is appended to a path goes on with the text behind its last slash. -/
theorem exists_components_appendText (p : Path) :
    ∃ front, (p.components = [.current] ∨ p.components = front ++ (ofPiece? p.ending).toList) ∧
      ∀ s : String, '/' ∉ s.toList → p.ending ++ s.toList ≠ ['.'] →
        (p.appendText s).components = front ++ (ofPiece? (p.ending ++ s.toList)).toList := by
  obtain ⟨hslash, hp | ⟨cs, hp⟩⟩ := p.exists_front
  · refine ⟨[], ?_, fun s hs hdot => ?_⟩
    · by_cases hdot : p.ending = ['.']
      · left
        rw [hp, hdot]
        decide
      · right
        rw [List.nil_append, ← components_of_not_mem hslash hdot, ← hp]
    · have happend : p.appendText s = ⟨String.ofList (p.ending ++ s.toList)⟩ := by
        conv_lhs => rw [hp]
        rw [appendText, String.ofList_append, String.ofList_toList]
      rw [happend, List.nil_append, components_of_not_mem (by simp [hslash, hs]) hdot]
  · refine ⟨(Path.mk (String.ofList (cs ++ ['/']))).components, .inr ?_, fun s hs _ => ?_⟩
    · rw [← components_append_slash cs hslash, ← hp]
    · have happend : p.appendText s = ⟨String.ofList (cs ++ '/' :: (p.ending ++ s.toList))⟩ := by
        conv_lhs => rw [hp]
        refine congrArg Path.mk ?_
        rw [← String.toList_inj]
        simp
      rw [happend, components_append_slash cs (by simp [hslash, hs])]

/-- **What is appended to a path that ends in a name goes on with its last component.** -/
theorem exists_components_of_endsInName {p : Path} (h : p.EndsInName) :
    ∃ front, p.components = front ++ [.normal (String.ofList p.ending)] ∧
      ∀ s : String, '/' ∉ s.toList →
        (p.appendText s).components = front ++ [.normal (String.ofList p.ending ++ s)] := by
  obtain ⟨front, hp, happend⟩ := p.exists_components_appendText
  have hname : ∀ s : List Char, ofPiece? (p.ending ++ s) =
      some (.normal (String.ofList (p.ending ++ s))) := fun s => ofPiece?_of_isName (h.append s)
  have hself := hname []
  rw [List.append_nil] at hself
  refine ⟨front, ?_, fun s hs => ?_⟩
  · rcases hp with hp | hp
    · have hdot : p.ending ≠ ['.'] := h.2.1
      have := happend "" List.not_mem_nil (by simpa using hdot)
      simpa [appendText, hself] using this
    · rw [hp, hself]
      rfl
  · rw [happend s hs (h.append s.toList).2.1, hname, String.ofList_append, String.ofList_toList]
    rfl

/-- What is appended to a path that ends in a slash or in `/.` is a component of its own. -/
theorem components_appendText_of_not_endsInName {p : Path} (h : ¬ p.EndsInName)
    (hcurrent : .current ∉ p.components) (hparent : .parent ∉ p.components) {s : String}
    (hs : IsName s.toList) (hslash : '/' ∉ s.toList) :
    (p.appendText s).components =
      p.components ++ [.normal (String.ofList (p.ending ++ s.toList))] := by
  obtain ⟨front, hp, happend⟩ := p.exists_components_appendText
  rcases hp with hp | hp
  · exact absurd (hp ▸ List.mem_singleton_self _) hcurrent
  · rcases ofPiece?_of_not_isName h with hnone | hdots
    · rw [hnone, Option.toList_none, List.append_nil] at hp
      have hname : IsName (p.ending ++ s.toList) := hs.append_left hnone
      rw [happend s hslash hname.2.1, hp, ofPiece?_of_isName hname]
      rfl
    · rw [hdots] at hp
      exact absurd (hp ▸ List.mem_append_right front (by decide)) hparent

/-- A path that leads to a name ends in it when it is moved below a directory. -/
theorem ending_under {p : Path} {init : List Component} {name : String}
    (h : p.components = init ++ [.normal name]) (dir : Path) :
    (p.under dir).ending = name.toList := by
  have hmem : Component.normal name ∈ p.components := h ▸ List.mem_append_right init (by simp)
  have hstep : (Component.normal name).IsStep := isStep_of_mem_components hmem nofun nofun
  have hfilter : p.components.filter (· ≠ .current) =
      init.filter (· ≠ .current) ++ [.normal name] := by
    rw [h, List.filter_append]
    rfl
  have hlast : ∀ (q : Path) (cs : List Component),
      ((cs ++ [Component.normal name]).foldl (fun (p : Path) c => p.join ⟨c.text⟩) q).ending =
        name.toList := by
    intro q cs
    rw [List.foldl_append]
    exact ending_join _ hstep
  simp only [under]
  split
  · rw [withoutCurrent, hfilter]
    exact hlast _ _
  · have hdescended : [Component.normal name].filterMap descended = [.normal name] := rfl
    rw [foldl_descend, components_withoutCurrent, hfilter, List.filterMap_append, hdescended]
    exact hlast _ _

end Path

end NinjaGen
