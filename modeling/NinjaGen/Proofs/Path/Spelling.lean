import NinjaGen.Proofs.Path.Components

/-!
# Spellings of a path

A path can be spelled in many ways: `.` and slashes that are repeated or stand at the end mean
nothing, apart from the `.` at its start. Its plain spelling has none of these.

* `Path.Respells` says of two texts that they differ at most in these, and `Path.plain` is the plain
  spelling, both of them read off the texts alone.
* `Path.withoutCurrent_eq`: a path that is respelled from its components is the plain spelling.
* `Path.IsPlain` says that a path is spelled plainly. What is put together of plain paths and names
  is plain (`IsPlain.join`, `IsPlain.appendText`, `IsPlain.under`).
* `Path.under_under`: a path that is moved below a plain directory stays there.
-/

namespace NinjaGen

namespace Path

open Component

/-! ## The plain spelling -/

/-- Whether a text between slashes counts, as an empty one and `.` do not. -/
def Counts (piece : List Char) : Prop := piece ≠ [] ∧ piece ≠ ['.']

instance (piece : List Char) : Decidable (Counts piece) := inferInstanceAs (Decidable (_ ∧ _))

/-- The texts between slashes that count. -/
def words (p : Path) : List (List Char) := p.pieces.filter Counts

/-- Whether two paths differ at most in `.` and in slashes that are repeated or stand at the end. -/
def Respells (p q : Path) : Prop := p.isAbsolute = q.isAbsolute ∧ p.words = q.words

instance (p q : Path) : Decidable (p.Respells q) := inferInstanceAs (Decidable (_ ∧ _))

/-- The path spelled without `.` and without slashes that mean nothing. -/
def plain (p : Path) : Path :=
  ⟨(if p.isAbsolute then "/" else "") ++ "/".intercalate (p.words.map String.ofList)⟩

theorem Respells.plain_eq {p q : Path} (h : p.Respells q) : p.plain = q.plain := by
  rw [plain, plain, h.1, h.2]

/-- What counts is the text of the component that it stands for. -/
theorem map_text_filterMap (pieces : List (List Char)) :
    (pieces.filterMap ofPiece?).map (·.text.toList) = pieces.filter Counts := by
  induction pieces with
  | nil => rfl
  | cons piece r ih =>
    by_cases hcounts : Counts piece
    · obtain ⟨c, hc, htext⟩ : ∃ c, ofPiece? piece = some c ∧ c.text.toList = piece := by
        unfold ofPiece?
        rw [if_neg (not_or.2 hcounts)]
        split
        next hdots => exact ⟨_, rfl, hdots.symm⟩
        next => exact ⟨_, rfl, String.toList_ofList⟩
      rw [List.filterMap_cons_some hc, List.map_cons, ih, htext]
      exact (List.filter_cons_of_pos (by simpa using hcounts)).symm
    · have hnone : ofPiece? piece = none := by
        rw [Counts, not_and_or, not_not, not_not] at hcounts
        rw [ofPiece?, if_pos hcounts]
      rw [List.filterMap_cons_none hnone, ih]
      exact (List.filter_cons_of_neg (by simpa using hcounts)).symm

/-- The components of a path without `.` are what its pieces stand for, behind the root if it is
absolute. -/
theorem filter_components (p : Path) :
    p.components.filter (· ≠ .current) =
      (if p.isAbsolute then [.root] else []) ++ p.pieces.filterMap ofPiece? := by
  have hkeep : ∀ pieces : List (List Char),
      (pieces.filterMap ofPiece?).filter (· ≠ .current) = pieces.filterMap ofPiece? := by
    intro pieces
    refine List.filter_eq_self.2 fun c hc => decide_eq_true fun hcurrent => ?_
    obtain ⟨piece, -, hpiece⟩ := List.mem_filterMap.1 hc
    exact ofPiece?_ne_current piece (hcurrent ▸ hpiece)
  unfold components
  split
  · rw [List.filter_cons_of_pos (by decide), hkeep]
    rfl
  · split
    next rest heq =>
      have hdot : ofPiece? ['.'] = none := by decide
      rw [List.filter_cons_of_neg (by decide), hkeep, heq, List.filterMap_cons_none hdot]
      rfl
    next => exact hkeep _

theorem text_ne_nil {c : Component} (h : c.IsStep) : c.text.toList ≠ [] := by
  intro hempty
  have hpiece := h.2
  rw [hempty] at hpiece
  cases hpiece

theorem getLast?_append_text (front : List Char) {c : Component} (h : c.IsStep) :
    (front ++ c.text.toList).getLast? ≠ some '/' := by
  rw [List.getLast?_append_of_ne_nil _ (text_ne_nil h)]
  exact fun hlast => h.1 (List.mem_of_getLast? hlast)

theorem isAbsolute_text {c : Component} (h : c.IsStep) : (Path.mk c.text).isAbsolute = false := by
  rw [isAbsolute, decide_eq_false_iff_not]
  exact fun hhead => h.1 (List.mem_of_mem_head? hhead)

/-- Steps that continue a path that does not end in a slash stand behind a slash each. -/
theorem toList_foldl_join {p : Path} (hempty : p.text.toList ≠ [])
    (hslash : p.text.toList.getLast? ≠ some '/') {cs : List Component} (h : ∀ c ∈ cs, c.IsStep) :
    (cs.foldl (fun p c => p.join ⟨c.text⟩) p).text.toList =
      p.text.toList ++ cs.flatMap fun c => '/' :: c.text.toList := by
  induction cs generalizing p with
  | nil => simp
  | cons c r ih =>
    obtain ⟨hc, hr⟩ := List.forall_mem_cons.1 h
    have hjoin : (p.join ⟨c.text⟩).text.toList = p.text.toList ++ '/' :: c.text.toList := by
      rw [join, isAbsolute_text hc, if_neg (by simp), if_neg (by simp [hempty, hslash])]
      simp
    have hlast : (p.join ⟨c.text⟩).text.toList.getLast? ≠ some '/' := by
      rw [hjoin, ← List.singleton_append, ← List.append_assoc]
      exact getLast?_append_text _ hc
    rw [List.foldl_cons, ih (by simp [hjoin]) hlast hr, hjoin]
    simp

theorem intercalate_cons (piece : List Char) (r : List (List Char)) :
    ['/'].intercalate (piece :: r) = piece ++ r.flatMap ('/' :: ·) := by
  induction r generalizing piece with
  | nil => simp
  | cons next r ih => simp [List.intercalate_cons_cons, ih]

/-- The text of a path that goes through components. -/
theorem toList_ofComponents {start steps : List Component} (hsteps : ∀ c ∈ steps, c.IsStep)
    (hstart : start = [] ∨ start = [.root]) :
    (ofComponents (start ++ steps)).text.toList =
      (if start = [] then [] else ['/']) ++ ['/'].intercalate (steps.map (·.text.toList)) := by
  have hroot : (Path.mk "").join ⟨Component.root.text⟩ = ⟨"/"⟩ := by decide
  cases steps with
  | nil => rcases hstart with rfl | rfl <;> decide
  | cons c r =>
    obtain ⟨hc, hr⟩ := List.forall_mem_cons.1 hsteps
    -- The first step follows the start at once, and every other one a slash.
    have hfirst : ∀ front, front = [] ∨ front = ['/'] →
        ((Path.mk (String.ofList front)).join ⟨c.text⟩).text.toList = front ++ c.text.toList := by
      rintro front (rfl | rfl) <;> simp [join, isAbsolute_text hc]
    have hrest : ∀ front, front = [] ∨ front = ['/'] →
        (r.foldl (fun p c => p.join ⟨c.text⟩)
          ((Path.mk (String.ofList front)).join ⟨c.text⟩)).text.toList =
          front ++ ['/'].intercalate ((c :: r).map (·.text.toList)) := by
      intro front hfront
      have htext := hfirst front hfront
      rw [toList_foldl_join (by simp [htext, text_ne_nil hc])
        (by rw [htext]; exact getLast?_append_text front hc) hr, htext, List.map_cons,
        intercalate_cons, List.flatMap_map, List.append_assoc]
    rcases hstart with rfl | rfl
    · exact hrest [] (.inl rfl)
    · rw [ofComponents, List.singleton_append, List.foldl_cons, hroot, List.foldl_cons]
      exact hrest ['/'] (.inr rfl)

/-- **A path that is respelled from its components without `.`** is spelled plainly. -/
theorem withoutCurrent_eq (p : Path) : p.withoutCurrent = p.plain := by
  have hsteps : ∀ c ∈ p.pieces.filterMap ofPiece?, c.IsStep :=
    isStep_of_mem_filterMap fun _ => slash_not_mem_of_mem_splitOn
  have hstart : (if p.isAbsolute then [Component.root] else []) = [] ∨
      (if p.isAbsolute then [Component.root] else []) = [.root] := by
    split
    · exact .inr rfl
    · exact .inl rfl
  have htext : p.withoutCurrent.text = p.plain.text := by
    rw [← String.toList_inj, withoutCurrent, filter_components, toList_ofComponents hsteps hstart,
      map_text_filterMap, plain, String.toList_append, String.toList_intercalate, List.map_map]
    cases p.isAbsolute <;> simp [words, Function.comp_def]
  exact congrArg Path.mk htext

/-! ## Plain paths -/

/-- Whether a path is spelled plainly. -/
def IsPlain (p : Path) : Prop := p.withoutCurrent = p

/-- A plain path goes through steps, and through the root before them or not. -/
theorem isPlain_iff {p : Path} :
    p.IsPlain ↔ ∃ start steps, (∀ c ∈ steps, c.IsStep) ∧ (start = [] ∨ start = [.root]) ∧
      p = ofComponents (start ++ steps) := by
  constructor
  · intro h
    obtain ⟨start, steps, heq, hsteps, hstart⟩ := p.exists_steps_filter
    exact ⟨start, steps, hsteps, hstart, by rw [← heq]; exact h.symm⟩
  · rintro ⟨start, steps, hsteps, hstart, rfl⟩
    have hkeep : (start ++ steps).filter (· ≠ .current) = start ++ steps := by
      refine List.filter_eq_self.2 fun c hc => decide_eq_true fun hcurrent => ?_
      subst hcurrent
      rcases List.mem_append.1 hc with hc | hc
      · rcases hstart with rfl | rfl <;> simp at hc
      · exact absurd (hsteps _ hc).2 (ofPiece?_ne_current _)
    rw [IsPlain, withoutCurrent, components_ofComponents hsteps hstart, hkeep]

theorem isPlain_withoutCurrent (p : Path) : p.withoutCurrent.IsPlain := by
  obtain ⟨start, steps, heq, hsteps, hstart⟩ := p.exists_steps_filter
  exact isPlain_iff.2 ⟨start, steps, hsteps, hstart, by rw [withoutCurrent, heq]⟩

theorem ofComponents_append (cs : List Component) (c : Component) :
    ofComponents (cs ++ [c]) = (ofComponents cs).join ⟨c.text⟩ :=
  List.foldl_concat ..

/-- What is appended behind a step that has been joined can be appended to the step before. -/
theorem appendText_join (p : Path) {c : Component} (hc : c.IsStep) (s : String) :
    (p.join ⟨c.text⟩).appendText s = p.join ⟨c.text ++ s⟩ := by
  have habs : (Path.mk (c.text ++ s)).isAbsolute = false := by
    have hhead : (c.text ++ s).toList.head? = c.text.toList.head? := by
      rw [String.toList_append, List.head?_append_of_ne_nil _ (text_ne_nil hc)]
    rw [isAbsolute, hhead]
    exact isAbsolute_text hc
  rw [join, join, isAbsolute_text hc, habs, if_neg Bool.false_ne_true, if_neg Bool.false_ne_true]
  split <;> simp only [appendText, String.append_assoc]

/-- A step goes on as a name. -/
theorem isName_text_append {c : Component} (hc : c.IsStep) {s : List Char} (hs : IsName s) :
    IsName (c.text.toList ++ s) := by
  cases c with
  | root => exact absurd (List.mem_singleton_self '/') hc.1
  | current => exact absurd hc.2 (by decide)
  | parent =>
    obtain ⟨a, r, rfl⟩ := List.exists_cons_of_ne_nil hs.1
    exact ⟨nofun, nofun, nofun⟩
  | normal name => exact hc.isName.append s

namespace IsPlain

variable {p dir : Path}

/-- A plain path that is continued by a step is plain. -/
theorem join (h : p.IsPlain) {c : Component} (hc : c.IsStep) : (p.join ⟨c.text⟩).IsPlain := by
  obtain ⟨start, steps, hsteps, hstart, rfl⟩ := isPlain_iff.1 h
  refine isPlain_iff.2 ⟨start, steps ++ [c], ?_, hstart, ?_⟩
  · exact List.forall_mem_append.2 ⟨hsteps, List.forall_mem_singleton.2 hc⟩
  · rw [← List.append_assoc, ofComponents_append]

theorem join_normal (h : p.IsPlain) {name : String} (hname : (Component.normal name).IsStep) :
    (p.join ⟨name⟩).IsPlain :=
  h.join (c := .normal name) hname

theorem foldl_join (h : p.IsPlain) {cs : List Component} (hcs : ∀ c ∈ cs, c.IsStep) :
    (cs.foldl (fun p c => p.join ⟨c.text⟩) p).IsPlain := by
  induction cs generalizing p with
  | nil => exact h
  | cons c r ih =>
    obtain ⟨hc, hr⟩ := List.forall_mem_cons.1 hcs
    exact ih (h.join hc) hr

/-- A plain path with a name appended is plain: the name goes on with the last step, if there is
one. -/
theorem appendText (h : p.IsPlain) {s : String} (hs : IsName s.toList) (hslash : '/' ∉ s.toList) :
    (p.appendText s).IsPlain := by
  obtain ⟨start, steps, hsteps, hstart, rfl⟩ := isPlain_iff.1 h
  rcases List.eq_nil_or_concat' steps with rfl | ⟨init, c, rfl⟩
  · have hname : (Component.normal s).IsStep := isStep_normal hslash hs
    refine isPlain_iff.2 ⟨start, [.normal s], List.forall_mem_singleton.2 hname, hstart, ?_⟩
    have habs := isAbsolute_text hname
    rw [ofComponents_append, Path.join, habs, if_neg (by simp)]
    rcases hstart with rfl | rfl <;> rfl
  · obtain ⟨hinit, hc⟩ := List.forall_mem_append.1 hsteps
    have hc : c.IsStep := List.forall_mem_singleton.1 hc
    have hname : (Component.normal (c.text ++ s)).IsStep :=
      isStep_normal (by simp [hc.1, hslash]) (by simpa using isName_text_append hc hs)
    have hall := List.forall_mem_append.2 ⟨hinit, List.forall_mem_singleton.2 hname⟩
    refine isPlain_iff.2 ⟨start, init ++ [.normal (c.text ++ s)], hall, hstart, ?_⟩
    rw [← List.append_assoc, ← List.append_assoc, ofComponents_append, ofComponents_append]
    exact appendText_join _ hc s

/-- **A path that is moved below a plain directory is plain.** -/
theorem under (h : dir.IsPlain) (p : Path) : (p.under dir).IsPlain := by
  simp only [Path.under]
  split
  · exact isPlain_withoutCurrent p
  · rw [foldl_descend]
    exact h.foldl_join isStep_of_mem_descended

/-- A plain path that starts with a directory is there already. -/
theorem under_eq (h : p.IsPlain) (hstart : p.startsWith dir = true) : p.under dir = p := by
  have hplain : p.withoutCurrent = p := h
  simp only [Path.under]
  rw [hplain, if_pos hstart]

end IsPlain

/-- **A path that is moved below a plain directory stays there**, as it is spelled. -/
theorem under_under {dir : Path} (h : dir.IsPlain) (p : Path) :
    (p.under dir).under dir = p.under dir :=
  (h.under p).under_eq (startsWith_under p dir)

/-- How a path is spelled does not matter when it is moved below a directory. -/
theorem Respells.under_eq {p q : Path} (h : p.Respells q) (dir : Path) :
    p.under dir = q.under dir := by
  simp only [under]
  rw [withoutCurrent_eq, withoutCurrent_eq, h.plain_eq]

end Path

end NinjaGen
