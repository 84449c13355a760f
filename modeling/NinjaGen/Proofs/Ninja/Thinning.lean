import Mathlib.Data.List.Chain
import NinjaGen.Proofs.Ninja.LogicalLines

/-!
# Lost spaces

Ninja skips all spaces at the start of a line that continues another, also those that belong to the
text of the statement. Where a line is broken in front of a separating space, this space is lost.

* `Thinned`: a text without some of the separating spaces that follow others.
* `thinned_joinPieces`: what Ninja reads of a line in pieces is the thinned line. Where the line
  fits it is the line itself (`joinPieces_piecesAt_of_fits`), and at width 0 no two spaces follow
  each other in it (`singleSpaced_joinPieces_zero`).
* `Thinned.eq_of_singleSpaced`: a text in which no two spaces follow each other cannot be thinned,
  and a text that keeps its number of spaces has not been (`Thinned.eq_of_count`).
-/

namespace NinjaGen.Ninja

open Text (joinSpaces)

/-! ## Spaces at the start -/

@[simp] theorem skipSpaces_space (cs : List Char) : skipSpaces (' ' :: cs) = skipSpaces cs := rfl

theorem skipSpaces_cons {c : Char} (h : c ≠ ' ') (cs : List Char) :
    skipSpaces (c :: cs) = c :: cs :=
  List.dropWhile_cons_of_neg (by simpa using h)

theorem skipSpaces_suffix (cs : List Char) : skipSpaces cs <:+ cs := List.dropWhile_suffix _

theorem skipSpaces_of_not_mem {cs : List Char} (h : ' ' ∉ cs) : skipSpaces cs = cs := by
  cases cs with
  | nil => rfl
  | cons c r =>
    rw [List.mem_cons, not_or] at h
    exact skipSpaces_cons (Ne.symm h.1) r

/-! ## Thinned texts -/

/-- Whether no two spaces of a text follow each other. -/
def SingleSpaced (cs : List Char) : Prop := cs.IsChain fun c d => c ≠ ' ' ∨ d ≠ ' '

instance (cs : List Char) : Decidable (SingleSpaced cs) :=
  inferInstanceAs (Decidable (cs.IsChain _))

/-- `ds` is `cs` without some of the separating spaces that follow others; `prev` says whether a
separating space stands before `cs`, and `odd` is about the `$` before `cs`. -/
inductive Thinned : Bool → Bool → List Char → List Char → Prop
  | nil {prev : Bool} : Thinned prev false [] []
  | keep {prev odd : Bool} {c : Char} {cs ds : List Char}
      (h : Thinned (c = ' ' && !odd) (c = '$' && !odd) cs ds) : Thinned prev odd (c :: cs) (c :: ds)
  | drop {cs ds : List Char} (h : Thinned true false cs ds) : Thinned true false (' ' :: cs) ds

namespace Thinned

variable {prev odd : Bool} {cs ds : List Char}

theorem refl (h : oddAfter odd cs = false) : Thinned prev odd cs cs := by
  induction cs generalizing prev odd with
  | nil =>
    cases h
    exact .nil
  | cons c r ih => exact .keep (ih h)

/-- A separating space between two texts of which the second is thinned. -/
theorem append_space {item : List Char} (hodd : oddAfter odd item = false)
    (h : Thinned true false cs ds) : Thinned prev odd (item ++ ' ' :: cs) (item ++ ' ' :: ds) := by
  induction item generalizing prev odd with
  | nil =>
    rw [oddAfter_nil] at hodd
    subst hodd
    exact .keep h
  | cons c r ih => exact .keep (ih hodd)

/-- The same behind a separating space, where the spaces at the start are skipped. -/
theorem skip_append_space {item : List Char} (hodd : oddAfter false item = false)
    (h : Thinned true false cs ds) :
    Thinned true false (item ++ ' ' :: cs) (skipSpaces (item ++ [' ']) ++ ds) := by
  induction item with
  | nil => exact .drop h
  | cons c r ih =>
    by_cases hc : c = ' '
    · subst hc
      exact .drop (ih hodd)
    · rw [List.cons_append, List.cons_append, skipSpaces_cons hc,
        List.cons_append, List.append_assoc, List.singleton_append]
      exact append_space hodd h

/-- A text behind a separating space, of which the spaces at the start are skipped. -/
theorem skip_self (hodd : oddAfter false cs = false) :
    Thinned true false cs (skipSpaces cs) := by
  induction cs with
  | nil => exact .nil
  | cons c r ih =>
    by_cases hc : c = ' '
    · subst hc
      exact .drop (ih hodd)
    · rw [skipSpaces_cons hc]
      exact refl hodd

/-! ### What is kept -/

/-- A character that is no separating space is kept. -/
theorem of_cons {c : Char} (hc : c = ' ' → odd = true) (h : Thinned prev odd (c :: cs) ds) :
    ∃ ds', ds = c :: ds' ∧ Thinned false (c = '$' && !odd) cs ds' := by
  cases h with
  | @keep _ _ _ _ ds' h =>
    have hfirst : (decide (c = ' ') && !odd) = false := by
      by_cases hspace : c = ' '
      · rw [hc hspace, Bool.not_true, Bool.and_false]
      · rw [decide_eq_false hspace, Bool.false_and]
    rw [hfirst] at h
    exact ⟨ds', rfl, h⟩
  | drop => exact absurd (hc rfl) (by simp)

theorem of_nil (h : Thinned prev odd [] ds) : odd = false ∧ ds = [] := by
  cases h
  exact ⟨rfl, rfl⟩

/-- What stands before a text matters only if it starts with a space. -/
theorem of_head {prev' : Bool} (hc : cs.head? ≠ some ' ') (h : Thinned prev odd cs ds) :
    Thinned prev' odd cs ds := by
  cases h with
  | nil => exact .nil
  | keep h => exact .keep h
  | drop => exact absurd rfl hc

/-- An escape is kept. -/
theorem of_escape {c : Char} (h : Thinned prev false ('$' :: c :: cs) ds) :
    ∃ ds', ds = '$' :: c :: ds' ∧ Thinned false false cs ds' := by
  cases h with
  | keep h =>
    obtain ⟨ds', rfl, h'⟩ := h.of_cons fun _ => rfl
    exact ⟨ds', rfl, by simpa using h'⟩

theorem not_dollar (h : Thinned prev false ['$'] ds) : False := by
  cases h with
  | keep h => exact absurd h.of_nil.1 (by decide)

/-- The first space is kept. -/
theorem of_space (h : Thinned false false (' ' :: cs) ds) :
    ∃ ds', ds = ' ' :: ds' ∧ Thinned true false cs ds' := by
  cases h with
  | @keep _ _ _ _ ds' h => exact ⟨ds', rfl, h⟩

/-- A text without spaces is kept. -/
theorem of_append {a : List Char} (ha : ' ' ∉ a) (h : Thinned false odd (a ++ cs) ds) :
    ∃ ds', ds = a ++ ds' ∧ Thinned false (oddAfter odd a) cs ds' := by
  induction a generalizing odd ds with
  | nil => exact ⟨ds, rfl, h⟩
  | cons c r ih =>
    rw [List.mem_cons, not_or] at ha
    obtain ⟨ds', rfl, h'⟩ := of_cons (fun hc => absurd hc.symm ha.1) h
    obtain ⟨ds'', rfl, h''⟩ := ih ha.2 h'
    exact ⟨ds'', rfl, h''⟩

/-- What is left of a thinned text when the spaces at its start are skipped. -/
theorem skip (h : Thinned prev false cs ds) :
    Thinned false false (skipSpaces cs) (skipSpaces ds) := by
  induction cs generalizing prev ds with
  | nil =>
    obtain ⟨-, rfl⟩ := h.of_nil
    exact .nil
  | cons c r ih =>
    by_cases hc : c = ' '
    · subst hc
      rw [skipSpaces_space]
      cases h with
      | keep h =>
        rw [skipSpaces_space]
        exact ih h
      | drop h => exact ih h
    · obtain ⟨ds', rfl, -⟩ := h.of_cons fun hspace => absurd hspace hc
      rw [skipSpaces_cons hc, skipSpaces_cons hc]
      exact h.of_head (by simpa using hc)

/-- What follows a thinned text may be kept. -/
theorem append_singleton {c : Char} (hc : c ≠ '$') (h : Thinned prev odd cs ds) :
    Thinned prev odd (cs ++ [c]) (ds ++ [c]) := by
  induction h with
  | nil => exact refl (by simp [hc])
  | keep _ ih => exact .keep ih
  | drop _ ih => exact .drop ih

/-! ### Texts that are not thinned -/

/-- A text in which no two spaces follow each other cannot be thinned. -/
theorem eq_of_singleSpaced (h : Thinned prev odd cs ds) (hcs : SingleSpaced cs)
    (hprev : prev = true → cs.head? ≠ some ' ') : ds = cs := by
  induction h with
  | nil => rfl
  | @keep prev odd c cs ds _ ih =>
    obtain ⟨hhead, htail⟩ := List.isChain_cons.1 hcs
    refine congrArg (c :: ·) (ih htail fun hc hspace => ?_)
    simp only [Bool.and_eq_true, decide_eq_true_eq] at hc
    exact (hhead ' ' hspace).elim (absurd hc.1) (absurd rfl)
  | drop => exact absurd rfl (hprev rfl)

/-- A text is thinned by spaces only, so it is whole if none is missing. -/
theorem eq_of_count (h : Thinned prev odd cs ds) :
    ds.count ' ' ≤ cs.count ' ' ∧ (ds.count ' ' = cs.count ' ' → ds = cs) := by
  induction h with
  | nil => simp
  | @keep _ _ c cs ds _ ih =>
    rw [List.count_cons, List.count_cons]
    refine ⟨by omega, fun heq => ?_⟩
    rw [ih.2 (by omega)]
  | @drop cs ds _ ih =>
    rw [List.count_cons_self]
    refine ⟨by omega, fun heq => ?_⟩
    omega

end Thinned

/-! ## What Ninja reads of a line -/

theorem thinned_flatMap_skipSpaces {ps : List (List Char)} (hps : Broken ps)
    (heven : oddAfter false ps.flatten = false) :
    Thinned true false ps.flatten (ps.flatMap skipSpaces) := by
  induction ps with
  | nil => exact hps.elim
  | cons p r ih =>
    rw [List.flatten_cons, oddAfter_append] at heven
    cases r with
    | nil => simpa using Thinned.skip_self heven
    | cons q r =>
      obtain ⟨⟨item, rfl, hodd⟩, hr⟩ := hps
      have heven' : oddAfter false (item ++ [' ']) = false := by
        rw [oddAfter_append, hodd]
        rfl
      rw [heven'] at heven
      rw [List.flatten_cons, List.flatMap_cons, List.append_assoc, List.singleton_append]
      exact .skip_append_space hodd (ih hr heven)

/-- **Ninja reads a thinned line**, wherever the line is broken. -/
theorem thinned_joinPieces {ps : List (List Char)} (hps : Broken ps)
    (heven : oddAfter false ps.flatten = false) :
    Thinned false false ps.flatten (joinPieces skipSpaces ps) := by
  rcases ps with _ | ⟨p, _ | ⟨q, r⟩⟩
  · exact hps.elim
  · simpa [joinPieces] using Thinned.refl heven
  · obtain ⟨⟨item, rfl, hodd⟩, hr⟩ := hps
    have heven' : oddAfter false (item ++ [' ']) = false := by
      rw [oddAfter_append, hodd]
      rfl
    rw [List.flatten_cons, oddAfter_append, heven'] at heven
    rw [List.flatten_cons, joinPieces, List.append_assoc, List.append_assoc, List.singleton_append,
      List.singleton_append]
    exact .append_space hodd (thinned_flatMap_skipSpaces hr heven)

/-- Where a line fits, Ninja reads it whole. -/
theorem joinPieces_piecesAt_of_fits (g : List Char → List Char) {lineWidth level : Nat}
    {cs : List Char} (h : 2 * level + Text.width cs ≤ lineWidth) :
    joinPieces g (piecesAt lineWidth level cs) = cs := by
  rw [piecesAt_of_fits h]
  exact List.append_nil cs

/-- The items of a text hold none of its separating spaces. -/
theorem space_not_mem_of_mem_itemsFrom {cs : List Char} :
    ∀ {odd : Bool}, SpacesAre false odd cs → ∀ w ∈ itemsFrom odd cs, ' ' ∉ w := by
  induction cs with
  | nil => simp [itemsFrom]
  | cons c r ih =>
    intro odd h
    unfold itemsFrom
    split
    next hc =>
      have hr := ih h.2
      rw [hc.1] at hr
      exact List.forall_mem_cons.2 ⟨List.not_mem_nil, hr⟩
    next hc =>
      have hspace : ' ' ≠ c := by
        rintro rfl
        exact hc ⟨rfl, h.1 rfl⟩
      split
      next => simpa using hspace
      next item more hr =>
        have hmore := ih h.2
        rw [hr, List.forall_mem_cons] at hmore
        exact List.forall_mem_cons.2 ⟨by simpa using ⟨hspace, hmore.1⟩, hmore.2⟩

theorem singleSpaced_of_not_mem {cs : List Char} (h : ' ' ∉ cs) : SingleSpaced cs := by
  induction cs with
  | nil => exact .nil
  | cons c r ih =>
    rw [List.mem_cons, not_or] at h
    exact List.isChain_cons.2 ⟨fun _ _ => .inl (Ne.symm h.1), ih h.2⟩

/-- A space between two texts of which the first has none and the second does not start with
one. -/
theorem SingleSpaced.append_space {w cs : List Char} (hw : ' ' ∉ w) (hcs : SingleSpaced cs)
    (hhead : cs.head? ≠ some ' ') : SingleSpaced (w ++ ' ' :: cs) := by
  refine .append (singleSpaced_of_not_mem hw) (List.isChain_cons.2 ⟨fun d hd => .inr ?_, hcs⟩)
    fun c hc _ _ => .inl ?_
  · rintro rfl
    exact hhead hd
  · rintro rfl
    exact hw (List.mem_of_mem_getLast? hc)

theorem pieceTexts_map_cons_cons (w v : List Char) (r : List (List Char)) :
    pieceTexts ((w :: v :: r).map ([·])) = (w ++ [' ']) :: pieceTexts ((v :: r).map ([·])) := by
  simp [pieceTexts]

/-- Items on lines of their own leave single spaces. -/
theorem singleSpaced_flatMap_pieceTexts {ws : List (List Char)} (h : ∀ w ∈ ws, ' ' ∉ w) :
    SingleSpaced ((pieceTexts (ws.map ([·]))).flatMap skipSpaces) ∧
      ((pieceTexts (ws.map ([·]))).flatMap skipSpaces).head? ≠ some ' ' := by
  induction ws with
  | nil => exact ⟨.nil, by simp [pieceTexts]⟩
  | cons w r ih =>
    rw [List.forall_mem_cons] at h
    cases r with
    | nil =>
      simp only [List.map_cons, List.map_nil, pieceTexts, List.flatMap_singleton,
        Text.joinSpaces_singleton, skipSpaces_of_not_mem h.1]
      exact ⟨singleSpaced_of_not_mem h.1, fun hhead => h.1 (List.mem_of_mem_head? hhead)⟩
    | cons v r =>
      obtain ⟨hsingle, hhead⟩ := ih h.2
      rw [pieceTexts_map_cons_cons, List.flatMap_cons]
      cases w with
      | nil => exact ⟨hsingle, hhead⟩
      | cons c w =>
        have hc : c ≠ ' ' := by
          rintro rfl
          exact h.1 List.mem_cons_self
        rw [List.cons_append, skipSpaces_cons hc, ← List.cons_append, List.append_assoc,
          List.singleton_append]
        exact ⟨.append_space h.1 hsingle hhead, by simpa using hc⟩

/-- **At width 0, Ninja reads no two separating spaces that follow each other.** -/
theorem singleSpaced_joinPieces_zero (level : Nat) {cs : List Char}
    (h : SpacesAre false false cs) :
    SingleSpaced (joinPieces skipSpaces (piecesAt 0 level cs)) := by
  have hitems := space_not_mem_of_mem_itemsFrom h
  obtain ⟨w, r, hwr⟩ := List.exists_cons_of_ne_nil (itemsFrom_ne_nil false cs)
  rw [hwr, List.forall_mem_cons] at hitems
  rw [piecesAt_zero, items, hwr]
  cases r with
  | nil => simpa [pieceTexts, joinPieces] using singleSpaced_of_not_mem hitems.1
  | cons v r =>
    obtain ⟨hsingle, hhead⟩ := singleSpaced_flatMap_pieceTexts hitems.2
    rw [pieceTexts_map_cons_cons, joinPieces, List.append_assoc, List.singleton_append]
    exact .append_space hitems.1 hsingle hhead

end NinjaGen.Ninja
