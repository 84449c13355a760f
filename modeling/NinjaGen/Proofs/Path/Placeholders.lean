import NinjaGen.Glob.Pattern
import NinjaGen.Proofs.Path.Components
import NinjaGen.Template
import NinjaGen.Traverse

/-!
# Placeholders in texts and paths

A text without placeholders stands for itself, and one with placeholders stands for something only
if each of them has a value. In a path they stand between slashes, so that the placeholders of a
path do not depend on its spelling.

* `Template.values_eq_ok_iff` and `Template.expand_eq_ok_iff` say what a text stands for;
  `Template.expand_of_plain`, `Template.exists_value_of_expand` and
  `Template.token_of_expand_eq_error` tell what placeholders have to do with it.
* `Template.isPattern_of_expand`: a pattern remains one when its placeholders are replaced.
* `Path.HasToken` says that a path has a placeholder, and `Path.hasToken_congr` that its spelling
  does not matter.
-/

namespace NinjaGen

/-! ## Placeholders in texts -/

namespace Template

variable {b : Bindings} {name : List Char}

/-- The values of pieces stand one after another. -/
theorem values_eq_ok_iff {ps : List Piece} {cs : List Char} :
    values b ps = .ok cs ↔
      ∃ vs : List (List Char), ps.map (Piece.value b) = vs.map .ok ∧ cs = vs.flatten := by
  induction ps generalizing cs with
  | nil =>
    rw [values, Except.ok.injEq, eq_comm]
    simp
  | cons p r ih =>
    rw [values]
    cases hp : p.value b with
    | error name =>
      simp only [reduceCtorEq, false_iff, List.map_cons, hp]
      rintro ⟨vs, hvs, -⟩
      cases vs <;> simp at hvs
    | ok v =>
      simp only [map_eq_ok_iff, ih, List.map_cons, hp]
      constructor
      · rintro ⟨_, ⟨vs, hvs, rfl⟩, rfl⟩
        exact ⟨v :: vs, congrArg (Except.ok v :: ·) hvs, rfl⟩
      · rintro ⟨vs, hvs, rfl⟩
        cases vs with
        | nil => cases hvs
        | cons w vs =>
          obtain ⟨hw, hrest⟩ := List.cons.inj hvs
          cases hw
          exact ⟨_, ⟨vs, hrest, rfl⟩, rfl⟩

theorem expand_eq_ok_iff {s r : String} :
    expand b s = .ok r ↔ values b (pieces s.toList) = .ok r.toList := by
  unfold expand
  cases values b (pieces s.toList) with
  | error => simp
  | ok cs =>
    simp only [Except.ok.injEq]
    constructor
    · rintro rfl
      exact String.toList_ofList.symm
    · rintro rfl
      exact String.ofList_toList

/-- **A text without placeholders stands for itself.** -/
theorem expand_of_plain {s : String} (h : ∀ name, .token name ∉ pieces s.toList) :
    expand b s = .ok s := by
  rw [expand_eq_ok_iff, values_eq_ok_iff]
  refine ⟨(pieces s.toList).map Piece.text, ?_, ?_⟩
  · rw [List.map_map]
    refine List.map_congr_left fun p hp => ?_
    cases p with
    | literal c => rfl
    | token name => exact absurd hp (h name)
  · rw [← List.flatMap_def, flatMap_text_pieces]

/-- A text with a placeholder stands for something only if the name of that has a value. -/
theorem exists_value_of_expand {s r : String} (h : expand b s = .ok r)
    (hname : .token name ∈ pieces s.toList) : ∃ v, b.get? (String.ofList name) = some v := by
  obtain ⟨vs, hvs, -⟩ := values_eq_ok_iff.1 (expand_eq_ok_iff.1 h)
  obtain ⟨v, -, hv⟩ := exists_ok_of_mem_of_map_ok hvs hname
  cases hget : b.get? (String.ofList name) with
  | none => simp [Piece.value, hget] at hv
  | some v => exact ⟨v, rfl⟩

theorem token_of_values_eq_error {ps : List Piece} (h : values b ps = .error name) :
    .token name ∈ ps ∧ b.get? (String.ofList name) = none := by
  induction ps with
  | nil => cases h
  | cons p r ih =>
    rw [values] at h
    cases hp : p.value b with
    | ok v =>
      rw [hp] at h
      obtain ⟨hmem, hnone⟩ := ih (map_eq_error_iff.1 h)
      exact ⟨List.mem_cons_of_mem _ hmem, hnone⟩
    | error name =>
      rw [hp] at h
      cases h
      cases p with
      | literal c => cases hp
      | token name =>
        cases hget : b.get? (String.ofList name) with
        | some v => simp [Piece.value, hget] at hp
        | none =>
          rw [Piece.value, hget] at hp
          cases hp
          exact ⟨List.mem_cons_self, hget⟩

/-- A text stands for nothing only if a placeholder in it has no value. -/
theorem token_of_expand_eq_error {s : String} {e : GenerationError} (h : expand b s = .error e) :
    ∃ name, .token name ∈ pieces s.toList ∧ b.get? (String.ofList name) = none ∧
      e = .unresolvedVariable (String.ofList name) s := by
  unfold expand at h
  cases hvalues : values b (pieces s.toList) with
  | ok cs => simp [hvalues] at h
  | error name =>
    rw [hvalues] at h
    cases h
    obtain ⟨hmem, hnone⟩ := token_of_values_eq_error hvalues
    exact ⟨name, hmem, hnone, rfl⟩

/-- What cannot be part of a placeholder stands for itself. -/
theorem literal_mem_pieces {c : Char} {cs : List Char} (hc : c ∈ cs) (hname : isNameChar c = false)
    (hopen : c ≠ '\x7b') (hclose : c ≠ '\x7d') : .literal c ∈ pieces cs := by
  rw [← flatMap_text_pieces cs] at hc
  obtain ⟨p, hp, hc⟩ := List.mem_flatMap.1 hc
  cases p with
  | literal d =>
    rw [Piece.text, List.mem_singleton] at hc
    exact hc ▸ hp
  | token name =>
    have hall := isNameChar_of_isName (isName_of_token_mem_pieces cs hp)
    simp only [Piece.text, List.mem_cons, List.mem_append, List.not_mem_nil, or_false] at hc
    rcases hc with (rfl | hc) | rfl
    · exact absurd rfl hopen
    · rw [hall c hc] at hname
      cases hname
    · exact absurd rfl hclose

/-- A pattern is one with its placeholders replaced. -/
theorem isPattern_of_expand {s r : String} (h : expand b s = .ok r)
    (hs : Glob.isPattern s = true) : Glob.isPattern r = true := by
  obtain ⟨vs, hvs, hr⟩ := values_eq_ok_iff.1 (expand_eq_ok_iff.1 h)
  obtain ⟨c, hc, hmark⟩ := List.any_eq_true.1 hs
  have hliteral : .literal c ∈ pieces s.toList := by
    simp only [Bool.or_eq_true, decide_eq_true_eq] at hmark
    rcases hmark with (rfl | rfl) | rfl
    all_goals exact literal_mem_pieces hc (by decide) (by decide) (by decide)
  obtain ⟨v, hv, hvalue⟩ := exists_ok_of_mem_of_map_ok hvs hliteral
  cases hvalue
  refine List.any_eq_true.2 ⟨c, ?_, hmark⟩
  rw [hr]
  exact List.mem_flatten.2 ⟨_, hv, List.mem_cons_self⟩

/-! ## Placeholders between slashes -/

/-- A slash ends no placeholder, and none goes on behind it. -/
theorem token?_append_slash_of_none {r : List Char} (h : token? r = none) (rest : List Char) :
    token? (r ++ '/' :: rest) = none := by
  rw [Option.eq_none_iff_forall_ne_some]
  rintro ⟨name, more⟩ hsome
  obtain ⟨heq, hname⟩ := eq_append_of_token? hsome
  rcases List.append_eq_append_iff.1 heq with ⟨back, rfl, hback⟩ | ⟨back, rfl, hback⟩
  · -- The slash would be in the name or stand for the brace.
    cases back with
    | nil => simp at hback
    | cons c back =>
      obtain ⟨rfl, -⟩ := List.cons.inj hback
      have hslash := isNameChar_of_isName hname '/' (by simp)
      exact absurd hslash (by decide)
  · cases back with
    | nil => simp at hback
    | cons c back =>
      obtain ⟨rfl, -⟩ := List.cons.inj hback
      rw [token?_append hname] at h
      cases h

theorem token?_append_slash_of_some {r name more : List Char} (h : token? r = some (name, more))
    (rest : List Char) : token? (r ++ '/' :: rest) = some (name, more ++ '/' :: rest) := by
  obtain ⟨rfl, hname⟩ := eq_append_of_token? h
  rw [List.append_assoc, List.cons_append, token?_append hname]

/-- The pieces of a text are those in front of a slash and those behind it. -/
theorem pieces_append_slash (cs rest : List Char) :
    pieces (cs ++ '/' :: rest) = pieces cs ++ .literal '/' :: pieces rest := by
  fun_induction pieces cs with
  | case1 => rw [List.nil_append, pieces, if_neg (by decide), List.nil_append]
  | case2 r name more h ih =>
    rw [List.cons_append, pieces, if_pos rfl]
    split
    next heq =>
      rw [token?_append_slash_of_some h] at heq
      cases heq
      rw [ih, List.cons_append]
    next heq =>
      rw [token?_append_slash_of_some h] at heq
      cases heq
  | case3 r h ih =>
    rw [List.cons_append, pieces, if_pos rfl]
    split
    next heq =>
      rw [token?_append_slash_of_none h] at heq
      cases heq
    next => rw [ih, List.cons_append]
  | case4 c r hc ih =>
    rw [List.cons_append, pieces, if_neg hc, ih, List.cons_append]

/-- A placeholder stands between two slashes. -/
theorem token_mem_pieces_intercalate {parts : List (List Char)} :
    .token name ∈ pieces (['/'].intercalate parts) ↔
      ∃ part ∈ parts, .token name ∈ pieces part := by
  induction parts with
  | nil => simp [List.intercalate, pieces]
  | cons part parts ih =>
    cases parts with
    | nil => simp [List.intercalate]
    | cons next parts =>
      have hcons : ['/'].intercalate (part :: next :: parts) =
          part ++ '/' :: ['/'].intercalate (next :: parts) := by simp [List.intercalate]
      rw [hcons, pieces_append_slash, List.mem_append, List.mem_cons, ih]
      simp

end Template

namespace Path

/-- Whether the text of a path has a placeholder of that name. -/
def HasToken (p : Path) (name : List Char) : Prop := .token name ∈ Template.pieces p.text.toList

instance (p : Path) (name : List Char) : Decidable (p.HasToken name) :=
  inferInstanceAs (Decidable (_ ∈ _))

/-- A path without an opening brace has no placeholder. -/
theorem open_mem_of_hasToken {p : Path} {name : List Char} (h : p.HasToken name) :
    '\x7b' ∈ p.text.toList := by
  rw [← Template.flatMap_text_pieces p.text.toList]
  exact List.mem_flatMap.2 ⟨_, h, List.mem_cons_self⟩

theorem token_mem_pieces_iff {name piece : List Char} :
    .token name ∈ Template.pieces piece ↔
      ∃ c ∈ Component.ofPiece? piece, .token name ∈ Template.pieces c.text.toList := by
  unfold Component.ofPiece?
  split
  next h => rcases h with rfl | rfl <;> simp [Template.pieces]
  next =>
    split
    next h => simp [h, Component.text]
    next => simp [Component.text]

/-- **The placeholders of a path are those of its components**, however it is spelled. -/
theorem hasToken_iff {p : Path} {name : List Char} :
    p.HasToken name ↔ ∃ c ∈ p.components, .token name ∈ Template.pieces c.text.toList := by
  have hpieces : p.HasToken name ↔
      ∃ c ∈ p.pieces.filterMap Component.ofPiece?, .token name ∈ Template.pieces c.text.toList := by
    have htext : ['/'].intercalate p.pieces = p.text.toList := List.intercalate_splitOn '/'
    rw [HasToken, ← htext, Template.token_mem_pieces_intercalate]
    constructor
    · rintro ⟨piece, hpiece, hname⟩
      obtain ⟨c, hc, hname⟩ := token_mem_pieces_iff.1 hname
      exact ⟨c, List.mem_filterMap.2 ⟨piece, hpiece, hc⟩, hname⟩
    · rintro ⟨c, hc, hname⟩
      obtain ⟨piece, hpiece, hc⟩ := List.mem_filterMap.1 hc
      exact ⟨piece, hpiece, token_mem_pieces_iff.2 ⟨c, hc, hname⟩⟩
  rw [hpieces]
  unfold components
  split
  · simp [Component.text, Template.pieces]
  · split
    next heq => simp [heq, Component.ofPiece?, Component.text, Template.pieces]
    next => rfl

theorem hasToken_congr {p q : Path} (h : p.same q = true) (name : List Char) :
    p.HasToken name ↔ q.HasToken name := by
  rw [hasToken_iff, hasToken_iff, same_iff.1 h]

end Path

end NinjaGen
