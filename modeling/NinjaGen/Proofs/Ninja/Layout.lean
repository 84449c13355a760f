import NinjaGen.Ninja.Escape
import NinjaGen.Ninja.Wrap
import Mathlib.Data.List.Induction

/-!
# The layout of a wrapped line

A width decides nothing about a line but after which of its separating spaces the line is broken.
Statements about all widths are therefore statements about all layouts of a line.

* `oddAfter` says whether a text ends in an odd run of `$`, and `SpacesAre` whether its spaces are
  escaped by such runs; escaped text has no escaped spaces (`spacesAre_escapeText`), and an escaped
  path no others (`spacesAre_escapePathText`).
* `Laid` relates a line to its layouts. What has no separating space stands in every layout as it
  is (`Laid.of_append`), and a separating space stands there as a gap (`Laid.of_space`).
* A line is `Broken` into pieces, which `layPieces` writes one below the other; this is a layout of
  the line (`laid_layPieces`).
* `wrap_eq`: at every width a line is written in pieces, `piecesAt`. A line that fits is one piece
  (`piecesAt_of_fits`), and at width 0 every item is one (`piecesAt_zero`).
-/

namespace NinjaGen.Ninja

open Text (joinSpaces fill fits)

/-! ## Runs of dollars -/

/-- Whether a text ends in an odd run of `$`; what stands before it does if `odd` holds. -/
def oddAfter (odd : Bool) : List Char → Bool
  | [] => odd
  | c :: r => oddAfter (c = '$' && !odd) r

@[simp] theorem oddAfter_nil (odd : Bool) : oddAfter odd [] = odd := rfl

@[simp] theorem oddAfter_cons (odd : Bool) (c : Char) (r : List Char) :
    oddAfter odd (c :: r) = oddAfter (c = '$' && !odd) r := rfl

@[simp] theorem oddAfter_append (odd : Bool) (a b : List Char) :
    oddAfter odd (a ++ b) = oddAfter (oddAfter odd a) b := by
  induction a generalizing odd with
  | nil => rfl
  | cons c r ih => exact ih _

theorem oddAfter_of_not_mem {cs : List Char} (h : '$' ∉ cs) : oddAfter false cs = false := by
  induction cs with
  | nil => rfl
  | cons c r ih =>
    rw [List.mem_cons, not_or] at h
    rw [oddAfter_cons, decide_eq_false (Ne.symm h.1), Bool.false_and, ih h.2]

/-- A run of `$` is odd when it has an odd number of them. -/
theorem oddAfter_eq_run (cs : List Char) :
    oddAfter false cs = ((cs.reverse.takeWhile (· = '$')).length % 2 = 1 : Bool) := by
  induction cs using List.reverseRecOn with
  | nil => rfl
  | append_singleton r c ih =>
    rw [oddAfter_append, ih]
    by_cases h : c = '$'
    · subst h
      simp only [oddAfter_cons, oddAfter_nil, List.reverse_append, List.reverse_singleton,
        List.singleton_append, List.takeWhile_cons, decide_true, if_true, List.length_cons,
        Bool.true_and]
      rcases Nat.mod_two_eq_zero_or_one (r.reverse.takeWhile (· = '$')).length with h | h <;>
        simp [h, Nat.add_mod]
    · simp [h]

/-- Whether every space of a text follows an odd run of `$` (`escaped`) or every one follows an
even run (`¬escaped`); `odd` is about what stands before the text. -/
def SpacesAre (escaped : Bool) : Bool → List Char → Prop
  | _, [] => True
  | odd, c :: r => (c = ' ' → odd = escaped) ∧ SpacesAre escaped (c = '$' && !odd) r

instance SpacesAre.decidable (escaped : Bool) :
    (odd : Bool) → (cs : List Char) → Decidable (SpacesAre escaped odd cs)
  | _, [] => isTrue trivial
  | odd, c :: r =>
    have := SpacesAre.decidable escaped (c = '$' && !odd) r
    inferInstanceAs (Decidable (_ ∧ _))

theorem spacesAre_append {escaped odd : Bool} {a b : List Char} :
    SpacesAre escaped odd (a ++ b) ↔
      SpacesAre escaped odd a ∧ SpacesAre escaped (oddAfter odd a) b := by
  induction a generalizing odd with
  | nil => simp [SpacesAre]
  | cons c r ih => simp only [List.cons_append, SpacesAre, ih, oddAfter_cons, and_assoc]

/-- A text without spaces has neither escaped nor separating ones. -/
theorem spacesAre_of_not_mem {escaped : Bool} {cs : List Char} (h : ' ' ∉ cs) :
    ∀ odd, SpacesAre escaped odd cs := by
  induction cs with
  | nil => exact fun _ => trivial
  | cons c r ih =>
    simp only [List.mem_cons, not_or] at h
    exact fun odd => ⟨fun hc => absurd hc.symm h.1, ih h.2 _⟩

theorem oddAfter_escapeText (cs : List Char) : oddAfter false (escapeText cs) = false := by
  induction cs with
  | nil => rfl
  | cons c r ih =>
    by_cases h : c = '$' <;> simpa [escapeText, h] using ih

theorem spacesAre_escapeText (cs : List Char) : SpacesAre false false (escapeText cs) := by
  induction cs with
  | nil => trivial
  | cons c r ih =>
    by_cases h : c = '$'
    · simpa [escapeText, h, SpacesAre] using ih
    · simpa [escapeText, h, SpacesAre] using ih

theorem oddAfter_escapePathText (cs : List Char) :
    oddAfter false (escapePathText cs) = false := by
  induction cs with
  | nil => rfl
  | cons c r ih =>
    by_cases h : isSpecial c
    · simpa [escapePathText, h] using ih
    · have hc : c ≠ '$' := by rintro rfl; exact h (by decide)
      simpa [escapePathText, h, hc] using ih

theorem spacesAre_escapePathText (cs : List Char) :
    SpacesAre true false (escapePathText cs) := by
  induction cs with
  | nil => trivial
  | cons c r ih =>
    by_cases h : isSpecial c
    · simpa [escapePathText, h, SpacesAre] using ih
    · have hc : c ≠ '$' := by rintro rfl; exact h (by decide)
      have hs : c ≠ ' ' := by rintro rfl; exact h (by decide)
      simpa [escapePathText, h, hc, hs, SpacesAre] using ih

/-! ## Layouts of a line -/

/-- What does not mind a space in front does not mind an indentation. -/
theorem apply_indentation {α : Type} {f : List Char → α} (h : ∀ u, f (' ' :: u) = f u)
    (level : Nat) (u : List Char) : f (indentation level ++ u) = f u := by
  rw [indentation]
  induction 2 * level with
  | zero => rfl
  | succ n ih => rw [List.replicate_succ, List.cons_append, h, ih]

/-- `Laid further odd cs t`: `t` is a layout of the line `cs`. It ends the line, and behind any
separating space it may break it, with the rest indented by `further`; `odd` is about what stands
before `cs`. -/
inductive Laid (further : Nat) : Bool → List Char → List Char → Prop
  | stop {odd : Bool} : Laid further odd [] ['\n']
  | char {odd : Bool} {c : Char} {cs t : List Char} (h : Laid further (c = '$' && !odd) cs t) :
      Laid further odd (c :: cs) (c :: t)
  | cut {cs t : List Char} (h : Laid further false cs t) :
      Laid further false (' ' :: cs) (' ' :: '$' :: '\n' :: (indentation further ++ t))

/-- A separating space as it stands in a layout. -/
def IsGap (further : Nat) (gap : List Char) : Prop :=
  gap = [' '] ∨ gap = ' ' :: '$' :: '\n' :: indentation further

theorem IsGap.head?_append {further : Nat} {gap : List Char} (h : IsGap further gap)
    (u : List Char) : (gap ++ u).head? = some ' ' := by
  rcases h with rfl | rfl <;> rfl

namespace Laid

variable {further : Nat} {odd : Bool} {a b t : List Char}

theorem append (h : Laid further (oddAfter odd a) b t) : Laid further odd (a ++ b) (a ++ t) := by
  induction a generalizing odd with
  | nil => exact h
  | cons c r ih => exact .char (ih h)

theorem self (odd : Bool) (cs : List Char) : Laid further odd cs (cs ++ ['\n']) := by
  simpa using @append further odd cs [] ['\n'] .stop

/-- What has no separating space stands in a layout as it is. -/
theorem of_append (ha : SpacesAre true odd a) (h : Laid further odd (a ++ b) t) :
    ∃ t', t = a ++ t' ∧ Laid further (oddAfter odd a) b t' := by
  induction a generalizing odd t with
  | nil => exact ⟨t, rfl, h⟩
  | cons c r ih =>
    cases h with
    | char h =>
      obtain ⟨t', rfl, ht'⟩ := ih ha.2 h
      exact ⟨t', rfl, ht'⟩
    | cut h => exact absurd (ha.1 rfl) (by simp)

/-- A separating space stands in a layout as a gap. -/
theorem of_space (h : Laid further false (' ' :: b) t) :
    ∃ gap t', t = gap ++ t' ∧ IsGap further gap ∧ Laid further false b t' := by
  cases h with
  | @char _ _ _ t' h => exact ⟨[' '], t', rfl, .inl rfl, by simpa using h⟩
  | @cut _ t' h => exact ⟨_, t', rfl, .inr rfl, h⟩

end Laid

/-! ## Pieces of a line -/

/-- Whether a line can be broken between these pieces: every one but the last ends in a separating
space. -/
def Broken : List (List Char) → Prop
  | [] => False
  | [_] => True
  | p :: q :: r => (∃ item, p = item ++ [' '] ∧ oddAfter false item = false) ∧ Broken (q :: r)

/-- The text of a line that is broken between its pieces. -/
def layPieces (further : Nat) : List (List Char) → List Char
  | [] => []
  | [p] => p ++ ['\n']
  | p :: q :: r => p ++ '$' :: '\n' :: (indentation further ++ layPieces further (q :: r))

/-- A line broken between its pieces is a layout of it. -/
theorem laid_layPieces (further : Nat) {ps : List (List Char)} (h : Broken ps) :
    Laid further false ps.flatten (layPieces further ps) := by
  induction ps with
  | nil => exact h.elim
  | cons p r ih =>
    cases r with
    | nil => simpa [layPieces] using Laid.self false p
    | cons q r =>
      obtain ⟨⟨item, rfl, hodd⟩, hr⟩ := h
      have hcut : Laid further (oddAfter false item) (' ' :: (q :: r).flatten)
          (' ' :: '$' :: '\n' :: (indentation further ++ layPieces further (q :: r))) := by
        rw [hodd]
        exact .cut (ih hr)
      rw [List.flatten_cons, layPieces, List.append_assoc, List.append_assoc]
      exact hcut.append

theorem joinSpaces_append {c d : List (List Char)} (hc : c ≠ []) (hd : d ≠ []) :
    joinSpaces (c ++ d) = joinSpaces c ++ ' ' :: joinSpaces d := by
  induction c with
  | nil => exact absurd rfl hc
  | cons w r ih =>
    cases r with
    | nil =>
      obtain ⟨v, e, rfl⟩ := List.exists_cons_of_ne_nil hd
      simp [Text.joinSpaces_cons_cons]
    | cons v r =>
      have h := ih (by simp)
      rw [List.cons_append] at h
      simp only [List.cons_append, Text.joinSpaces_cons_cons, h, List.append_assoc]

/-- Every item but the last ends in an even run of `$`. -/
theorem oddAfter_of_mem_itemsFrom {cs w : List Char} {r : List (List Char)} :
    ∀ {odd}, itemsFrom odd cs = w :: r →
      (r ≠ [] → oddAfter odd w = false) ∧ ∀ v ∈ r.dropLast, oddAfter false v = false := by
  induction cs generalizing w r with
  | nil =>
    intro odd h
    simp only [itemsFrom, List.cons.injEq] at h
    obtain ⟨rfl, rfl⟩ := h
    simp
  | cons c cs ih =>
    intro odd h
    unfold itemsFrom at h
    split at h
    next hsep =>
      simp only [List.cons.injEq] at h
      obtain ⟨rfl, rfl⟩ := h
      obtain ⟨v, e, hv⟩ := List.exists_cons_of_ne_nil (itemsFrom_ne_nil false cs)
      have hve := ih hv
      rw [hv]
      refine ⟨fun _ => hsep.2, fun u hu => ?_⟩
      cases e with
      | nil => simp at hu
      | cons x e =>
        rcases List.mem_cons.1 hu with rfl | hu
        · exact hve.1 (by simp)
        · exact hve.2 u hu
    next hsep =>
      split at h
      next hr => exact absurd hr (itemsFrom_ne_nil _ cs)
      next item more hr =>
        simp only [List.cons.injEq] at h
        obtain ⟨rfl, rfl⟩ := h
        simpa only [oddAfter_cons] using ih hr

theorem oddAfter_of_mem_items {cs w : List Char} (h : w ∈ (items cs).dropLast) :
    oddAfter false w = false := by
  obtain ⟨v, r, hv⟩ := List.exists_cons_of_ne_nil (items_ne_nil cs)
  have hvr := oddAfter_of_mem_itemsFrom hv
  rw [hv] at h
  cases r with
  | nil => simp at h
  | cons u r =>
    rcases List.mem_cons.1 h with rfl | h
    · exact hvr.1 (by simp)
    · exact hvr.2 w h

theorem oddAfter_joinSpaces {ws : List (List Char)} (h : ∀ w ∈ ws, oddAfter false w = false) :
    oddAfter false (joinSpaces ws) = false := by
  induction ws with
  | nil => rfl
  | cons w r ih =>
    cases r with
    | nil => simpa using h w
    | cons v r =>
      rw [Text.joinSpaces_cons_cons, oddAfter_append, h w (by simp)]
      exact ih fun u hu => h u (List.mem_cons_of_mem w hu)

theorem ne_nil_of_chunks {lineWidth further : Nat} :
    ∀ {level : Nat} {rest : List (List Char)}, rest ≠ [] →
      chunks lineWidth level further rest ≠ [] ∧
        ∀ c ∈ chunks lineWidth level further rest, c ≠ [] := by
  intro level rest
  fun_induction chunks lineWidth level further rest with
  | case1 => simp
  | case2 level rest indent hfit taken hf =>
    intro hne
    have := @Text.fill_fst_ne_nil (lineWidth - (indent + 2) - 1) rest hne
    rw [hf] at this
    simpa using this
  | case3 level rest indent hfit taken item more hf ih =>
    intro hne
    have := @Text.fill_fst_ne_nil (lineWidth - (indent + 2) - 1) rest hne
    rw [hf] at this
    refine ⟨by simp, fun c hc => ?_⟩
    rcases List.mem_cons.1 hc with rfl | hc
    · exact this
    · exact (ih (by simp)).2 c hc

/-- What stands on each physical line, besides its indentation and its mark. -/
def pieceTexts : List (List (List Char)) → List (List Char)
  | [] => []
  | [c] => [joinSpaces c]
  | c :: d :: r => (joinSpaces c ++ [' ']) :: pieceTexts (d :: r)

theorem layOut_eq (further : Nat) {css : List (List (List Char))} (h : css ≠ []) :
    ∀ level,
      layOut level further css = indentation level ++ layPieces further (pieceTexts css) := by
  induction css with
  | nil => exact absurd rfl h
  | cons c r ih =>
    intro level
    cases r with
    | nil => simp [layOut, pieceTexts, layPieces]
    | cons d r =>
      obtain ⟨p, ps, hps⟩ : ∃ p ps, pieceTexts (d :: r) = p :: ps := by
        cases r <;> exact ⟨_, _, rfl⟩
      have hlay : layOut level further (c :: d :: r) = indentation level ++ joinSpaces c ++
          [' ', '$', '\n'] ++ layOut further further (d :: r) := rfl
      rw [hlay, ih (by simp), pieceTexts, hps, layPieces]
      simp

theorem flatten_pieceTexts {css : List (List (List Char))} (hcss : ∀ c ∈ css, c ≠ []) :
    (pieceTexts css).flatten = joinSpaces css.flatten := by
  induction css with
  | nil => rfl
  | cons c r ih =>
    rw [List.forall_mem_cons] at hcss
    cases r with
    | nil => simp [pieceTexts]
    | cons d r =>
      have hrest : (d :: r).flatten ≠ [] := by
        have hd : d ≠ [] := hcss.2 d List.mem_cons_self
        simp [hd]
      have hjoin := joinSpaces_append hcss.1 hrest
      rw [pieceTexts, List.flatten_cons, ih hcss.2, List.append_assoc, List.singleton_append,
        ← hjoin]
      rfl

theorem broken_pieceTexts {css : List (List (List Char))} (hne : css ≠ [])
    (hcss : ∀ c ∈ css, c ≠ []) (heven : ∀ w ∈ css.flatten.dropLast, oddAfter false w = false) :
    Broken (pieceTexts css) := by
  induction css with
  | nil => exact hne rfl
  | cons c r ih =>
    rw [List.forall_mem_cons] at hcss
    cases r with
    | nil => trivial
    | cons d r =>
      have hrest : (d :: r).flatten ≠ [] := by
        have hd : d ≠ [] := hcss.2 d List.mem_cons_self
        simp [hd]
      rw [List.flatten_cons, List.dropLast_append_of_ne_nil hrest, List.forall_mem_append] at heven
      have hr := ih (by simp) hcss.2 heven.2
      obtain ⟨p, ps, hps⟩ : ∃ p ps, pieceTexts (d :: r) = p :: ps := by
        cases r <;> exact ⟨_, _, rfl⟩
      rw [pieceTexts, hps]
      rw [hps] at hr
      exact ⟨⟨_, rfl, oddAfter_joinSpaces heven.1⟩, hr⟩

/-! ## Wrapping breaks a line -/

/-- The pieces of a line at a width. -/
def piecesAt (lineWidth level : Nat) (cs : List Char) : List (List Char) :=
  pieceTexts (chunks lineWidth level (level + 2) (items cs))

theorem broken_piecesAt (lineWidth level : Nat) (cs : List Char) :
    Broken (piecesAt lineWidth level cs) := by
  have hne := @ne_nil_of_chunks lineWidth (level + 2) level _ (items_ne_nil cs)
  refine broken_pieceTexts hne.1 hne.2 fun w hw => ?_
  rw [flatten_chunks] at hw
  exact oddAfter_of_mem_items hw

theorem flatten_piecesAt (lineWidth level : Nat) (cs : List Char) :
    (piecesAt lineWidth level cs).flatten = cs := by
  have hne := @ne_nil_of_chunks lineWidth (level + 2) level _ (items_ne_nil cs)
  rw [piecesAt, flatten_pieceTexts hne.2, flatten_chunks, joinSpaces_items]

/-- **At every width, a line is written broken between pieces of it.** -/
theorem wrap_eq (lineWidth level : Nat) (cs : List Char) :
    wrap lineWidth level cs =
      indentation level ++ layPieces (level + 2) (piecesAt lineWidth level cs) :=
  layOut_eq (level + 2) (ne_nil_of_chunks (items_ne_nil cs)).1 level

/-- At every width a line is written in one of its layouts. -/
theorem exists_laid_wrap (lineWidth level : Nat) (cs : List Char) :
    ∃ t, wrap lineWidth level cs = indentation level ++ t ∧ Laid (level + 2) false cs t := by
  have h := laid_layPieces (level + 2) (broken_piecesAt lineWidth level cs)
  rw [flatten_piecesAt] at h
  exact ⟨_, wrap_eq lineWidth level cs, h⟩

/-- A line that fits has one piece. -/
theorem piecesAt_of_fits {lineWidth level : Nat} {cs : List Char}
    (h : 2 * level + Text.width cs ≤ lineWidth) : piecesAt lineWidth level cs = [cs] := by
  have hfit : fits lineWidth (2 * level) (items cs) = true := by
    rw [Text.fits_iff, joinSpaces_items]
    exact h
  rw [piecesAt, chunks]
  simp only [hfit, if_true]
  rw [pieceTexts, joinSpaces_items]

theorem fill_zero (w : List Char) (r : List (List Char)) : fill 0 (w :: r) = ([w], r) := by
  cases r with
  | nil => rfl
  | cons v r =>
    have h : ¬ (Text.width w + 1 + Text.width v ≤ 0) := by omega
    simp only [fill, Text.fillFrom, if_neg h]

theorem chunks_zero (further : Nat) {rest : List (List Char)} (h : rest ≠ []) :
    ∀ level, chunks 0 level further rest = rest.map ([·]) := by
  induction rest with
  | nil => exact absurd rfl h
  | cons w r ih =>
    intro level
    have hlimit : 0 - (2 * level + 2) - 1 = 0 := by omega
    rw [chunks, hlimit]
    split
    next hfit =>
      cases r with
      | nil => rfl
      | cons v r => simp [fits] at hfit
    next =>
      split
      next hf =>
        rw [fill_zero] at hf
        cases hf
        rfl
      next hf =>
        rw [fill_zero] at hf
        cases hf
        rw [ih (by simp)]
        rfl

/-- At width 0 every item is a piece of its own. -/
theorem piecesAt_zero (level : Nat) (cs : List Char) :
    piecesAt 0 level cs = pieceTexts ((items cs).map ([·])) := by
  rw [piecesAt, chunks_zero _ (items_ne_nil cs)]

end NinjaGen.Ninja
