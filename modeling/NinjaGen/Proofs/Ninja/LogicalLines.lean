import NinjaGen.Ninja.Statement
import NinjaGen.Proofs.Ninja.Layout

/-!
# The logical lines of a file

A file is read back without a grammar: its physical lines are joined where they are continued, and
what comes out is what each statement says, whatever the width at which it was written.

* `physicalLines` are the lines between newlines. They are the whole text, the last of whose lines
  has to be ended as well (`physicalLines_eq_some_iff`).
* `readLines` joins the physical lines of a text. A line that ends in an odd run of `$` goes on with
  the next one, of which a `Continuation` says what counts; one that starts with `#` is a comment.
* `decode` reads by the writer's own rule, `afterIndentation`, and makes one comment of those that
  follow each other; `afterSpaces` is Ninja's rule.
* `Complete` texts can end a line: they hold no newline and end in an even run of `$`. Escaped
  texts are complete, and so is what is put together of complete texts; `IsValue` texts have no
  escaped spaces either.
* `LogicalLine.write` is the text of a line at a width. Sound lines are read one by one
  (`readLines_flatMap_write`), each from its pieces (`readBy_wrap`), and by the writer's own rule
  they are read back as they are (`decode_flatMap_write`).
-/

namespace NinjaGen.Ninja

open Text (words joinSpaces fillLines)

/-! ## Reading a file -/

/-- A line of a file whose continuations have been joined. -/
inductive LogicalLine
  | blank
  /-- The words of a comment. -/
  | comment (words : List (List Char))
  /-- What a statement says, without its indentation. -/
  | statement (level : Nat) (text : List Char)
  deriving DecidableEq, Repr

/-- Whether a line is a comment. -/
def LogicalLine.isComment : LogicalLine → Bool
  | comment _ => true
  | _ => false

/-- The lines of a text, each without the newline that ends it. A text whose last line is not ended
is refused. -/
def physicalLines (cs : List Char) : Option (List (List Char)) :=
  let pieces := cs.splitOn '\n'
  if pieces.getLast? = some [] then some pieces.dropLast else none

/-- Whether a physical line ends in an odd run of `$`, so that the next one continues it. -/
def isContinued (l : List Char) : Bool := (l.reverse.takeWhile (· = '$')).length % 2 = 1

/-- The level of a physical line. -/
def levelOf (l : List Char) : Nat := (l.takeWhile (· = ' ')).length / 2

/-- What a physical line adds to a statement of that level that it continues, if it may. -/
abbrev Continuation : Type := Nat → List Char → Option (List Char)

/-- The writer's rule: a line that continues another is indented two levels deeper, and what is
behind this indentation counts. -/
def afterIndentation : Continuation := fun level l =>
  if indentation (level + 2) <+: l then some (l.drop (2 * (level + 2))) else none

/-- A text without the spaces at its start. -/
def skipSpaces (cs : List Char) : List Char := cs.dropWhile (· = ' ')

/-- Ninja's rule: all spaces at the start of a line that continues another are skipped. -/
def afterSpaces : Continuation := fun _ l => some (skipSpaces l)

/-- The level and the text of the statement that `pending` has begun and the physical line `l` goes
on with, or of the one that `l` begins. -/
def joinLine? (strip : Continuation) (pending : Option (Nat × List Char)) (l : List Char) :
    Option (Nat × List Char) :=
  match pending with
  | none => some (levelOf l, l.drop (2 * levelOf l))
  | some (level, text) => (strip level l).map fun more => (level, text ++ more)

/-- What physical lines say after the statement that `pending` has begun. Every physical line of a
comment is a comment here. -/
def decodeLines (strip : Continuation) (pending : Option (Nat × List Char)) :
    List (List Char) → Option (List LogicalLine)
  | [] => if pending = none then some [] else none
  | l :: r =>
    if pending = none ∧ l = [] then (decodeLines strip none r).map (.blank :: ·)
    else if pending = none ∧ l.head? = some '#' then
      (decodeLines strip none r).map (.comment ((l.drop 2).splitOn ' ') :: ·)
    else
      match joinLine? strip pending l with
      | none => none
      | some (level, text) =>
        if isContinued l then decodeLines strip (some (level, text.dropLast)) r
        else (decodeLines strip none r).map (.statement level text :: ·)

/-- Logical lines after one of a comment. -/
def addComment (words : List (List Char)) : List LogicalLine → List LogicalLine
  | .comment more :: r => .comment (words ++ more) :: r
  | r => .comment words :: r

/-- Logical lines with comments that follow each other made into one. -/
def joinComments : List LogicalLine → List LogicalLine
  | [] => []
  | .comment words :: r => addComment words (joinComments r)
  | l :: r => l :: joinComments r

/-- What the rest of a file says after the statement that `pending` has begun. -/
def readFrom (strip : Continuation) (pending : Option (Nat × List Char)) (cs : List Char) :
    Option (List LogicalLine) :=
  (physicalLines cs).bind (decodeLines strip pending)

/-- What a file says, physical lines of comments apart. -/
def readLines (strip : Continuation) (cs : List Char) : Option (List LogicalLine) :=
  readFrom strip none cs

/-- What a file says, line by line. -/
def decode (cs : List Char) : Option (List LogicalLine) :=
  (readLines afterIndentation cs).map joinComments

/-! ## Complete texts -/

/-- Whether a text can stand at the end of a line without breaking or continuing it. -/
def Complete (cs : List Char) : Prop := '\n' ∉ cs ∧ oddAfter false cs = false

instance (cs : List Char) : Decidable (Complete cs) := inferInstanceAs (Decidable (_ ∧ _))

theorem newline_not_mem_joinSpaces {ws : List (List Char)} (h : ∀ w ∈ ws, '\n' ∉ w) :
    '\n' ∉ joinSpaces ws := by
  induction ws with
  | nil => simp
  | cons w r ih =>
    cases r with
    | nil => simpa using h w
    | cons v r =>
      rw [Text.joinSpaces_cons_cons, List.mem_append, List.mem_cons]
      rintro (hn | hn | hn)
      · exact h w (by simp) hn
      · simp at hn
      · exact ih (fun u hu => h u (List.mem_cons_of_mem w hu)) hn

namespace Complete

variable {a b : List Char}

theorem append (ha : Complete a) (hb : Complete b) : Complete (a ++ b) :=
  ⟨by simpa using ⟨ha.1, hb.1⟩, by rw [oddAfter_append, ha.2, hb.2]⟩

theorem joinSpaces {ws : List (List Char)} (h : ∀ w ∈ ws, Complete w) :
    Complete (Text.joinSpaces ws) :=
  ⟨newline_not_mem_joinSpaces fun w hw => (h w hw).1, oddAfter_joinSpaces fun w hw => (h w hw).2⟩

/-- A text without line breaks can be written. -/
theorem escapeText {cs : List Char} (h : '\n' ∉ cs) : Complete (escapeText cs) := by
  refine ⟨fun hn => ?_, oddAfter_escapeText cs⟩
  obtain ⟨c, hc, hn⟩ := List.mem_flatMap.1 hn
  split at hn
  · simp at hn
  · simp only [List.mem_singleton] at hn
    exact h (hn ▸ hc)

/-- A path without line breaks can be written. -/
theorem escapePathText {cs : List Char} (h : '\n' ∉ cs) : Complete (escapePathText cs) := by
  refine ⟨fun hn => ?_, oddAfter_escapePathText cs⟩
  obtain ⟨c, hc, hn⟩ := List.mem_flatMap.1 hn
  have hne : c ≠ '\n' := fun heq => h (heq ▸ hc)
  split at hn <;> simp [hne.symm] at hn

end Complete

/-- Whether a text can be the value of a variable: it can end a line, and all its spaces
separate. -/
def IsValue (cs : List Char) : Prop := Complete cs ∧ SpacesAre false false cs

instance (cs : List Char) : Decidable (IsValue cs) := inferInstanceAs (Decidable (_ ∧ _))

namespace IsValue

variable {a b : List Char}

theorem append (ha : IsValue a) (hb : IsValue b) : IsValue (a ++ b) :=
  ⟨ha.1.append hb.1, spacesAre_append.2 ⟨ha.2, by rw [ha.1.2]; exact hb.2⟩⟩

theorem joinSpaces {ws : List (List Char)} (h : ∀ w ∈ ws, IsValue w) :
    IsValue (Text.joinSpaces ws) := by
  have hspace : IsValue [' '] := by decide
  induction ws with
  | nil => decide
  | cons w r ih =>
    rw [List.forall_mem_cons] at h
    cases r with
    | nil => simpa using h.1
    | cons v r =>
      rw [Text.joinSpaces_cons_cons]
      exact h.1.append (hspace.append (ih h.2))

/-- An escaped text without line breaks is a value. -/
theorem escapeText {cs : List Char} (h : '\n' ∉ cs) : IsValue (escapeText cs) :=
  ⟨.escapeText h, spacesAre_escapeText cs⟩

end IsValue

/-! ## Reading what was written -/

/-- Wherever `t` stands at the start of a line, `f` reads it as the lines `ls`. -/
def ReadBy (f : List Char → Option (List LogicalLine)) (t : List Char) (ls : List LogicalLine) :
    Prop :=
  ∀ rest, f (t ++ rest) = (f rest).map (ls ++ ·)

namespace ReadBy

variable {f : List Char → Option (List LogicalLine)}

theorem nil : ReadBy f [] [] := fun rest => by simp

theorem append {t u : List Char} {ls ms : List LogicalLine} (ht : ReadBy f t ls)
    (hu : ReadBy f u ms) : ReadBy f (t ++ u) (ls ++ ms) := fun rest => by
  rw [List.append_assoc, ht, hu, Option.map_map]
  simp [Function.comp_def]

theorem flatMap {α : Type} {xs : List α} {g : α → List Char} {k : α → List LogicalLine}
    (h : ∀ x ∈ xs, ReadBy f (g x) (k x)) : ReadBy f (xs.flatMap g) (xs.flatMap k) := by
  induction xs with
  | nil => exact nil
  | cons x r ih =>
    rw [List.flatMap_cons, List.flatMap_cons]
    exact (h x (by simp)).append (ih fun y hy => h y (List.mem_cons_of_mem x hy))

end ReadBy

theorem physicalLines_append {u : List Char} (h : '\n' ∉ u) (r : List Char) :
    physicalLines (u ++ '\n' :: r) = (physicalLines r).map (u :: ·) := by
  obtain ⟨p, ps, hr⟩ := List.exists_cons_of_ne_nil (List.splitOn_ne_nil '\n' r)
  simp only [physicalLines, List.splitOn_append_cons_self_of_not_mem h, hr,
    List.getLast?_cons_cons, List.dropLast_cons_cons]
  split <;> rfl

/-- **No part of a text is lost in its lines**: with a newline behind each they are the text. -/
theorem physicalLines_eq_some_iff {cs : List Char} {ls : List (List Char)} :
    physicalLines cs = some ls ↔ (∀ l ∈ ls, '\n' ∉ l) ∧ cs = ls.flatMap (· ++ ['\n']) := by
  constructor
  · intro h
    induction ls generalizing cs with
    | nil =>
      by_cases hm : '\n' ∈ cs
      · obtain ⟨u, r, rfl, hu⟩ := List.eq_append_cons_of_mem hm
        simp [physicalLines_append hu] at h
      · simp_all [physicalLines, List.splitOn_eq_singleton hm]
    | cons l ls ih =>
      by_cases hm : '\n' ∈ cs
      · obtain ⟨u, r, rfl, hu⟩ := List.eq_append_cons_of_mem hm
        rw [physicalLines_append hu, Option.map_eq_some_iff] at h
        obtain ⟨_, hr, heq⟩ := h
        cases heq
        obtain ⟨hls, rfl⟩ := ih hr
        exact ⟨List.forall_mem_cons.2 ⟨hu, hls⟩, by simp⟩
      · simp [physicalLines, List.splitOn_eq_singleton hm] at h
  · rintro ⟨hls, rfl⟩
    induction ls with
    | nil => rfl
    | cons l r ih =>
      rw [List.forall_mem_cons] at hls
      rw [List.flatMap_cons, List.append_assoc, List.singleton_append, physicalLines_append hls.1,
        ih hls.2]
      rfl

/-- One more line of a file. -/
theorem readFrom_append (strip : Continuation) (pending : Option (Nat × List Char)) {l : List Char}
    (h : '\n' ∉ l) (rest : List Char) :
    readFrom strip pending (l ++ '\n' :: rest) =
      (physicalLines rest).bind fun r => decodeLines strip pending (l :: r) := by
  rw [readFrom, physicalLines_append h, Option.bind_map]
  rfl

theorem isContinued_eq (l : List Char) : isContinued l = oddAfter false l :=
  (oddAfter_eq_run l).symm

theorem newline_not_mem_indentation (level : Nat) : '\n' ∉ indentation level := by
  simp [indentation]

@[simp] theorem oddAfter_indentation (level : Nat) :
    oddAfter false (indentation level) = false := by
  simpa using apply_indentation (f := oddAfter false) (fun _ => rfl) level []

theorem readBy_blank (strip : Continuation) : ReadBy (readLines strip) ['\n'] [.blank] := by
  intro rest
  have hdecode : ∀ r, decodeLines strip none ([] :: r) =
      (decodeLines strip none r).map (.blank :: ·) := fun _ => rfl
  exact (readFrom_append strip none List.not_mem_nil rest).trans
    (by rw [funext hdecode, readLines, readFrom, Option.map_bind]; rfl)

/-! ### Lines -/

/-- One more physical line of a statement. -/
theorem readFrom_of_joinLine {strip : Continuation} {pending : Option (Nat × List Char)}
    {l text : List Char} {level : Nat} (h : joinLine? strip pending l = some (level, text))
    (hl : pending = none → l ≠ [] ∧ l.head? ≠ some '#') (hn : '\n' ∉ l) (rest : List Char) :
    readFrom strip pending (l ++ '\n' :: rest) =
      if isContinued l then readFrom strip (some (level, text.dropLast)) rest
      else (readLines strip rest).map (.statement level text :: ·) := by
  have hdecode : ∀ r, decodeLines strip pending (l :: r) =
      if isContinued l then decodeLines strip (some (level, text.dropLast)) r
      else (decodeLines strip none r).map (.statement level text :: ·) := by
    intro r
    rw [decodeLines, if_neg fun he => (hl he.1).1 he.2, if_neg fun he => (hl he.1).2 he.2, h]
  rw [readFrom_append strip pending hn, funext hdecode]
  split
  · rfl
  · exact Option.map_bind.symm

/-- The last physical line of a statement. -/
theorem readFrom_last {strip : Continuation} {pending : Option (Nat × List Char)}
    {l text : List Char} {level : Nat} (h : joinLine? strip pending l = some (level, text))
    (hl : pending = none → l ≠ [] ∧ l.head? ≠ some '#') (hn : '\n' ∉ l)
    (heven : oddAfter false l = false) (rest : List Char) :
    readFrom strip pending (l ++ '\n' :: rest) =
      (readLines strip rest).map (.statement level text :: ·) := by
  rw [readFrom_of_joinLine h hl hn, isContinued_eq, heven]
  rfl

/-- A physical line that the next one continues. -/
theorem readFrom_continued {strip : Continuation} {pending : Option (Nat × List Char)}
    {l text : List Char} {level : Nat}
    (h : joinLine? strip pending (l ++ ['$']) = some (level, text ++ ['$']))
    (hl : pending = none → l ++ ['$'] ≠ [] ∧ (l ++ ['$']).head? ≠ some '#') (hn : '\n' ∉ l)
    (heven : oddAfter false l = false) (rest : List Char) :
    readFrom strip pending (l ++ '$' :: '\n' :: rest) =
      readFrom strip (some (level, text)) rest := by
  have hline : '\n' ∉ l ++ ['$'] := by simpa using hn
  have hcont : isContinued (l ++ ['$']) = true := by
    rw [isContinued_eq, oddAfter_append, heven]
    rfl
  have hsplit : l ++ '$' :: '\n' :: rest = (l ++ ['$']) ++ '\n' :: rest := by simp
  rw [hsplit, readFrom_of_joinLine h hl hline, if_pos hcont, List.dropLast_concat]

/-- Behind its indentation, a line that continues another adds `g` of what it holds. -/
structure Strips (strip : Continuation) (g : List Char → List Char) : Prop where
  line (level : Nat) (v : List Char) : strip level (indentation (level + 2) ++ v) = some (g v)
  mark (v : List Char) : g (v ++ ['$']) = g v ++ ['$']

theorem strips_afterIndentation : Strips afterIndentation id where
  line level v := by simp [afterIndentation, indentation]
  mark _ := rfl

theorem strips_afterSpaces : Strips afterSpaces skipSpaces where
  line level v := by
    rw [afterSpaces, skipSpaces, List.dropWhile_append_of_pos (by simp [indentation]), skipSpaces]
  mark v := by
    rw [skipSpaces, skipSpaces, List.dropWhile_append]
    split
    next h => simp [List.isEmpty_iff.1 h]
    next => rfl

section Pieces

variable {strip : Continuation} {g : List Char → List Char} (hs : Strips strip g) {level : Nat}

include hs

/-- The rest of a statement, piece by piece. -/
theorem readFrom_layPieces {ps : List (List Char)} (hps : Broken ps) (hn : '\n' ∉ ps.flatten)
    (heven : oddAfter false ps.flatten = false) (rest : List Char) :
    ∀ text, readFrom strip (some (level, text))
        (indentation (level + 2) ++ layPieces (level + 2) ps ++ rest) =
      (readLines strip rest).map (.statement level (text ++ ps.flatMap g) :: ·) := by
  have hjoin : ∀ text v, joinLine? strip (some (level, text)) (indentation (level + 2) ++ v) =
      some (level, text ++ g v) := by
    intro text v
    rw [joinLine?, hs.line]
    rfl
  have hline : ∀ {p : List Char}, '\n' ∉ p → '\n' ∉ indentation (level + 2) ++ p := by
    intro p hp
    rw [List.mem_append, not_or]
    exact ⟨newline_not_mem_indentation _, hp⟩
  have hodd : ∀ p, oddAfter false (indentation (level + 2) ++ p) = oddAfter false p := by
    intro p
    rw [oddAfter_append, oddAfter_indentation]
  induction ps with
  | nil => exact hps.elim
  | cons p r ih =>
    intro text
    rw [List.flatten_cons, List.mem_append, not_or] at hn
    rw [List.flatten_cons, oddAfter_append] at heven
    cases r with
    | nil =>
      have hlast := readFrom_last (hjoin text p) (by simp) (hline hn.1)
        ((hodd p).trans heven) rest
      simpa [layPieces] using hlast
    | cons q r =>
      obtain ⟨⟨item, hitem, hitemodd⟩, hr⟩ := hps
      have heven' : oddAfter false p = false := by
        rw [hitem, oddAfter_append, hitemodd]
        rfl
      rw [heven'] at heven
      have hmark : joinLine? strip (some (level, text)) (indentation (level + 2) ++ p ++ ['$']) =
          some (level, text ++ g p ++ ['$']) := by
        rw [List.append_assoc, hjoin, hs.mark, List.append_assoc]
      have hnext := readFrom_continued hmark (by simp) (hline hn.1) ((hodd p).trans heven')
        (indentation (level + 2) ++ layPieces (level + 2) (q :: r) ++ rest)
      rw [ih hr hn.2 heven, List.append_assoc text] at hnext
      simpa [layPieces] using hnext

omit hs in
theorem levelOf_indentation {c : Char} (hc : c ≠ ' ') (level : Nat) (r : List Char) :
    levelOf (indentation level ++ c :: r) = level := by
  have htake : (indentation level ++ c :: r).takeWhile (· = ' ') = indentation level := by
    rw [List.takeWhile_append_of_pos (by simp [indentation]), List.takeWhile_cons_of_neg (by simpa),
      List.append_nil]
  rw [levelOf, htake, indentation, List.length_replicate]
  omega

/-- What is read of a line in pieces, if each piece that continues it adds `g` of itself. -/
def joinPieces (g : List Char → List Char) : List (List Char) → List Char
  | [] => []
  | p :: r => p ++ r.flatMap g

/-- A statement, piece by piece. -/
theorem readLines_layPieces {c : Char} {p : List Char} {r : List (List Char)}
    (hps : Broken ((c :: p) :: r)) (hn : '\n' ∉ ((c :: p) :: r).flatten)
    (heven : oddAfter false ((c :: p) :: r).flatten = false) (hsp : c ≠ ' ') (hno : c ≠ '#')
    (rest : List Char) :
    readLines strip (indentation level ++ layPieces (level + 2) ((c :: p) :: r) ++ rest) =
      (readLines strip rest).map (.statement level (joinPieces g ((c :: p) :: r)) :: ·) := by
  rw [readLines]
  have hjoin : ∀ v, joinLine? strip none (indentation level ++ c :: v) = some (level, c :: v) := by
    intro v
    rw [joinLine?, levelOf_indentation hsp]
    simp [indentation]
  have hstart : ∀ v, indentation level ++ c :: v ≠ [] ∧
      (indentation level ++ c :: v).head? ≠ some '#' := by
    intro v
    cases level with
    | zero => simpa [indentation] using hno
    | succ n => simp [indentation, Nat.mul_succ, List.replicate_succ]
  rw [List.flatten_cons, List.mem_append, not_or] at hn
  rw [List.flatten_cons, oddAfter_append] at heven
  have hline : '\n' ∉ indentation level ++ c :: p := by
    rw [List.mem_append, not_or]
    exact ⟨newline_not_mem_indentation _, hn.1⟩
  have hodd : oddAfter false (indentation level ++ c :: p) = oddAfter false (c :: p) := by
    rw [oddAfter_append, oddAfter_indentation]
  cases r with
  | nil =>
    have hlast := readFrom_last (hjoin p) (fun _ => hstart p) hline (hodd.trans heven) rest
    simpa [layPieces, joinPieces] using hlast
  | cons q r =>
    obtain ⟨⟨item, hitem, hitemodd⟩, hr⟩ := hps
    have heven' : oddAfter false (c :: p) = false := by
      rw [hitem, oddAfter_append, hitemodd]
      rfl
    rw [heven'] at heven
    have hmark : joinLine? strip none (indentation level ++ c :: p ++ ['$']) =
        some (level, c :: p ++ ['$']) := by
      rw [List.append_assoc, List.cons_append, hjoin]
    have hnext := readFrom_continued hmark
      (fun _ => by simpa using hstart (p ++ ['$'])) hline (hodd.trans heven')
      (indentation (level + 2) ++ layPieces (level + 2) (q :: r) ++ rest)
    rw [readFrom_layPieces hs hr hn.2 heven rest] at hnext
    simpa [layPieces, joinPieces] using hnext

end Pieces

/-- Whether a text starts as a statement does. -/
def startsStatement : List Char → Bool
  | [] => false
  | c :: _ => c ≠ ' ' && c ≠ '#'

theorem startsStatement_append {a : List Char} (h : startsStatement a = true) (b : List Char) :
    startsStatement (a ++ b) = true := by
  cases a with
  | nil => simp [startsStatement] at h
  | cons c r => exact h

/-- **A line is read from its pieces.** -/
theorem readBy_wrap {strip : Continuation} {g : List Char → List Char} (hs : Strips strip g)
    (lineWidth level : Nat) {cs : List Char} (hcs : Complete cs)
    (hstart : startsStatement cs = true) :
    ReadBy (readLines strip) (wrap lineWidth level cs)
      [.statement level (joinPieces g (piecesAt lineWidth level cs))] := by
  intro rest
  rw [wrap_eq]
  have hps := broken_piecesAt lineWidth level cs
  have hflat := flatten_piecesAt lineWidth level cs
  generalize piecesAt lineWidth level cs = ps at hps hflat
  obtain ⟨c, p, r, rfl⟩ : ∃ c p r, ps = (c :: p) :: r := by
    rcases ps with _ | ⟨_ | ⟨c, p⟩, r⟩
    · exact hps.elim
    · cases r with
      | nil =>
        rw [← hflat] at hstart
        cases hstart
      | cons q r =>
        obtain ⟨⟨item, hitem, -⟩, -⟩ := hps
        cases item <;> cases hitem
    · exact ⟨c, p, r, rfl⟩
  subst hflat
  obtain ⟨hsp, hno⟩ : c ≠ ' ' ∧ c ≠ '#' := by simpa [startsStatement] using hstart
  exact readLines_layPieces hs hps hcs.1 hcs.2 hsp hno rest

/-! ### Comments -/

theorem splitOn_joinSpaces {ws : List (List Char)} (hne : ws ≠ []) (h : ∀ w ∈ ws, ' ' ∉ w) :
    (joinSpaces ws).splitOn ' ' = ws :=
  List.splitOn_intercalate ' ' h hne

/-- A line of a comment is read as its words. -/
theorem readBy_commentLine (strip : Continuation) {ws : List (List Char)} (hne : ws ≠ [])
    (h : ∀ w ∈ ws, ∀ c ∈ w, Text.isBlank c = false) :
    ReadBy (readLines strip) (commentLine ws ++ ['\n']) [.comment ws] := by
  intro rest
  have hsp : ∀ w ∈ ws, ' ' ∉ w := fun w hw hm => absurd (h w hw _ hm) (by decide)
  have hnl : ∀ w ∈ ws, '\n' ∉ w := fun w hw hm => absurd (h w hw _ hm) (by decide)
  have hn : '\n' ∉ commentLine ws := by
    simpa [commentLine] using newline_not_mem_joinSpaces hnl
  have hdecode : ∀ r, decodeLines strip none (commentLine ws :: r) =
      (decodeLines strip none r).map (.comment ws :: ·) := by
    intro r
    rw [commentLine, List.cons_append, decodeLines, if_neg (by simp), if_pos (by simp)]
    simp [splitOn_joinSpaces hne hsp]
  rw [readLines, List.append_assoc, List.singleton_append, readFrom_append strip none hn,
    funext hdecode, readLines, readFrom, Option.map_bind]
  rfl

/-! ### Lines as they were written -/

/-- The text of a line at a width. -/
def LogicalLine.write (lineWidth : Nat) : LogicalLine → List Char
  | blank => ['\n']
  | comment ws => (fillLines (lineWidth - 2) ws).flatMap (commentLine · ++ ['\n'])
  | statement level text => wrap lineWidth level text

/-- Whether a line can be read back: a comment has words, and a statement starts as one and can be
ended. -/
def LogicalLine.Sound : LogicalLine → Prop
  | blank => True
  | comment ws => ws ≠ [] ∧ ∀ w ∈ ws, ∀ c ∈ w, Text.isBlank c = false
  | statement _ text => Complete text ∧ startsStatement text = true

instance : (l : LogicalLine) → Decidable l.Sound
  | .blank => inferInstanceAs (Decidable True)
  | .comment ws =>
    have := fun w => List.decidableBAll (Text.isBlank · = false) w
    inferInstanceAs (Decidable (ws ≠ [] ∧ ∀ w ∈ ws, ∀ c ∈ w, Text.isBlank c = false))
  | .statement _ text => inferInstanceAs (Decidable (Complete text ∧ startsStatement text = true))

/-- A line as it is read at a width, with every physical line of a comment for itself. -/
def LogicalLine.readAs (g : List Char → List Char) (lineWidth : Nat) :
    LogicalLine → List LogicalLine
  | blank => [blank]
  | comment ws => (fillLines (lineWidth - 2) ws).map comment
  | statement level text => [statement level (joinPieces g (piecesAt lineWidth level text))]

theorem joinPieces_id (ps : List (List Char)) : joinPieces id ps = ps.flatten := by
  cases ps with
  | nil => rfl
  | cons p r => rw [joinPieces, List.flatMap_id, List.flatten_cons]

/-- By the writer's own rule, a statement is read as it is. -/
theorem readAs_statement (lineWidth level : Nat) (text : List Char) :
    (LogicalLine.statement level text).readAs id lineWidth = [.statement level text] := by
  rw [LogicalLine.readAs, joinPieces_id, flatten_piecesAt]

theorem readBy_write {strip : Continuation} {g : List Char → List Char} (hs : Strips strip g)
    (lineWidth : Nat) {l : LogicalLine} (h : l.Sound) :
    ReadBy (readLines strip) (l.write lineWidth) (l.readAs g lineWidth) := by
  cases l with
  | blank => exact readBy_blank strip
  | statement level text => exact readBy_wrap hs lineWidth level h.1 h.2
  | comment ws =>
    rw [LogicalLine.readAs, List.map_eq_flatMap]
    refine .flatMap fun line hline =>
      readBy_commentLine strip (Text.ne_nil_of_mem_fillLines _ hline) ?_
    intro w hw
    apply h.2
    rw [← Text.flatten_fillLines (lineWidth - 2) ws]
    exact List.mem_flatten.2 ⟨line, hline, hw⟩

/-- **The lines of a file are read one by one.** -/
theorem readLines_flatMap_write {strip : Continuation} {g : List Char → List Char}
    (hs : Strips strip g) (lineWidth : Nat) {ls : List LogicalLine} (h : ∀ l ∈ ls, l.Sound) :
    readLines strip (ls.flatMap (·.write lineWidth)) =
      some (ls.flatMap (·.readAs g lineWidth)) := by
  have hread := ReadBy.flatMap (fun l hl => readBy_write hs lineWidth (h l hl)) []
  rw [List.append_nil] at hread
  have hend : readLines strip [] = some [] := rfl
  rw [hread, hend, Option.map_some, List.append_nil]

/-- Whether the first line is none of a comment. -/
def startsPlain : List LogicalLine → Bool
  | l :: _ => !l.isComment
  | [] => false

/-- Whether every comment is followed by a line that is none. -/
def CommentsApart : List LogicalLine → Prop
  | [] => True
  | l :: r => (l.isComment = true → startsPlain r = true) ∧ CommentsApart r

theorem startsPlain_append {ls : List LogicalLine} (h : startsPlain ls = true)
    (ms : List LogicalLine) : startsPlain (ls ++ ms) = true := by
  cases ls with
  | nil => cases h
  | cons l r => exact h

namespace CommentsApart

theorem append {ls ms : List LogicalLine} (hls : CommentsApart ls) (hms : CommentsApart ms) :
    CommentsApart (ls ++ ms) := by
  induction ls with
  | nil => exact hms
  | cons l r ih => exact ⟨fun h => startsPlain_append (hls.1 h) ms, ih hls.2⟩

theorem flatMap {α : Type} {xs : List α} {f : α → List LogicalLine}
    (h : ∀ x ∈ xs, CommentsApart (f x)) : CommentsApart (xs.flatMap f) := by
  induction xs with
  | nil => trivial
  | cons x r ih =>
    rw [List.flatMap_cons]
    exact (h x (by simp)).append (ih fun y hy => h y (List.mem_cons_of_mem x hy))

/-- Lines without comments. -/
theorem of_forall {ls : List LogicalLine} (h : ∀ l ∈ ls, l.isComment = false) :
    CommentsApart ls := by
  induction ls with
  | nil => trivial
  | cons l r ih =>
    refine ⟨fun hl => ?_, ih fun m hm => h m (List.mem_cons_of_mem l hm)⟩
    rw [h l List.mem_cons_self] at hl
    cases hl

end CommentsApart

theorem joinComments_map_comment {css : List (List (List Char))} (hne : css ≠ [])
    {ls : List LogicalLine} (h : startsPlain ls = true) :
    joinComments (css.map .comment ++ ls) = .comment css.flatten :: joinComments ls := by
  have hadd : ∀ ws, addComment ws (joinComments ls) = .comment ws :: joinComments ls := by
    intro ws
    rcases ls with _ | ⟨_ | _ | _, ls⟩
    · rfl
    · rfl
    · cases h
    · rfl
  induction css with
  | nil => exact absurd rfl hne
  | cons ws r ih =>
    cases r with
    | nil => simpa [joinComments] using hadd ws
    | cons v r =>
      rw [List.map_cons, List.cons_append, joinComments, ih (by simp)]
      simp [addComment]

/-- Comments that stand apart are joined from their physical lines. -/
theorem joinComments_readAs (lineWidth : Nat) {ls : List LogicalLine} (hs : ∀ l ∈ ls, l.Sound)
    (ha : CommentsApart ls) : joinComments (ls.flatMap (·.readAs id lineWidth)) = ls := by
  induction ls with
  | nil => rfl
  | cons l r ih =>
    have hr := ih (fun m hm => hs m (List.mem_cons_of_mem l hm)) ha.2
    rw [List.flatMap_cons]
    rcases l with _ | ws | ⟨level, text⟩
    · exact congrArg _ hr
    · have hws := (hs (.comment ws) List.mem_cons_self).1
      have hlines : fillLines (lineWidth - 2) ws ≠ [] := by
        intro hnil
        have := Text.flatten_fillLines (lineWidth - 2) ws
        rw [hnil] at this
        exact hws this.symm
      have hstart : startsPlain (r.flatMap (·.readAs id lineWidth)) = true := by
        rcases r with _ | ⟨_ | _ | _, r⟩
        · cases ha.1 rfl
        · rfl
        · cases ha.1 rfl
        · rfl
      rw [LogicalLine.readAs, joinComments_map_comment hlines hstart, Text.flatten_fillLines, hr]
    · rw [readAs_statement]
      exact congrArg _ hr

/-- **Lines are read back as they are, at every width.** -/
theorem decode_flatMap_write (lineWidth : Nat) {ls : List LogicalLine} (hs : ∀ l ∈ ls, l.Sound)
    (ha : CommentsApart ls) : decode (ls.flatMap (·.write lineWidth)) = some ls := by
  rw [decode, readLines_flatMap_write strips_afterIndentation lineWidth hs]
  exact congrArg some (joinComments_readAs lineWidth hs ha)

end NinjaGen.Ninja
