import Mathlib.Algebra.Ring.Parity
import NinjaGen.Proofs.Ninja.Breaks
import NinjaGen.Proofs.Ninja.PathGrammar

/-!
# What escaping protects

Escaping works forwards on one path, and a line is broken by counting `$` backwards through the
text of a whole line. The two agree because an escaped path ends in an even run of `$`, whatever it
holds: the parity in front of a space never depends on the paths before.

* `WritesBack` says that a text with a line break is refused and every other one is read back;
  `IsRun` is a maximal run of `$`, and `dollars` the length of the run at the end of a text.
* `even_of_isRun_escapeText` and `odd_dollars_of_escapePathText` are the runs of the two forms.
* `BuildEdge.words` are the items of the line of an edge. They are items in the sense in which a
  line is broken (`BuildEdge.areItems_words`), so that every width keeps them whole
  (`AreItems.items_joinSpaces`).
* `BuildEdge.IsLine` is what follows for a line, and `escaping_spec` is all of it.
-/

namespace NinjaGen.Ninja

open Text (width joinSpaces)

/-! ## Reading back -/

/-- Whether a text with a line break is refused with an error that names it, and what is written
for any other text is read back as that text. -/
structure WritesBack (write : String → Except GenerationError String) : Prop where
  error_iff : ∀ s e, write s = .error e ↔
    ('\n' ∈ s.toList ∨ '\r' ∈ s.toList) ∧ e = .invalidText s
  unescape : ∀ s t, write s = .ok t → unescape t.toList = s.toList
  injective : Function.Injective write

theorem hasLineBreak_iff {s : String} :
    hasLineBreak s = true ↔ '\n' ∈ s.toList ∨ '\r' ∈ s.toList := by
  simp only [hasLineBreak, List.any_eq_true, Bool.or_eq_true, decide_eq_true_eq]
  constructor
  · rintro ⟨c, hc, rfl | rfl⟩
    · exact .inl hc
    · exact .inr hc
  · rintro (h | h)
    · exact ⟨_, h, .inl rfl⟩
    · exact ⟨_, h, .inr rfl⟩

/-- A form that is read back can be written behind the check for line breaks. -/
theorem writesBack_of_unescape {write : String → Except GenerationError String}
    {form : List Char → List Char} (hform : ∀ cs, unescape (form cs) = cs)
    (hwrite : ∀ s, write s = if hasLineBreak s then .error (.invalidText s)
      else .ok (String.ofList (form s.toList))) : WritesBack write := by
  have hread : ∀ s t, write s = .ok t → unescape t.toList = s.toList := by
    intro s t h
    rw [hwrite] at h
    split at h
    · cases h
    · cases h
      rw [String.toList_ofList, hform]
  have herror : ∀ s e, write s = .error e ↔ hasLineBreak s = true ∧ e = .invalidText s := by
    intro s e
    rw [hwrite]
    split
    next h => simp [h, eq_comm]
    next h => simp [h]
  refine ⟨fun s e => by rw [herror, hasLineBreak_iff], hread, fun s s' h => ?_⟩
  cases hs : write s with
  | ok t => exact String.toList_inj.1 ((hread s t hs).symm.trans (hread s' t (h ▸ hs)))
  | error e =>
    have he := ((herror s e).1 hs).2
    rw [((herror s' e).1 (h ▸ hs)).2] at he
    exact (GenerationError.invalidText.inj he).symm

theorem writesBack_escape : WritesBack escape :=
  writesBack_of_unescape unescape_escapeText fun _ => rfl

theorem writesBack_escapePath : WritesBack escapePath :=
  writesBack_of_unescape unescape_escapePathText fun _ => rfl

/-! ## Runs of dollars -/

/-- The number of `$` at the end of a text. -/
def dollars (cs : List Char) : Nat := (cs.reverse.takeWhile (· = '$')).length

theorem odd_dollars_iff {cs : List Char} : Odd (dollars cs) ↔ oddAfter false cs = true := by
  rw [oddAfter_eq_run, decide_eq_true_eq, Nat.odd_iff, dollars]

/-- Whether `k` times `$` are a maximal run of a text, between `before` and `after`. -/
structure IsRun (cs before : List Char) (k : Nat) (after : List Char) : Prop where
  text : cs = before ++ List.replicate k '$' ++ after
  starts : before.getLast? ≠ some '$'
  ends : after.head? ≠ some '$'

theorem dollars_append_replicate {before : List Char} (h : before.getLast? ≠ some '$') (k : Nat) :
    dollars (before ++ List.replicate k '$') = k := by
  have hstop : before.reverse.takeWhile (· = '$') = [] := by
    rw [← List.head?_reverse] at h
    cases hb : before.reverse with
    | nil => rfl
    | cons c r =>
      rw [hb] at h
      exact List.takeWhile_cons_of_neg (by simpa using h)
  rw [dollars, List.reverse_append, List.reverse_replicate,
    List.takeWhile_append_of_pos (by simp), hstop, List.append_nil, List.length_replicate]

/-- A text with a `$` in front of every character that is not written as it is. -/
def protect (isSpecial : Char → Bool) (cs : List Char) : List Char :=
  cs.flatMap fun c => if isSpecial c then ['$', c] else [c]

theorem escapeText_eq_protect (cs : List Char) : escapeText cs = protect (· = '$') cs := by
  rw [escapeText, protect]
  congr 1
  funext c
  by_cases h : c = '$' <;> simp [h]

theorem escapePathText_eq_protect (cs : List Char) : escapePathText cs = protect isSpecial cs := rfl

/-- Where `$` is protected itself, the run in front of any other character is odd exactly when that
character is protected. -/
theorem oddAfter_of_protect {special : Char → Bool} (hspecial : special '$' = true)
    {cs a b : List Char} {c : Char} (hc : c ≠ '$') (h : protect special cs = a ++ c :: b) :
    oddAfter false a = special c := by
  induction cs generalizing a with
  | nil => simp [protect] at h
  | cons d r ih =>
    rw [protect, List.flatMap_cons, ← protect] at h
    by_cases hd : special d = true
    · rw [if_pos hd, List.cons_append, List.singleton_append] at h
      rcases a with _ | ⟨x, _ | ⟨y, a⟩⟩
      · exact absurd (List.cons.inj h).1.symm hc
      · obtain ⟨rfl, hrest⟩ := List.cons.inj h
        obtain ⟨rfl, -⟩ := List.cons.inj hrest
        exact hd.symm
      · obtain ⟨rfl, hrest⟩ := List.cons.inj h
        obtain ⟨rfl, hend⟩ := List.cons.inj hrest
        -- The protected character does not continue the run, even if it is a `$`.
        have hpair : oddAfter false ('$' :: d :: a) = oddAfter false a := by simp
        rw [hpair]
        exact ih hend
    · rw [if_neg hd, List.singleton_append] at h
      rcases a with _ | ⟨x, a⟩
      · obtain ⟨rfl, -⟩ := List.cons.inj h
        exact (Bool.eq_false_iff.2 hd).symm
      · obtain ⟨rfl, hrest⟩ := List.cons.inj h
        have hne : d ≠ '$' := by rintro rfl; exact hd hspecial
        rw [oddAfter_cons, decide_eq_false hne, Bool.false_and]
        exact ih hrest

/-- **Every maximal run of `$` in an escaped text is even.** -/
theorem even_of_isRun_escapeText {cs before after : List Char} {k : Nat}
    (h : IsRun (escapeText cs) before k after) : Even k := by
  have heven : oddAfter false (before ++ List.replicate k '$') = false := by
    cases after with
    | nil =>
      have htext := h.text
      rw [List.append_nil] at htext
      rw [← htext, oddAfter_escapeText]
    | cons c after =>
      have hc : c ≠ '$' := by simpa using h.ends
      have htext := (escapeText_eq_protect cs).symm.trans h.text
      rw [oddAfter_of_protect (by decide) hc htext, decide_eq_false hc]
  rw [← Nat.not_odd_iff_even, ← dollars_append_replicate h.starts k, odd_dollars_iff, heven]
  exact Bool.false_ne_true

/-- **In an escaped path every space and every colon stands behind an odd run of `$`.** -/
theorem odd_dollars_of_escapePathText {cs a b : List Char} {c : Char} (hc : c = ' ' ∨ c = ':')
    (h : escapePathText cs = a ++ c :: b) : Odd (dollars a) := by
  have hspecial : isSpecial c = true := by rcases hc with rfl | rfl <;> decide
  have hdollar : c ≠ '$' := by rcases hc with rfl | rfl <;> decide
  rw [escapePathText_eq_protect] at h
  rw [odd_dollars_iff, oddAfter_of_protect (by decide) hdollar h, hspecial]

/-! ## Items -/

theorem itemsFrom_append {w rest item : List Char} {more : List (List Char)} :
    ∀ {odd}, SpacesAre true odd w → itemsFrom (oddAfter odd w) rest = item :: more →
      itemsFrom odd (w ++ rest) = (w ++ item) :: more := by
  induction w with
  | nil => exact fun _ h => h
  | cons c w ih =>
    intro odd hw h
    have hinside : ¬ (c = ' ' ∧ odd = false) := fun ⟨hc, hodd⟩ => by
      rw [hw.1 hc] at hodd
      cases hodd
    rw [List.cons_append, itemsFrom, if_neg hinside, ih hw.2 h]
    rfl

/-- Items that are joined are found again. -/
theorem AreItems.items_joinSpaces {ws : List (List Char)} (h : AreItems ws) (hne : ws ≠ []) :
    items (joinSpaces ws) = ws := by
  induction ws with
  | nil => exact absurd rfl hne
  | cons w r ih =>
    have hw := h.escaped w List.mem_cons_self
    cases r with
    | nil =>
      have hend : itemsFrom (oddAfter false w) [] = [[]] := rfl
      simpa [items] using itemsFrom_append hw hend
    | cons v r =>
      have hrest := ih (@AreItems.of_append [w] _ h (by simp)) (by simp)
      have heven : oddAfter false w = false := h.even w List.mem_cons_self
      have hspace : itemsFrom (oddAfter false w) (' ' :: joinSpaces (v :: r)) =
          [] :: (v :: r) := by
        rw [heven, itemsFrom, if_pos ⟨rfl, rfl⟩]
        exact congrArg _ hrest
      rw [Text.joinSpaces_cons_cons, items, itemsFrom_append hw hspace, List.append_nil]

/-- At every width the items of a line are written whole, in groups. -/
theorem AreItems.exists_groups {ws : List (List Char)} (h : AreItems ws) (hne : ws ≠ [])
    {text : String} (htext : text.toList = joinSpaces ws) (lineWidth level : Nat) :
    ∃ groups : List (List (List Char)), groups.flatten = ws ∧ (∀ g ∈ groups, g ≠ []) ∧
      lineText lineWidth level text =
        (lineTexts (level + 2) level (groups.map joinSpaces)).flatMap (· ++ ['\n']) := by
  refine ⟨chunks lineWidth level (level + 2) ws, flatten_chunks _ _ _ _,
    (ne_nil_of_chunks hne).2, ?_⟩
  rw [lineText, wrap, htext, h.items_joinSpaces hne]
  exact layOut_eq_flatMap _ _ _

/-- Whether no space of a text separates, and none behind it is escaped by it. -/
structure IsWhole (w : List Char) : Prop where
  escaped : SpacesAre true false w
  even : oddAfter false w = false

theorem areItems_of_isWhole {ws : List (List Char)} (h : ∀ w ∈ ws, IsWhole w) : AreItems ws :=
  ⟨fun w hw => (h w hw).escaped, fun w hw => (h w (List.dropLast_subset _ hw)).even⟩

namespace IsWhole

theorem of_not_mem {w : List Char} (hspace : ' ' ∉ w) (hdollar : '$' ∉ w) : IsWhole w :=
  ⟨spacesAre_of_not_mem hspace false, oddAfter_of_not_mem hdollar⟩

theorem append {v w : List Char} (hv : IsWhole v) (hw : IsWhole w) : IsWhole (v ++ w) :=
  ⟨spacesAre_append.2 ⟨hv.escaped, by rw [hv.even]; exact hw.escaped⟩,
    by rw [oddAfter_append, hv.even, hw.even]⟩

theorem escapedPath (p : String) : IsWhole (escapedPath p).toList := by
  rw [Ninja.escapedPath, String.toList_ofList]
  exact ⟨spacesAre_escapePathText p.toList, oddAfter_escapePathText p.toList⟩

theorem of_mem_markedPaths {mark : String} (hmark : IsWhole mark.toList) {paths : List String} :
    ∀ w ∈ markedPaths mark paths, IsWhole w.toList := by
  unfold markedPaths
  split
  · nofun
  · refine List.forall_mem_cons.2 ⟨hmark, List.forall_mem_map.2 fun p _ => escapedPath p⟩

end IsWhole

/-! ## The line of an edge -/

namespace BuildEdge

/-- The items of the line of an edge. The colon stands behind the last of the outputs, or alone
where there are none. -/
def words (e : BuildEdge) : List (List Char) :=
  let outputs := e.outputItems.map String.toList
  "build".toList :: outputs.dropLast ++
    (outputs.getLastD [] ++ [':']) :: (e.rule :: e.inputItems).map String.toList

theorem joinSpaces_words (e : BuildEdge) : joinSpaces e.words = e.text.toList := by
  have hcolon : ∀ outputs rest : List (List Char), rest ≠ [] →
      joinSpaces (outputs.dropLast ++ (outputs.getLastD [] ++ [':']) :: rest) =
        joinSpaces outputs ++ ':' :: ' ' :: joinSpaces rest := by
    intro outputs rest hrest
    obtain ⟨v, r, rfl⟩ := List.exists_cons_of_ne_nil hrest
    rcases List.eq_nil_or_concat outputs with rfl | ⟨front, last, rfl⟩
    · exact Text.joinSpaces_cons_cons _ _ _
    · rw [List.concat_eq_append, List.dropLast_concat, List.getLastD_concat]
      by_cases hfront : front = []
      · subst hfront
        simp [Text.joinSpaces_cons_cons]
      · rw [joinSpaces_append hfront (by simp), joinSpaces_append hfront (by simp),
          Text.joinSpaces_cons_cons]
        simp
  have hinputs : (e.rule :: e.inputItems).map String.toList ≠ [] := by simp
  obtain ⟨v, r, hvr⟩ : ∃ v r, (e.outputItems.map String.toList).dropLast ++
      ((e.outputItems.map String.toList).getLastD [] ++ [':']) ::
        (e.rule :: e.inputItems).map String.toList = v :: r :=
    List.exists_cons_of_ne_nil (by simp)
  have hwords : e.words = "build".toList :: v :: r := by rw [words, ← hvr]; rfl
  rw [hwords, Text.joinSpaces_cons_cons, ← hvr, hcolon _ _ hinputs]
  simp only [text, String.toList_append, String.toList_intercalate]
  simp [joinSpaces]

variable {e : BuildEdge}

theorem isWhole_of_mem_outputItems : ∀ w ∈ e.outputItems, IsWhole w.toList :=
  List.forall_mem_append.2 ⟨List.forall_mem_map.2 fun p _ => .escapedPath p,
    IsWhole.of_mem_markedPaths (.of_not_mem (by decide) (by decide))⟩

theorem isWhole_of_mem_inputItems : ∀ w ∈ e.inputItems, IsWhole w.toList := by
  simp only [inputItems, List.forall_mem_append]
  exact ⟨⟨List.forall_mem_map.2 fun p _ => .escapedPath p,
    IsWhole.of_mem_markedPaths (.of_not_mem (by decide) (by decide))⟩,
    IsWhole.of_mem_markedPaths (.of_not_mem (by decide) (by decide))⟩

/-- No item of the line of an edge can be cut, and none reaches into the next. -/
theorem areItems_words (hspace : ' ' ∉ e.rule.toList) (hdollar : '$' ∉ e.rule.toList) :
    AreItems e.words := by
  have houtputs : ∀ w ∈ e.outputItems.map String.toList, IsWhole w :=
    List.forall_mem_map.2 isWhole_of_mem_outputItems
  have hlast : IsWhole ((e.outputItems.map String.toList).getLastD []) := by
    rw [List.getLastD_eq_getLast?]
    cases hl : (e.outputItems.map String.toList).getLast? with
    | none => exact ⟨trivial, rfl⟩
    | some w => exact houtputs w (List.mem_of_mem_getLast? hl)
  refine areItems_of_isWhole ?_
  simp only [words, List.forall_mem_append, List.forall_mem_cons, List.map_cons]
  exact ⟨⟨.of_not_mem (by decide) (by decide),
      fun w hw => houtputs w (List.dropLast_subset _ hw)⟩,
    hlast.append (.of_not_mem (by decide) (by decide)), .of_not_mem hspace hdollar,
    List.forall_mem_map.2 isWhole_of_mem_inputItems⟩

/-- What is to be said of the line of an edge. -/
structure IsLine (e : BuildEdge) (line : String) : Prop where
  /-- The line is the items with one space between two of them. -/
  join : line.toList = joinSpaces e.words
  /-- Where a space is not escaped, it stands between two items. -/
  separates : ∀ i, SeparatesAt (bytes line.toList) i ↔
    ∃ us vs, e.words = us ++ vs ∧ us ≠ [] ∧ vs ≠ [] ∧ width (joinSpaces us) = i
  /-- At every width the physical lines hold groups of whole items. -/
  wrapped : ∀ lineWidth, ∃ groups : List (List (List Char)),
    groups.flatten = e.words ∧ (∀ g ∈ groups, g ≠ []) ∧
      lineText lineWidth 0 line =
        (lineTexts 2 0 (groups.map joinSpaces)).flatMap (· ++ ['\n'])

/-- **The unescaped spaces in the line of an edge are those between its items.** -/
theorem isLine_of_line_eq_ok {line : String} (hspace : ' ' ∉ e.rule.toList)
    (hdollar : '$' ∉ e.rule.toList) (h : e.line = .ok line) : e.IsLine line := by
  obtain ⟨-, rfl⟩ := line_eq_ok_iff.1 h
  have hitems := areItems_words hspace hdollar
  have hjoin := e.joinSpaces_words.symm
  refine ⟨hjoin, fun i => ?_, fun w => hitems.exists_groups (by simp [words]) hjoin w 0⟩
  rw [hjoin]
  exact hitems.separatesAt_iff

end BuildEdge

/-! ## Escaping -/

/-- **Escaping.** Both forms refuse line breaks and are read back. Runs of `$` are even in an
escaped text, and odd in front of the spaces and colons of an escaped path. So the unescaped spaces
in the line of an edge are those between its items, and no width cuts a path. -/
theorem escaping_spec :
    WritesBack escape ∧ WritesBack escapePath ∧
      (∀ s t, escape s = .ok t →
        ∀ before k after, IsRun t.toList before k after → Even k) ∧
      (∀ s t, escapePath s = .ok t →
        ∀ before c after, c = ' ' ∨ c = ':' → t.toList = before ++ c :: after →
          Odd (dollars before)) ∧
      ∀ (e : BuildEdge) (line : String), ' ' ∉ e.rule.toList → '$' ∉ e.rule.toList →
        e.line = .ok line → e.IsLine line := by
  refine ⟨writesBack_escape, writesBack_escapePath, fun s t h before k after hrun => ?_,
    fun s t h before c after hc htext => ?_,
    fun e line hspace hdollar h => BuildEdge.isLine_of_line_eq_ok hspace hdollar h⟩
  · obtain ⟨-, rfl⟩ := escape_eq_ok_iff.1 h
    rw [String.toList_ofList] at hrun
    exact even_of_isRun_escapeText hrun
  · obtain ⟨-, rfl⟩ := escapePath_eq_ok_iff.1 h
    rw [String.toList_ofList] at htext
    exact odd_dollars_of_escapePathText hc htext

/-- Paths that end in `$` and hold `$ ` and `:` stay apart. -/
theorem escaping_spec_awkward :
    let e : BuildEdge := ⟨["a$ b$"], "cc", ["$", " :c"], [], [], [], [], none⟩
    let line := "build a$$$ b$$: cc $$ $ $:c"
    e.line = .ok line ∧ e.IsLine line ∧
      e.words.map String.ofList = ["build", "a$$$ b$$:", "cc", "$$", "$ $:c"] := by
  intro e line
  have hline : e.line = .ok line := by decide +kernel
  obtain ⟨-, -, -, -, hlines⟩ := escaping_spec
  exact ⟨hline, hlines e line (by decide) (by decide) hline, by decide +kernel⟩

end NinjaGen.Ninja
