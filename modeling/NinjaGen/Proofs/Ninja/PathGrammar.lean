import NinjaGen.Proofs.Ninja.Statements

/-!
# Reading the line of an edge

The line of an edge names its files in six lists, and Ninja reads these lists back: paths are
separated by spaces and continuations, `:` ends the outputs, and `|` and `||` start the lists of
files that the command does not name. In a path, `$` vouches for a `$`, a space or a colon.

* `readPaths` reads one list of paths, up to the mark that ends it, and `readBuild` the whole line.
* `readPaths_laid`: a list of paths without `|` is read back as it was written, whatever the layout
  of the line; empty paths leave no trace.
* `pipe_not_mem_of_readPaths`: a path with `|` is never read.
* `BuildEdge.readBuild_write_iff`: an edge is read back exactly when none of its paths holds `|`.
-/

namespace NinjaGen.Ninja

open Text (joinSpaces)

/-! ## Ninja's path grammar -/

/-- A character that ends a list of paths. -/
def endsPaths (c : Char) : Bool := c = ':' || c = '|' || c = '\n'

/-- The path that has been read, last character first, if any. -/
def pathRead (word : List Char) : List String :=
  if word = [] then [] else [String.ofList word.reverse]

/-- The paths up to the mark that ends their list, and what follows from the mark on; `word` is the
part read so far of a path, last character first. -/
def readPaths (word : List Char) : List Char → Option (List String × List Char)
  | [] => some (pathRead word, [])
  | c :: r =>
    if c = '$' then
      match r with
      | [] => none
      | d :: r =>
        if d = '\n' then (readPaths [] r).map fun x => (pathRead word ++ x.1, x.2)
        else if isSpecial d then readPaths (d :: word) r
        else none
    else if c = ' ' then (readPaths [] r).map fun x => (pathRead word ++ x.1, x.2)
    else if endsPaths c then some (pathRead word, c :: r)
    else readPaths (c :: word) r

/-- The number of `|` at the start of a text. -/
def pipes (cs : List Char) : Nat := (cs.takeWhile (· = '|')).length

/-- The paths behind a mark of `n` characters `|`; without the mark there are none. -/
def readMarked (n : Nat) (cs : List Char) : Option (List String × List Char) :=
  if pipes cs = n then readPaths [] (cs.drop n) else some ([], cs)

/-- A text without the spaces and continuations at its start. -/
def dropBlanks : List Char → List Char
  | [] => []
  | c :: r =>
    if c = ' ' then dropBlanks r
    else
      match r with
      | [] => [c]
      | d :: r => if c = '$' ∧ d = '\n' then dropBlanks r else c :: d :: r

/-- The identifier behind blanks, and what follows it. -/
def readIdentifier (cs : List Char) : Option (String × List Char) :=
  match (dropBlanks cs).takeWhile isIdentifierChar with
  | [] => none
  | name => some (String.ofList name, (dropBlanks cs).dropWhile isIdentifierChar)

/-- A text without the keyword that it has to start with. -/
def readKeyword (keyword : String) (cs : List Char) : Option (List Char) :=
  match readIdentifier cs with
  | none => none
  | some (name, cs) => if name = keyword then some cs else none

/-- A text without the character `c` that it has to start with. -/
def expect (c : Char) : List Char → Option (List Char)
  | [] => none
  | d :: r => if d = c then some r else none

/-- The edge of a line, and what follows the line. -/
def readBuild (cs : List Char) : Option (BuildEdge × List Char) := do
  let cs ← readKeyword "build" cs
  let (outputs, cs) ← readPaths [] cs
  let (implicitOutputs, cs) ← readMarked 1 cs
  let cs ← expect ':' cs
  let (rule, cs) ← readIdentifier cs
  let (inputs, cs) ← readPaths [] cs
  let (implicit, cs) ← readMarked 1 cs
  let (orderOnly, cs) ← readMarked 2 cs
  let cs ← expect '\n' cs
  some ({ outputs, rule, inputs, implicit, orderOnly, implicitOutputs }, cs)

/-- What the line of an edge says: its files without empty paths, and its rule. -/
def BuildEdge.onLine (e : BuildEdge) : BuildEdge where
  outputs := e.outputs.filter (· ≠ "")
  rule := e.rule
  inputs := e.inputs.filter (· ≠ "")
  implicit := e.implicit.filter (· ≠ "")
  orderOnly := e.orderOnly.filter (· ≠ "")
  implicitOutputs := e.implicitOutputs.filter (· ≠ "")

/-! ## One step of reading -/

theorem readPaths_special {c : Char} (h : isSpecial c = true) (word r : List Char) :
    readPaths word ('$' :: c :: r) = readPaths (c :: word) r := by
  have hn : c ≠ '\n' := by
    rintro rfl
    cases h
  rw [readPaths, if_pos rfl]
  simp only [if_neg hn, h, if_true]

theorem readPaths_continuation (word r : List Char) :
    readPaths word ('$' :: '\n' :: r) =
      (readPaths [] r).map fun x => (pathRead word ++ x.1, x.2) := by
  rw [readPaths, if_pos rfl]
  simp only [if_true]

theorem readPaths_space (word r : List Char) :
    readPaths word (' ' :: r) = (readPaths [] r).map fun x => (pathRead word ++ x.1, x.2) := by
  rw [readPaths.eq_def]
  dsimp only
  rw [if_neg (by decide), if_pos rfl]

theorem readPaths_mark {c : Char} (h : endsPaths c = true) (word r : List Char) :
    readPaths word (c :: r) = some (pathRead word, c :: r) := by
  have hd : c ≠ '$' := by
    rintro rfl
    cases h
  have hs : c ≠ ' ' := by
    rintro rfl
    cases h
  rw [readPaths.eq_def]
  dsimp only
  rw [if_neg hd, if_neg hs, if_pos h]

theorem readPaths_char {c : Char} (hdollar : c ≠ '$') (hspace : c ≠ ' ')
    (hm : endsPaths c = false) (word r : List Char) :
    readPaths word (c :: r) = readPaths (c :: word) r := by
  rw [readPaths.eq_def]
  dsimp only
  rw [if_neg hdollar, if_neg hspace, if_neg (by simp [hm])]

/-- An escaped path is read up to its end. -/
theorem readPaths_escapePathText {p : List Char} (hn : '\n' ∉ p) (hp : '|' ∉ p) :
    ∀ word u, readPaths word (escapePathText p ++ u) = readPaths (p.reverse ++ word) u := by
  induction p with
  | nil => exact fun _ _ => rfl
  | cons c r ih =>
    intro word u
    simp only [List.mem_cons, not_or] at hn hp
    have hr := ih hn.2 hp.2 (c :: word) u
    rw [escapePathText] at hr
    rw [escapePathText, List.flatMap_cons, List.append_assoc, List.reverse_cons, List.append_assoc,
      List.singleton_append, ← hr]
    by_cases hc : isSpecial c = true
    · rw [if_pos hc, List.cons_append, List.singleton_append, readPaths_special hc]
    · rw [if_neg hc]
      simp only [isSpecial, Bool.or_eq_true, decide_eq_true_eq, not_or] at hc
      obtain ⟨⟨hdollar, hspace⟩, hcolon⟩ := hc
      have hm : endsPaths c = false := by
        simp [endsPaths, hcolon, Ne.symm hp.1, Ne.symm hn.1]
      rw [List.singleton_append, readPaths_char hdollar hspace hm]

/-! ## Reading a layout -/

/-- Whether a text starts with what ends a path. -/
def Separates (u : List Char) : Prop := ∃ c r, u = c :: r ∧ (c = ' ' ∨ endsPaths c = true)

theorem readPaths_of_separates {u : List Char} (h : Separates u) (word : List Char) :
    readPaths word u = (readPaths [] u).map fun x => (pathRead word ++ x.1, x.2) := by
  obtain ⟨c, r, rfl, rfl | hc⟩ := h
  · rw [readPaths_space, readPaths_space, Option.map_map]
    rfl
  · rw [readPaths_mark hc, readPaths_mark hc]
    simp [pathRead]

theorem readPaths_blank (u : List Char) : readPaths [] (' ' :: u) = readPaths [] u := by
  rw [readPaths_space]
  simp [pathRead]

theorem readPaths_gap {further : Nat} {gap : List Char} (h : IsGap further gap) (u : List Char) :
    readPaths [] (gap ++ u) = readPaths [] u := by
  rcases h with rfl | rfl
  · exact readPaths_blank u
  · rw [List.cons_append, readPaths_blank, List.cons_append, List.cons_append,
      readPaths_continuation, apply_indentation readPaths_blank]
    simp [pathRead]

theorem dropBlanks_blank (r : List Char) : dropBlanks (' ' :: r) = dropBlanks r := by
  cases r <;> simp [dropBlanks]

theorem dropBlanks_cons {c : Char} (hspace : c ≠ ' ') (hdollar : c ≠ '$') (r : List Char) :
    dropBlanks (c :: r) = c :: r := by
  cases r <;> simp [dropBlanks, hspace, hdollar]

theorem dropBlanks_escape {c : Char} (hc : c ≠ '\n') (r : List Char) :
    dropBlanks ('$' :: c :: r) = '$' :: c :: r := by
  simp [dropBlanks, hc]

theorem dropBlanks_continuation (r : List Char) : dropBlanks ('$' :: '\n' :: r) = dropBlanks r := by
  simp [dropBlanks]

theorem dropBlanks_gap {further : Nat} {gap : List Char} (h : IsGap further gap) (u : List Char) :
    dropBlanks (gap ++ u) = dropBlanks u := by
  rcases h with rfl | rfl
  · exact dropBlanks_blank u
  · rw [List.cons_append, dropBlanks_blank, List.cons_append, List.cons_append,
      dropBlanks_continuation, apply_indentation dropBlanks_blank]

/-- Texts with a space in front of each. -/
def spaced (items : List (List Char)) : List Char := items.flatMap (' ' :: ·)

theorem spaced_append (xs ys : List (List Char)) : spaced (xs ++ ys) = spaced xs ++ spaced ys :=
  List.flatMap_append

theorem spaced_cons (w : List Char) (r : List (List Char)) :
    spaced (w :: r) = ' ' :: (w ++ spaced r) :=
  rfl

theorem cons_joinSpaces (w : List Char) (r : List (List Char)) :
    ' ' :: joinSpaces (w :: r) = spaced (w :: r) := by
  induction r generalizing w with
  | nil => simp [spaced]
  | cons v r ih =>
    rw [Text.joinSpaces_cons_cons, ih, spaced_cons w]

/-- The rest of a line behind a list of paths. -/
def EndsList (b : List Char) : Prop := b = [] ∨ Separates b

theorem endsList_colon (b : List Char) : EndsList (':' :: b) := .inr ⟨':', b, rfl, .inr rfl⟩

theorem endsList_spaced (items : List (List Char)) {b : List Char} (hb : EndsList b) :
    EndsList (spaced items ++ b) := by
  cases items with
  | nil => exact hb
  | cons w r => exact .inr ⟨' ', _, rfl, .inl rfl⟩

/-- Every layout of what ends a list of paths does so, too. -/
theorem separates_of_laid {further : Nat} {b t : List Char} (hb : EndsList b)
    (h : Laid further false b t) (rest : List Char) : Separates (t ++ rest) := by
  rcases hb with rfl | ⟨c, r, rfl, hc⟩
  · cases h
    exact ⟨'\n', rest, rfl, .inr rfl⟩
  · cases h with
    | char => exact ⟨c, _, rfl, hc⟩
    | cut => exact ⟨' ', _, rfl, .inl rfl⟩

/-- The escaped form of a path. -/
abbrev escapedChars (p : String) : List Char := escapePathText p.toList

/-- A path that has been read whole. -/
theorem pathRead_reverse (p : String) :
    pathRead p.toList.reverse = [p].filter (· ≠ "") := by
  unfold pathRead
  by_cases hp : p = ""
  · simp [hp]
  · simp [hp]

/-- **A list of paths is read back as it was written**, in every layout of its line. -/
theorem readPaths_laid {further : Nat} {ps : List String}
    (hn : ∀ p ∈ ps, '\n' ∉ p.toList) (hp : ∀ p ∈ ps, '|' ∉ p.toList) :
    ∀ {b t : List Char}, EndsList b → Laid further false (spaced (ps.map escapedChars) ++ b) t →
      ∃ t', Laid further false b t' ∧ ∀ rest, readPaths [] (t ++ rest) =
        (readPaths [] (t' ++ rest)).map fun x => (ps.filter (· ≠ "") ++ x.1, x.2) := by
  induction ps with
  | nil => exact fun _ h => ⟨_, h, fun rest => by simp⟩
  | cons p r ih =>
    intro b t hb h
    rw [List.forall_mem_cons] at hn hp
    rw [List.map_cons, spaced_cons, List.cons_append, List.append_assoc] at h
    obtain ⟨gap, t₁, rfl, hgap, h₁⟩ := h.of_space
    obtain ⟨t₂, rfl, h₂⟩ := h₁.of_append (spacesAre_escapePathText p.toList)
    rw [oddAfter_escapePathText] at h₂
    obtain ⟨t', ht', hread⟩ := ih hn.2 hp.2 hb h₂
    refine ⟨t', ht', fun rest => ?_⟩
    have hsep := separates_of_laid (endsList_spaced (r.map escapedChars) hb) h₂ rest
    rw [List.append_assoc, List.append_assoc, readPaths_gap hgap,
      readPaths_escapePathText hn.1 hp.1, List.append_nil, readPaths_of_separates hsep,
      hread rest, Option.map_map, pathRead_reverse,
      show p :: r = [p] ++ r from rfl, List.filter_append]
    simp only [Function.comp_def, List.append_assoc]

/-! ## The parts of the line -/

theorem pipes_replicate {n : Nat} {u : List Char} (hu : u.head? ≠ some '|') :
    pipes (List.replicate n '|' ++ u) = n := by
  have hstop : u.takeWhile (· = '|') = [] := by
    cases u with
    | nil => rfl
    | cons c r => exact List.takeWhile_cons_of_neg (by simpa using hu)
  rw [pipes, List.takeWhile_append_of_pos (by simp), hstop]
  simp

theorem map_toList_escapedPath (ps : List String) :
    (ps.map escapedPath).map String.toList = ps.map escapedChars := by
  rw [List.map_map]
  exact List.map_congr_left fun p _ => String.toList_ofList

/-- A marked list of paths is read back as it was written, or as no paths where there is no mark;
`u` is what the rest of the line is read from. -/
theorem readMarked_laid {further n : Nat} (hpos : 0 < n) {mark : String}
    (hmark : mark.toList = List.replicate n '|') {ps : List String}
    (hn : ∀ p ∈ ps, '\n' ∉ p.toList) (hp : ∀ p ∈ ps, '|' ∉ p.toList) {b t : List Char}
    (hb : EndsList b)
    (h : Laid further false (spaced ((markedPaths mark ps).map String.toList) ++ b) t) :
    ∃ t', Laid further false b t' ∧ ∀ rest u, readPaths [] (t' ++ rest) = some ([], u) →
      pipes u ≠ n → ∃ v, readPaths [] (t ++ rest) = some ([], v) ∧
        readMarked n v = some (ps.filter (· ≠ ""), u) ∧ (v = u ∨ pipes v = n) := by
  unfold markedPaths at h
  split at h
  next hps =>
    subst hps
    exact ⟨t, h, fun rest u hu hpipes => ⟨u, hu, if_neg hpipes, .inl rfl⟩⟩
  next hps =>
    rw [List.map_cons, map_toList_escapedPath, spaced_cons, List.cons_append, List.append_assoc,
      hmark] at h
    obtain ⟨gap, t₁, rfl, hgap, h₁⟩ := h.of_space
    have hspaces : ' ' ∉ List.replicate n '|' := by simp
    obtain ⟨t₂, rfl, h₂⟩ := h₁.of_append (spacesAre_of_not_mem hspaces false)
    rw [oddAfter_of_not_mem (by simp)] at h₂
    obtain ⟨t', ht', hread⟩ := readPaths_laid hn hp hb h₂
    refine ⟨t', ht', fun rest u hu hpipes => ⟨List.replicate n '|' ++ (t₂ ++ rest), ?_, ?_, ?_⟩⟩
    all_goals
      have hhead : (t₂ ++ rest).head? ≠ some '|' := by
        obtain ⟨p, r, rfl⟩ := List.exists_cons_of_ne_nil hps
        obtain ⟨gap', t₃, rfl, hgap', -⟩ := h₂.of_space
        rw [List.append_assoc, hgap'.head?_append]
        simp
    · obtain ⟨m, rfl⟩ := Nat.exists_eq_add_of_lt hpos
      rw [List.append_assoc, List.append_assoc, readPaths_gap hgap, Nat.zero_add,
        List.replicate_succ, List.cons_append, readPaths_mark rfl]
      rfl
    · rw [readMarked, if_pos (pipes_replicate hhead),
        List.drop_left' (List.length_replicate ..), hread, hu]
      simp
    · exact .inr (pipes_replicate hhead)

/-- An identifier is read up to its end. -/
theorem readIdentifier_append {name : String} (hname : IsIdentifier name) {u : List Char}
    (hu : Separates u) : readIdentifier (name.toList ++ u) = some (name, u) := by
  obtain ⟨d, u, rfl, hd⟩ := hu
  have hstop : isIdentifierChar d = false := by
    rcases hd with rfl | hd
    · decide
    · simp only [endsPaths, Bool.or_eq_true, decide_eq_true_eq] at hd
      rcases hd with (rfl | rfl) | rfl <;> decide
  have hne : name.toList ≠ [] := by simpa using hname.1
  have hblanks : dropBlanks (name.toList ++ d :: u) = name.toList ++ d :: u := by
    obtain ⟨c, r, hcr⟩ := List.exists_cons_of_ne_nil hne
    have hc : isIdentifierChar c = true := hname.2 c (hcr ▸ List.mem_cons_self)
    have hspace : c ≠ ' ' := by
      rintro rfl
      cases hc
    have hdollar : c ≠ '$' := by
      rintro rfl
      cases hc
    rw [hcr, List.cons_append]
    exact dropBlanks_cons hspace hdollar _
  have htake : (name.toList ++ d :: u).takeWhile isIdentifierChar = name.toList := by
    rw [List.takeWhile_append_of_pos hname.2, List.takeWhile_cons_of_neg (by simp [hstop]),
      List.append_nil]
  have hdrop : (name.toList ++ d :: u).dropWhile isIdentifierChar = d :: u := by
    rw [List.dropWhile_append_of_pos hname.2, List.dropWhile_cons_of_neg (by simp [hstop])]
  rw [readIdentifier, hblanks, htake, hdrop]
  split
  next hnil => exact absurd hnil hne
  next => rw [String.ofList_toList]

/-- The name of a rule is read as it was written, in every layout of its line. -/
theorem readIdentifier_laid {further : Nat} {name : String} (hname : IsIdentifier name)
    {b t : List Char} (hb : EndsList b) (h : Laid further false (' ' :: (name.toList ++ b)) t) :
    ∃ t', Laid further false b t' ∧
      ∀ rest, readIdentifier (t ++ rest) = some (name, t' ++ rest) := by
  obtain ⟨gap, t₁, rfl, hgap, h₁⟩ := h.of_space
  have hspaces : ' ' ∉ name.toList := hname.not_mem (by decide)
  obtain ⟨t', rfl, h'⟩ := h₁.of_append (spacesAre_of_not_mem hspaces false)
  rw [hname.isValue.1.2] at h'
  refine ⟨t', h', fun rest => ?_⟩
  have hread := readIdentifier_append hname (separates_of_laid hb h' rest)
  rw [readIdentifier] at hread ⊢
  rwa [List.append_assoc, List.append_assoc, dropBlanks_gap hgap]

/-- The outputs of a line, up to the colon. -/
theorem readOutputs_laid {further : Nat} {outs implicitOuts : List String}
    (hn : ∀ p ∈ outs ++ implicitOuts, '\n' ∉ p.toList)
    (hp : ∀ p ∈ outs ++ implicitOuts, '|' ∉ p.toList) {b t : List Char}
    (h : Laid further false (spaced (outs.map escapedChars) ++
      (spaced ((markedPaths "|" implicitOuts).map String.toList) ++ ':' :: b)) t) :
    ∃ t', Laid further false b t' ∧ ∀ rest, ∃ v,
      readPaths [] (t ++ rest) = some (outs.filter (· ≠ ""), v) ∧
        readMarked 1 v = some (implicitOuts.filter (· ≠ ""), ':' :: (t' ++ rest)) := by
  rw [List.forall_mem_append] at hn hp
  have hcolon := endsList_colon b
  obtain ⟨t₁, h₁, houts⟩ := readPaths_laid hn.1 hp.1 (endsList_spaced _ hcolon) h
  obtain ⟨t₂, h₂, himplicit⟩ := readMarked_laid Nat.one_pos rfl hn.2 hp.2 hcolon h₁
  cases h₂ with
  | @char _ _ _ t' h' =>
    refine ⟨t', h', fun rest => ?_⟩
    obtain ⟨v, hv, hmarked, -⟩ := himplicit rest (':' :: (t' ++ rest)) (readPaths_mark rfl _ _)
      (by simp [pipes])
    refine ⟨v, ?_, hmarked⟩
    rw [houts rest, hv]
    simp

/-- The inputs of a line, up to its end. -/
theorem readInputs_laid {further : Nat} {ins implicit orderOnly : List String}
    (hn : ∀ p ∈ ins ++ implicit ++ orderOnly, '\n' ∉ p.toList)
    (hp : ∀ p ∈ ins ++ implicit ++ orderOnly, '|' ∉ p.toList) {t : List Char}
    (h : Laid further false (spaced (ins.map escapedChars) ++
      (spaced ((markedPaths "|" implicit).map String.toList) ++
        spaced ((markedPaths "||" orderOnly).map String.toList))) t) (rest : List Char) :
    ∃ v w, readPaths [] (t ++ rest) = some (ins.filter (· ≠ ""), v) ∧
      readMarked 1 v = some (implicit.filter (· ≠ ""), w) ∧
        readMarked 2 w = some (orderOnly.filter (· ≠ ""), '\n' :: rest) := by
  simp only [List.forall_mem_append] at hn hp
  obtain ⟨⟨hni, hnim⟩, hnoo⟩ := hn
  obtain ⟨⟨hpi, hpim⟩, hpoo⟩ := hp
  rw [← List.append_nil (spaced ((markedPaths "||" orderOnly).map String.toList))] at h
  have hend : EndsList [] := .inl rfl
  have hend' := endsList_spaced ((markedPaths "||" orderOnly).map String.toList) hend
  obtain ⟨t₁, h₁, hins⟩ := readPaths_laid hni hpi (endsList_spaced _ hend') h
  obtain ⟨t₂, h₂, himplicit⟩ := readMarked_laid Nat.one_pos rfl hnim hpim hend' h₁
  obtain ⟨t₃, h₃, horder⟩ := readMarked_laid Nat.two_pos rfl hnoo hpoo hend h₂
  cases h₃
  obtain ⟨w, hw, hmarked₂, hpipes⟩ := horder rest ('\n' :: rest) (readPaths_mark rfl _ _)
    (by simp [pipes])
  have hne : pipes w ≠ 1 := by
    rcases hpipes with rfl | hpipes
    · simp [pipes]
    · rw [hpipes]
      decide
  obtain ⟨v, hv, hmarked₁, -⟩ := himplicit rest w hw hne
  refine ⟨v, w, ?_, hmarked₁, hmarked₂⟩
  rw [hins rest, hv]
  simp

/-! ## What is never read -/

theorem pipe_not_mem_of_pathRead {word : List Char} (h : '|' ∉ word) :
    ∀ p ∈ pathRead word, '|' ∉ p.toList := by
  unfold pathRead
  split
  · exact List.forall_mem_nil _
  · rw [List.forall_mem_singleton, String.toList_ofList, List.mem_reverse]
    exact h

theorem pipe_not_mem_of_map {word : List Char} {x : Option (List String × List Char)}
    {ps : List String} {r : List Char} (hword : '|' ∉ word)
    (h : x.map (fun y => (pathRead word ++ y.1, y.2)) = some (ps, r))
    (hx : ∀ qs r, x = some (qs, r) → ∀ p ∈ qs, '|' ∉ p.toList) : ∀ p ∈ ps, '|' ∉ p.toList := by
  obtain ⟨⟨qs, r'⟩, hqs, heq⟩ := Option.map_eq_some_iff.1 h
  cases heq
  exact List.forall_mem_append.2 ⟨pipe_not_mem_of_pathRead hword, hx qs r' hqs⟩

/-- **No path with `|` is ever read.** -/
theorem pipe_not_mem_of_readPaths {word cs : List Char} {ps : List String} {r : List Char}
    (hword : '|' ∉ word) (h : readPaths word cs = some (ps, r)) : ∀ p ∈ ps, '|' ∉ p.toList := by
  fun_induction readPaths word cs generalizing ps r with
  | case1 word =>
    cases h
    exact pipe_not_mem_of_pathRead hword
  | case2 => cases h
  | case3 word r ih => exact pipe_not_mem_of_map hword h fun _ _ hq => ih (by simp) hq
  | case4 word d r hn hd ih =>
    have hpipe : '|' ≠ d := by
      rintro rfl
      cases hd
    exact ih (by simpa using ⟨hpipe, hword⟩) h
  | case5 => cases h
  | case6 word r _ ih => exact pipe_not_mem_of_map hword h fun _ _ hq => ih (by simp) hq
  | case7 word c r _ _ _ =>
    cases h
    exact pipe_not_mem_of_pathRead hword
  | case8 word c r _ _ hm ih =>
    have hpipe : '|' ≠ c := by
      rintro rfl
      exact hm rfl
    exact ih (by simpa using ⟨hpipe, hword⟩) h

theorem pipe_not_mem_of_readMarked {n : Nat} {cs : List Char} {ps : List String} {r : List Char}
    (h : readMarked n cs = some (ps, r)) : ∀ p ∈ ps, '|' ∉ p.toList := by
  unfold readMarked at h
  split at h
  · exact pipe_not_mem_of_readPaths List.not_mem_nil h
  · cases h
    exact List.forall_mem_nil _

theorem pipe_not_mem_of_readBuild {cs rest : List Char} {e : BuildEdge}
    (h : readBuild cs = some (e, rest)) : ∀ p ∈ e.paths, '|' ∉ p.toList := by
  simp only [readBuild, Option.bind_eq_bind, Option.bind_eq_some_iff] at h
  obtain ⟨_, -, _, houts, _, himplicitOuts, _, -, _, -, _, hins, _, himplicit, _, horder, _, -,
    h⟩ := h
  cases h
  simp only [BuildEdge.paths, List.forall_mem_append]
  exact ⟨⟨⟨⟨pipe_not_mem_of_readPaths List.not_mem_nil houts,
    pipe_not_mem_of_readMarked himplicitOuts⟩,
    pipe_not_mem_of_readPaths List.not_mem_nil hins⟩,
    pipe_not_mem_of_readMarked himplicit⟩, pipe_not_mem_of_readMarked horder⟩

/-! ## The whole line -/

namespace BuildEdge

theorem newline_not_mem_of_paths {e : BuildEdge} (h : ∀ p ∈ e.paths, hasLineBreak p = false) :
    ∀ p ∈ e.paths, '\n' ∉ p.toList :=
  fun p hp => newline_not_mem_of_hasLineBreak (h p hp)

/-- The outputs of an edge as its line spaces them: where there are none, the line holds an empty
one. -/
def spacedOutputs (e : BuildEdge) : List String :=
  if e.outputItems = [] then [""] else e.outputs

theorem filter_spacedOutputs (e : BuildEdge) :
    e.spacedOutputs.filter (· ≠ "") = e.outputs.filter (· ≠ "") := by
  unfold spacedOutputs
  split
  next h =>
    have houtputs : e.outputs = [] := by
      simp only [outputItems, List.append_eq_nil_iff, List.map_eq_nil_iff] at h
      exact h.1
    rw [houtputs]
    rfl
  next => rfl

theorem mem_of_mem_spacedOutputs {e : BuildEdge} {p : String} (h : p ∈ e.spacedOutputs) :
    p = "" ∨ p ∈ e.outputs := by
  unfold spacedOutputs at h
  split at h
  · exact .inl (List.mem_singleton.1 h)
  · exact .inr h

theorem toList_text (e : BuildEdge) :
    e.text.toList = "build".toList ++ (spaced (e.spacedOutputs.map escapedChars) ++
      (spaced ((markedPaths "|" e.implicitOutputs).map String.toList) ++
        ':' :: ' ' :: (e.rule.toList ++ (spaced (e.inputs.map escapedChars) ++
          (spaced ((markedPaths "|" e.implicit).map String.toList) ++
            spaced ((markedPaths "||" e.orderOnly).map String.toList)))))) := by
  have hout : ' ' :: joinSpaces (e.outputItems.map String.toList) =
      spaced (e.spacedOutputs.map escapedChars) ++
        spaced ((markedPaths "|" e.implicitOutputs).map String.toList) := by
    unfold spacedOutputs
    split
    next h =>
      simp only [outputItems, List.append_eq_nil_iff] at h
      rw [outputItems, h.1, h.2]
      rfl
    next h =>
      obtain ⟨w, r, hwr⟩ := List.exists_cons_of_ne_nil h
      rw [← map_toList_escapedPath, ← spaced_append, ← List.map_append, ← outputItems, hwr,
        List.map_cons, cons_joinSpaces]
  have hin : ' ' :: joinSpaces ((e.rule :: e.inputItems).map String.toList) =
      ' ' :: (e.rule.toList ++ (spaced (e.inputs.map escapedChars) ++
        (spaced ((markedPaths "|" e.implicit).map String.toList) ++
          spaced ((markedPaths "||" e.orderOnly).map String.toList)))) := by
    rw [List.map_cons, cons_joinSpaces, spaced_cons, inputItems, List.map_append, List.map_append,
      spaced_append, spaced_append, map_toList_escapedPath, List.append_assoc]
  have hline : e.text.toList = "build".toList ++
      (' ' :: joinSpaces (e.outputItems.map String.toList) ++
        ':' :: ' ' :: joinSpaces ((e.rule :: e.inputItems).map String.toList)) := by
    simp only [text, String.toList_append, String.toList_intercalate, List.append_assoc]
    rfl
  rw [hline, hout, hin, List.append_assoc]

/-- In every layout, a line without `|` in its paths is read back as the edge. -/
theorem readBuild_laid {further : Nat} {e : BuildEdge} (hrule : IsIdentifier e.rule)
    (hn : ∀ p ∈ e.paths, '\n' ∉ p.toList) (hp : ∀ p ∈ e.paths, '|' ∉ p.toList) {t : List Char}
    (h : Laid further false e.text.toList t) (rest : List Char) :
    readBuild (t ++ rest) = some (e.onLine, rest) := by
  have hin : ∀ p ∈ e.inputs ++ e.implicit ++ e.orderOnly, p ∈ e.paths := by
    simp only [paths, List.mem_append]
    tauto
  have hout : ∀ p ∈ e.spacedOutputs ++ e.implicitOutputs, p = "" ∨ p ∈ e.paths := by
    intro p hm
    simp only [paths, List.mem_append] at hm ⊢
    rcases hm with hm | hm
    · have := mem_of_mem_spacedOutputs hm
      tauto
    · tauto
  have hspaced : ∀ c : Char, (∀ p ∈ e.paths, c ∉ p.toList) →
      ∀ p ∈ e.spacedOutputs ++ e.implicitOutputs, c ∉ p.toList := by
    intro c hc p hm
    rcases hout p hm with rfl | hm
    · exact List.not_mem_nil
    · exact hc p hm
  rw [toList_text] at h
  obtain ⟨t₁, rfl, h₁⟩ := h.of_append (spacesAre_of_not_mem (by decide) false)
  rw [oddAfter_of_not_mem (by decide)] at h₁
  have hkeyword : IsIdentifier "build" := by decide
  have hkey : readKeyword "build" ("build".toList ++ (t₁ ++ rest)) = some (t₁ ++ rest) := by
    have hsep :=
      separates_of_laid (endsList_spaced _ (endsList_spaced _ (endsList_colon _))) h₁ rest
    rw [readKeyword, readIdentifier_append hkeyword hsep]
    rfl
  obtain ⟨t₂, h₂, hread₂⟩ := readOutputs_laid (hspaced '\n' hn) (hspaced '|' hp) h₁
  have hend := endsList_spaced ((markedPaths "||" e.orderOnly).map String.toList) (.inl rfl)
  rw [List.append_nil] at hend
  obtain ⟨t₃, h₃, hread₃⟩ :=
    readIdentifier_laid hrule (endsList_spaced _ (endsList_spaced _ hend)) h₂
  obtain ⟨v, houts, himplicitOuts⟩ := hread₂ rest
  obtain ⟨w, x, hins, himplicit, horder⟩ :=
    readInputs_laid (fun p hm => hn p (hin p hm)) (fun p hm => hp p (hin p hm)) h₃ rest
  rw [filter_spacedOutputs] at houts
  rw [List.append_assoc, readBuild, hkey]
  simp [houts, himplicitOuts, expect, hread₃ rest, hins, himplicit, horder, onLine]

/-- Whether a path holds `|` is seen from its line without the empty paths. -/
theorem mem_paths_onLine {e : BuildEdge} {p : String} (hp : p ∈ e.paths) (hne : p ≠ "") :
    p ∈ e.onLine.paths := by
  simp only [paths, onLine, List.mem_append, List.mem_filter, decide_eq_true_eq] at hp ⊢
  tauto

/-- **The line of an edge is read back exactly when none of its paths holds `|`.** Then all lists
come back in order, without their empty paths, whatever else is in the paths and at every width. -/
theorem readBuild_write_iff {lineWidth : Nat} {e : BuildEdge} {t : List Char}
    (hrule : IsIdentifier e.rule) (ht : (Statement.build e).write lineWidth = .ok t) :
    readBuild t = some (e.onLine, assignmentsText lineWidth e.variables) ↔
      ∀ p ∈ e.paths, '|' ∉ p.toList := by
  obtain ⟨hpaths, rfl⟩ := Statement.write_eq_ok_iff.1 ht
  rw [Statement.lines, List.flatMap_cons, Statement.flatMap_write_assignments]
  constructor
  · intro h p hp hpipe
    have hne : p ≠ "" := by
      rintro rfl
      exact List.not_mem_nil hpipe
    exact pipe_not_mem_of_readBuild h p (mem_paths_onLine hp hne) hpipe
  · intro hp
    obtain ⟨t, hwrite, hlaid⟩ := exists_laid_wrap lineWidth 0 e.text.toList
    rw [LogicalLine.write, hwrite]
    exact readBuild_laid hrule (newline_not_mem_of_paths hpaths) hp hlaid _

/-- An edge of awkward paths, broken at every space that separates items. -/
theorem readBuild_write_awkward :
    let e : BuildEdge :=
      { outputs := ["a b", "", "$:"], rule := "c-c.x", inputs := ["", "x "], implicit := [" $"],
        orderOnly := [":"], assignments := [("flags", "-g  -O2")], implicitOutputs := [""] }
    IsIdentifier e.rule ∧ ∃ t, (Statement.build e).write 0 = .ok t ∧
      readBuild t = some (e.onLine, assignmentsText 0 e.variables) := by
  intro e
  have hrule : IsIdentifier e.rule := by decide
  have hok : ((Statement.build e).write 0).isOk = true := by decide +kernel
  obtain ⟨t, ht⟩ := isOk_iff.1 hok
  have hpipes : ∀ p ∈ e.paths, '|' ∉ p.toList := by decide
  exact ⟨hrule, t, ht, (readBuild_write_iff hrule ht).2 hpipes⟩

/-- The output `a|b` is read as an output and an implicit output. -/
theorem readBuild_write_pipe :
    let e : BuildEdge := { outputs := ["a|b"], rule := "cc", inputs := ["c"] }
    let read : BuildEdge :=
      { outputs := ["a"], implicitOutputs := ["b"], rule := "cc", inputs := ["c"] }
    ∃ t, IsIdentifier e.rule ∧ (Statement.build e).write 144 = .ok t ∧
      readBuild t = some (read, assignmentsText 144 e.variables) ∧ read ≠ e.onLine :=
  ⟨"build a|b: cc c\n".toList, by decide, by decide +kernel, by decide +kernel, by decide⟩

end BuildEdge

end NinjaGen.Ninja
