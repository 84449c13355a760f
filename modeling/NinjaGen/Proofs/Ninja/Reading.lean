import NinjaGen.Proofs.Ninja.PathGrammar
import NinjaGen.Proofs.Ninja.Thinning

/-!
# Reading statements

Ninja reads a statement behind its first word: the paths of an edge, a name, or the value of a
variable. Spaces only separate in all of these but the last.

* The readers of paths and of edges do not mind lost spaces (`readPaths_thinned`,
  `readBuild_thinned`).
* `parts` are the parts of a value. A value that has lost spaces is the same but for the length of
  its runs of spaces (`squeeze_parts`), and their number shows whether it has (`count_parts`).
* `readStatement` reads a statement; of any statement, only the spaces of a value depend on lost
  spaces (`squeezed_readStatement`).
-/

namespace NinjaGen.Ninja

/-! ## Readers of thinned texts -/

/-- Whether readers say the same and leave the same but for lost spaces. -/
abbrev Agree {α : Type} : Option (α × List Char) → Option (α × List Char) → Prop :=
  Option.Rel fun x y => x.1 = y.1 ∧ Thinned false false x.2 y.2

theorem rel_bind {α β : Type} {r : α → α → Prop} {s : β → β → Prop} {x y : Option α}
    {f g : α → Option β} (h : Option.Rel r x y)
    (hfg : ∀ a b, r a b → Option.Rel s (f a) (g b)) : Option.Rel s (x.bind f) (y.bind g) := by
  cases h with
  | none => exact .none
  | some hab => exact hfg _ _ hab

theorem agree_map {α β : Type} {x y : Option (α × List Char)} {f : α → β} (h : Agree x y) :
    Agree (x.map fun z => (f z.1, z.2)) (y.map fun z => (f z.1, z.2)) := by
  cases h with
  | none => exact .none
  | some hxy => exact .some ⟨congrArg f hxy.1, hxy.2⟩

theorem map_eq_of_agree {α β : Type} {x y : Option (α × List Char)} (h : Agree x y) (f : α → β) :
    (x.map fun z => f z.1) = y.map fun z => f z.1 := by
  cases h with
  | none => rfl
  | some hxy => exact congrArg (fun a => some (f a)) hxy.1

variable {prev : Bool} {cs ds : List Char}

theorem dropBlanks_thinned (h : Thinned prev false cs ds) :
    Thinned false false (dropBlanks cs) (dropBlanks ds) := by
  fun_induction dropBlanks cs generalizing prev ds with
  | case1 =>
    cases h
    exact .nil
  | case2 r ih =>
    cases h with
    | keep h =>
      rw [dropBlanks_blank]
      exact ih h
    | drop h => exact ih h
  | case3 c hc =>
    obtain ⟨ds', rfl, h'⟩ := h.of_cons fun hspace => absurd hspace hc
    obtain ⟨-, rfl⟩ := h'.of_nil
    have hdrop : dropBlanks [c] = [c] := by simp [dropBlanks, hc]
    rw [hdrop]
    exact h.of_head (by simpa using hc)
  | case4 c hc d r hd ih =>
    obtain ⟨rfl, rfl⟩ := hd
    obtain ⟨ds', rfl, h'⟩ := h.of_escape
    rw [dropBlanks_continuation]
    exact ih h'
  | case5 c hc d r hd =>
    obtain ⟨ds', rfl, h'⟩ := h.of_cons fun hspace => absurd hspace hc
    have hdrop : dropBlanks (c :: ds') = c :: ds' := by
      by_cases hdollar : c = '$'
      · subst hdollar
        obtain ⟨ds'', heq, -⟩ := h.of_escape
        cases heq
        exact dropBlanks_escape (fun hnewline => hd ⟨rfl, hnewline⟩) ds''
      · exact dropBlanks_cons hc hdollar ds'
    rw [hdrop]
    exact h.of_head (by simpa using hc)

/-- A class of characters that holds neither spaces nor `$`. -/
structure IsPlainClass (p : Char → Bool) : Prop where
  space : p ' ' = false
  dollar : p '$' = false

theorem takeWhile_thinned {p : Char → Bool} (hp : IsPlainClass p) (h : Thinned false false cs ds) :
    cs.takeWhile p = ds.takeWhile p ∧ Thinned false false (cs.dropWhile p) (ds.dropWhile p) := by
  induction cs generalizing ds with
  | nil =>
    obtain ⟨-, rfl⟩ := h.of_nil
    exact ⟨rfl, .nil⟩
  | cons c r ih =>
    by_cases hc : p c = true
    · have hspace : c ≠ ' ' := by
        rintro rfl
        exact absurd hp.space (by simp [hc])
      have hdollar : c ≠ '$' := by
        rintro rfl
        exact absurd hp.dollar (by simp [hc])
      obtain ⟨ds', rfl, h'⟩ := h.of_cons fun h => absurd h hspace
      rw [decide_eq_false hdollar] at h'
      obtain ⟨htake, hdrop⟩ := ih h'
      rw [List.takeWhile_cons_of_pos hc, List.takeWhile_cons_of_pos hc,
        List.dropWhile_cons_of_pos hc, List.dropWhile_cons_of_pos hc]
      exact ⟨congrArg (c :: ·) htake, hdrop⟩
    · cases h with
      | keep h =>
        rw [List.takeWhile_cons_of_neg hc, List.takeWhile_cons_of_neg hc,
          List.dropWhile_cons_of_neg hc, List.dropWhile_cons_of_neg hc]
        exact ⟨rfl, .keep h⟩

theorem readIdentifier_thinned (h : Thinned prev false cs ds) :
    Agree (readIdentifier cs) (readIdentifier ds) := by
  obtain ⟨htake, hdrop⟩ :=
    takeWhile_thinned (p := isIdentifierChar) ⟨by decide, by decide⟩ (dropBlanks_thinned h)
  rw [readIdentifier, readIdentifier, ← htake]
  split
  · exact .none
  · exact .some ⟨rfl, hdrop⟩

theorem readPaths_thinned {word : List Char} (h : Thinned prev false cs ds)
    (hword : prev = true → word = []) : Agree (readPaths word cs) (readPaths word ds) := by
  fun_induction readPaths word cs generalizing prev ds with
  | case1 word =>
    obtain ⟨-, rfl⟩ := h.of_nil
    exact .some ⟨rfl, .nil⟩
  | case2 word => exact h.not_dollar.elim
  | case3 word r ih =>
    obtain ⟨ds', rfl, h'⟩ := h.of_escape
    rw [readPaths_continuation]
    exact agree_map (ih h' fun _ => rfl)
  | case4 word d r hn hd ih =>
    obtain ⟨ds', rfl, h'⟩ := h.of_escape
    rw [readPaths_special hd]
    exact ih h' (by simp)
  | case5 word d r hn hd =>
    obtain ⟨ds', rfl, h'⟩ := h.of_escape
    rw [readPaths, if_pos rfl]
    simp only [if_neg hn, if_neg hd]
    exact .none
  | case6 word r _ ih =>
    cases h with
    | keep h =>
      rw [readPaths_space]
      exact agree_map (ih h fun _ => rfl)
    | drop h =>
      -- no path has begun behind a space, so the space that is lost ends none
      rw [hword rfl]
      simpa [pathRead] using ih h fun _ => rfl
  | case7 word c r hdollar hspace hm =>
    obtain ⟨ds', rfl, h'⟩ := h.of_cons fun h => absurd h hspace
    rw [readPaths_mark hm]
    exact .some ⟨rfl, h.of_head (by simpa using hspace)⟩
  | case8 word c r hdollar hspace hm ih =>
    obtain ⟨ds', rfl, h'⟩ := h.of_cons fun h => absurd h hspace
    rw [decide_eq_false hdollar] at h'
    rw [readPaths_char hdollar hspace (by simpa using hm)]
    exact ih h' (by simp)

theorem drop_pipes (cs : List Char) : cs.drop (pipes cs) = cs.dropWhile (· = '|') := by
  have h : (cs.takeWhile (· = '|') ++ cs.dropWhile (· = '|')).drop (pipes cs) =
      cs.dropWhile (· = '|') := List.drop_left
  rwa [List.takeWhile_append_dropWhile] at h

theorem readMarked_thinned (n : Nat) (h : Thinned false false cs ds) :
    Agree (readMarked n cs) (readMarked n ds) := by
  obtain ⟨htake, hdrop⟩ := takeWhile_thinned (p := (· = '|')) ⟨by decide, by decide⟩ h
  have hpipes : pipes cs = pipes ds := congrArg List.length htake
  rw [← drop_pipes, ← drop_pipes, ← hpipes] at hdrop
  rw [readMarked, readMarked, ← hpipes]
  split
  next hn =>
    rw [hn] at hdrop
    exact readPaths_thinned hdrop (by simp)
  next => exact .some ⟨rfl, h⟩

theorem expect_thinned {c : Char} (hspace : c ≠ ' ') (hdollar : c ≠ '$')
    (h : Thinned false false cs ds) :
    Option.Rel (Thinned false false) (expect c cs) (expect c ds) := by
  cases cs with
  | nil =>
    obtain ⟨-, rfl⟩ := h.of_nil
    exact .none
  | cons d r =>
    cases h with
    | keep h =>
      rw [expect, expect]
      split
      next hd =>
        subst hd
        rw [decide_eq_false hspace, decide_eq_false hdollar] at h
        exact .some h
      next => exact .none

theorem readKeyword_thinned (keyword : String) (h : Thinned prev false cs ds) :
    Option.Rel (Thinned false false) (readKeyword keyword cs) (readKeyword keyword ds) := by
  have hread := readIdentifier_thinned h
  rw [readKeyword, readKeyword]
  generalize readIdentifier cs = x at hread
  generalize readIdentifier ds = y at hread
  cases hread with
  | none => exact .none
  | @some a b hab =>
    obtain ⟨name, cs⟩ := a
    obtain ⟨name', ds⟩ := b
    obtain ⟨rfl, hrest⟩ := hab
    dsimp only
    split
    · exact .some hrest
    · exact .none

/-- **What is read of an edge does not depend on lost spaces.** -/
theorem readBuild_thinned (h : Thinned prev false cs ds) :
    Agree (readBuild cs) (readBuild ds) := by
  simp only [readBuild, Option.bind_eq_bind]
  refine rel_bind (readKeyword_thinned "build" h) fun _ _ h => ?_
  refine rel_bind (readPaths_thinned h fun _ => rfl) fun _ _ houts => ?_
  refine rel_bind (readMarked_thinned 1 houts.2) fun _ _ himplicitOuts => ?_
  refine rel_bind (expect_thinned (by decide) (by decide) himplicitOuts.2) fun _ _ h => ?_
  refine rel_bind (readIdentifier_thinned h) fun _ _ hrule => ?_
  refine rel_bind (readPaths_thinned hrule.2 fun _ => rfl) fun _ _ hins => ?_
  refine rel_bind (readMarked_thinned 1 hins.2) fun _ _ himplicit => ?_
  refine rel_bind (readMarked_thinned 2 himplicit.2) fun _ _ horder => ?_
  refine rel_bind (expect_thinned (by decide) (by decide) horder.2) fun _ _ h => .some ⟨?_, h⟩
  rw [houts.1, himplicitOuts.1, hrule.1, hins.1, himplicit.1, horder.1]

/-! ## Values -/

/-- A part of a value. -/
inductive Part
  | char (c : Char)
  /-- The start of a reference to a variable: its `$`, and the first character of its name. -/
  | reference (c : Char)
  deriving DecidableEq, Repr

/-- The parts of a value, in which `$` vouches for a `$`, a space or a colon. -/
def parts : List Char → List Part
  | [] => []
  | c :: r =>
    if c = '$' then
      match r with
      | [] => []
      | d :: r => (if isSpecial d then .char d else .reference d) :: parts r
    else .char c :: parts r

/-- Parts without the spaces that follow others; `prev` says whether a space stands before them. -/
def squeeze (prev : Bool) : List Part → List Part
  | [] => []
  | p :: r =>
    if p = .char ' ' then if prev then squeeze true r else p :: squeeze true r
    else p :: squeeze false r

/-- Every space of a value is one of its parts. -/
theorem count_parts (cs : List Char) : (parts cs).count (.char ' ') = cs.count ' ' := by
  fun_induction parts cs with
  | case1 => rfl
  | case2 => rfl
  | case3 d r ih =>
    rw [List.count_cons, List.count_cons_of_ne (by decide), List.count_cons, ih]
    by_cases hd : d = ' '
    · subst hd
      rfl
    · by_cases hs : isSpecial d = true <;> simp [hd, hs]
  | case4 c r hc ih =>
    rw [List.count_cons, List.count_cons, ih]
    simp

/-- A value that has lost spaces is the same but for the length of its runs of spaces. -/
theorem squeeze_parts {sq : Bool} (h : Thinned prev false cs ds) (hsq : prev = true → sq = true) :
    squeeze sq (parts cs) = squeeze sq (parts ds) := by
  -- behind an escaped space `sq` holds and `prev` does not
  fun_induction parts cs generalizing prev ds sq with
  | case1 =>
    obtain ⟨-, rfl⟩ := h.of_nil
    rfl
  | case2 => exact h.not_dollar.elim
  | case3 d r ih =>
    obtain ⟨ds', rfl, h'⟩ := h.of_escape
    have hparts : parts ('$' :: d :: ds') =
        (if isSpecial d then .char d else .reference d) :: parts ds' := by
      simp [parts]
    rw [hparts, squeeze, squeeze, ih h' (by simp), ih h' (by simp)]
  | case4 c r hc ih =>
    have hparts : ∀ ds', parts (c :: ds') = .char c :: parts ds' := fun ds' => by
      cases ds' <;> simp [parts, hc]
    by_cases hspace : c = ' '
    · subst hspace
      cases h with
      | keep h => rw [hparts, squeeze, squeeze, if_pos rfl, if_pos rfl, ih h fun _ => rfl]
      | drop h =>
        rw [hsq rfl, squeeze, if_pos rfl, if_pos rfl]
        exact ih h fun _ => rfl
    · obtain ⟨ds', rfl, h'⟩ := h.of_cons fun h => absurd h hspace
      rw [decide_eq_false hc] at h'
      rw [hparts, squeeze, squeeze, if_neg (by simpa using hspace), if_neg (by simpa using hspace),
        ih h' (by simp)]

/-! ## Statements -/

/-- The first words of statements that have a name, and of those that have paths. -/
def nameKeywords : List String := ["pool", "rule"]

@[inherit_doc nameKeywords]
def pathKeywords : List String := ["default", "include", "subninja"]

/-- The first words that are no names of variables. -/
def keywords : List String := "build" :: (nameKeywords ++ pathKeywords)

/-- What a statement says. -/
inductive Meaning
  /-- A variable of a level, and its value. -/
  | assignment (level : Nat) (name : String) (value : List Part)
  | declaration (keyword name : String)
  | files (keyword : String) (paths : List String)
  | edge (e : BuildEdge)
  deriving DecidableEq, Repr

/-- A statement with the runs of spaces in a value shortened to one. -/
def Meaning.squeezed : Meaning → Meaning
  | assignment level name value => assignment level name (squeeze false value)
  | m => m

/-- Whether a statement gives a variable its value. -/
def Meaning.IsAssignment : Meaning → Prop
  | assignment _ _ _ => True
  | _ => False

theorem Meaning.squeezed_eq_self {m : Meaning} (h : ¬ m.IsAssignment) : m.squeezed = m := by
  cases m with
  | assignment => exact absurd trivial h
  | declaration | files | edge => rfl

theorem Meaning.isAssignment_squeezed (m : Meaning) :
    m.squeezed.IsAssignment ↔ m.IsAssignment := by
  cases m <;> rfl

/-- The value behind the name of a variable. -/
def readValue (cs : List Char) : Option (List Part) :=
  (expect '=' (dropBlanks cs)).map fun r => parts (skipSpaces r)

/-- A statement of a level; the words of other statements are names of variables at deeper ones. -/
def readStatement (level : Nat) (cs : List Char) : Option Meaning := do
  let (word, r) ← readIdentifier cs
  if level = 0 ∧ word = "build" then (readBuild (cs ++ ['\n'])).map fun x => .edge x.1
  else if level = 0 ∧ word ∈ nameKeywords then
    (readIdentifier r).map fun x => .declaration word x.1
  else if level = 0 ∧ word ∈ pathKeywords then (readPaths [] r).map fun x => .files word x.1
  else (readValue r).map fun value => .assignment level word value

theorem readValue_thinned (h : Thinned prev false cs ds) :
    (readValue cs).map (squeeze false) = (readValue ds).map (squeeze false) := by
  have hvalue := expect_thinned (c := '=') (by decide) (by decide) (dropBlanks_thinned h)
  unfold readValue
  generalize expect '=' (dropBlanks cs) = x at hvalue
  generalize expect '=' (dropBlanks ds) = y at hvalue
  cases hvalue with
  | none => rfl
  | some h => exact congrArg some (squeeze_parts h.skip (by simp))

/-- **Of any statement, only the spaces of a value depend on lost spaces.** -/
theorem squeezed_readStatement (level : Nat) (h : Thinned false false cs ds) :
    (readStatement level cs).map Meaning.squeezed =
      (readStatement level ds).map Meaning.squeezed := by
  have hword := readIdentifier_thinned h
  have hedge := readBuild_thinned (h.append_singleton (c := '\n') (by decide))
  unfold readStatement
  generalize readIdentifier cs = x at hword
  generalize readIdentifier ds = y at hword
  cases hword with
  | none => rfl
  | @some a b hab =>
    obtain ⟨word, r⟩ := a
    obtain ⟨word', r'⟩ := b
    obtain ⟨rfl, hr⟩ := hab
    have hvalue := readValue_thinned hr
    simp only [Option.bind_eq_bind, Option.bind_some]
    split
    · rw [map_eq_of_agree hedge Meaning.edge]
    · split
      · rw [map_eq_of_agree (readIdentifier_thinned hr) (Meaning.declaration word)]
      · split
        · rw [map_eq_of_agree (readPaths_thinned hr (by simp)) (Meaning.files word)]
        · have hsqueezed := congrArg (Option.map (Meaning.assignment level word)) hvalue
          simpa [Function.comp_def, Meaning.squeezed] using hsqueezed

/-- A statement that is read as no variable is read alike whatever spaces it has lost. -/
theorem readStatement_eq (level : Nat) (h : Thinned false false cs ds)
    (hcs : ∀ m ∈ readStatement level cs, ¬ m.IsAssignment) :
    readStatement level ds = readStatement level cs := by
  have hsqueezed := squeezed_readStatement level h
  cases hx : readStatement level cs with
  | none =>
    rw [hx] at hsqueezed
    simpa using hsqueezed.symm
  | some m =>
    have hm := hcs m hx
    rw [hx, Option.map_some, Meaning.squeezed_eq_self hm] at hsqueezed
    obtain ⟨m', hy, heq⟩ := Option.map_eq_some_iff.1 hsqueezed.symm
    have hm' : ¬ m'.IsAssignment := by
      rwa [← Meaning.isAssignment_squeezed, heq]
    rw [hy, ← heq, Meaning.squeezed_eq_self hm']

/-- A statement behind one of the keywords gives no variable a value. -/
theorem not_isAssignment_of_mem_keywords {word : String} (hword : word ∈ keywords) (r : List Char) :
    ∀ m ∈ readStatement 0 (word.toList ++ ' ' :: r), ¬ m.IsAssignment := by
  have hidentifier : ∀ w ∈ keywords, IsIdentifier w := by decide
  intro m hm
  rw [readStatement, readIdentifier_append (hidentifier word hword) ⟨' ', r, rfl, .inl rfl⟩] at hm
  simp only [Option.bind_eq_bind, Option.bind_some, true_and, Option.mem_def] at hm
  simp only [keywords, List.mem_cons, List.mem_append] at hword
  split at hm
  next =>
    obtain ⟨_, -, rfl⟩ := Option.map_eq_some_iff.1 hm
    exact id
  next hbuild =>
    split at hm
    next =>
      obtain ⟨_, -, rfl⟩ := Option.map_eq_some_iff.1 hm
      exact id
    next hname =>
      split at hm
      next =>
        obtain ⟨_, -, rfl⟩ := Option.map_eq_some_iff.1 hm
        exact id
      next hpath => tauto

/-- **The value of a variable is read behind the spaces that follow the `=`.** -/
theorem readStatement_assignment {level : Nat} {key : String} (hkey : IsIdentifier key)
    (hlevel : level = 0 → key ∉ keywords) (u : List Char) :
    readStatement level (key.toList ++ ' ' :: '=' :: ' ' :: u) =
      some (.assignment level key (parts (skipSpaces u))) := by
  have hvalue : readValue (' ' :: '=' :: ' ' :: u) = some (parts (skipSpaces u)) := by
    rw [readValue, dropBlanks_blank, dropBlanks_cons (by decide) (by decide)]
    rfl
  simp only [keywords, List.mem_cons, List.mem_append, not_or] at hlevel
  rw [readStatement, readIdentifier_append hkey ⟨' ', _, rfl, .inl rfl⟩]
  simp only [Option.bind_eq_bind, Option.bind_some]
  rw [if_neg fun h => (hlevel h.1).1 h.2, if_neg fun h => (hlevel h.1).2.1 h.2,
    if_neg fun h => (hlevel h.1).2.2 h.2, hvalue]
  rfl

end NinjaGen.Ninja
