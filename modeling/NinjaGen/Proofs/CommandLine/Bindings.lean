import NinjaGen.CommandLine.Arguments
import NinjaGen.Proofs.Template.Tokens

/-!
# Bindings on the command line

An option of a run binds a name, and templates refer to names. Each has a test of its own for names,
and the two agree, so that whatever name a template lacks can be bound by an option.

* `isVarName_eq`: the two tests agree on all texts.
* `parseVar_eq_ok_iff` and `parseVar_eq_error_iff` say what is read from the value of the option.
* `Template.Recognises` says of a text that it is a name for templates, by what becomes of it in
  braces, and `Template.Reports` that it can be missing; both are the names (`recognises_iff`,
  `reports_iff`).
* `readFlags_var` and `overrides_var` follow the option into the choices of a run, and `load_var`
  into the project.
* `parseVar_agrees` puts these together.
-/

namespace NinjaGen

/-! ## Names in templates -/

namespace Template

variable {b : Bindings} {n v : String}

/-- A name in braces. -/
def braced (n : String) : String := "\x7b" ++ n ++ "\x7d"

/-- **Whether a text in braces is replaced**, by any value without braces to which it alone is
bound. -/
def Recognises (n : String) : Prop :=
  ∀ v : String, '\x7b' ∉ v.toList → '\x7d' ∉ v.toList →
    expand (.ofList [(n, v)]) (braced n) = .ok v

/-- **Whether a text is reported as a name without a value**, in some template. -/
def Reports (n : String) : Prop :=
  ∃ b template other, expand b template = .error (.unresolvedVariable n other)

theorem toList_braced (n : String) : (braced n).toList = '\x7b' :: (n.toList ++ ['\x7d']) := by
  simp [braced]

theorem pieces_braced (h : isName n.toList = true) :
    pieces (braced n).toList = [.token n.toList] := by
  have htoken : token? (n.toList ++ ['\x7d']) = some (n.toList, []) := token?_append h []
  rw [toList_braced, pieces, if_pos rfl]
  split
  next name rest hsome =>
    rw [htoken] at hsome
    cases hsome
    rw [pieces]
  next hnone =>
    rw [htoken] at hnone
    cases hnone

theorem expand_braced_of_some (h : isName n.toList = true) (hv : b.get? n = some v) :
    expand b (braced n) = .ok v := by
  rw [expand_eq_ok_iff, pieces_braced h, values_eq_ok_iff]
  refine ⟨[v.toList], ?_, by simp⟩
  rw [List.map_singleton, List.map_singleton, Piece.value, String.ofList_toList, hv]

theorem expand_braced_of_none (h : isName n.toList = true) (hn : b.get? n = none) :
    expand b (braced n) = .error (.unresolvedVariable n (braced n)) := by
  rw [expand, pieces_braced h, values, Piece.value, String.ofList_toList, hn]
  simp

theorem get?_ofList_singleton (n v name : String) :
    (Bindings.ofList [(n, v)]).get? name = if n = name then some v else none := by
  rw [Bindings.ofList, Bindings.get?_setAll, Bindings.get?_empty, Option.or_none]
  rfl

/-- **Names are what is replaced in braces.** -/
theorem recognises_iff : Recognises n ↔ isName n.toList = true := by
  constructor
  · intro h
    have hexpand := h "" (by simp) (by simp)
    by_cases hplain : ∀ name, .token name ∉ pieces (braced n).toList
    · -- Without a token the braces would stay.
      rw [expand_of_plain hplain] at hexpand
      have hempty := congrArg String.toList (Except.ok.inj hexpand)
      rw [toList_braced] at hempty
      cases hempty
    · obtain ⟨name, htoken⟩ := not_forall_not.1 hplain
      obtain ⟨v, hv⟩ := exists_value_of_expand hexpand htoken
      rw [get?_ofList_singleton] at hv
      split at hv
      next heq =>
        rw [heq, String.toList_ofList]
        exact isName_of_token_mem_pieces _ htoken
      next => cases hv
  · intro h v _ _
    exact expand_braced_of_some h (by rw [get?_ofList_singleton, if_pos rfl])

/-- **Names are what is reported.** -/
theorem reports_iff : Reports n ↔ isName n.toList = true := by
  constructor
  · rintro ⟨b, template, other, h⟩
    obtain ⟨name, htoken, -, heq⟩ := token_of_expand_eq_error h
    cases heq
    rw [String.toList_ofList]
    exact isName_of_token_mem_pieces _ htoken
  · exact fun h => ⟨.empty, braced n, braced n, expand_braced_of_none h rfl⟩

/-- A name with a value is not reported. -/
theorem expand_ne_error_of_some (hv : b.get? n = some v) (template other : String) :
    expand b template ≠ .error (.unresolvedVariable n other) := by
  intro h
  obtain ⟨name, -, hnone, heq⟩ := token_of_expand_eq_error h
  cases heq
  rw [hv] at hnone
  cases hnone

end Template

namespace CommandLine

open Template (isName isNameChar isNameStart Recognises Reports braced)

variable {s k n v : String} {command : CommandName}

/-! ## The value of the option -/

/-- Behind the first character digits are admitted. -/
theorem all_zipIdx_eq (cs : List Char) :
    ∀ i, 0 < i → ((cs.zipIdx i).all fun (c, i) =>
      c = '_' || c.isAlpha || (0 < i && c.isDigit)) = cs.all isNameChar := by
  induction cs with
  | nil => exact fun _ _ => rfl
  | cons c r ih =>
    intro i hi
    rw [List.zipIdx_cons, List.all_cons, List.all_cons, ih (i + 1) (by omega)]
    simp [isNameChar, Char.isAlphanum, hi, Bool.or_comm, Bool.or_left_comm, Bool.or_assoc]

/-- **The test for the name of a binding is that for a name in a template.** -/
theorem isVarName_eq (name : List Char) : isVarName name = isName name := by
  cases name with
  | nil => rfl
  | cons c r =>
    rw [isVarName, List.zipIdx_cons, List.all_cons, all_zipIdx_eq r (0 + 1) (by omega)]
    simp [isName, isNameStart, Bool.or_comm]

theorem split_first {name value : List Char} (h : '=' ∉ name) :
    (name ++ '=' :: value).takeWhile (· ≠ '=') = name ∧
      (name ++ '=' :: value).dropWhile (· ≠ '=') = '=' :: value := by
  have hall : ∀ c ∈ name, decide (c ≠ '=') = true := fun c hc =>
    decide_eq_true fun heq => h (heq ▸ hc)
  rw [List.takeWhile_append_of_pos hall, List.dropWhile_append_of_pos hall]
  simp

theorem parseVar_append (h : '=' ∉ k.toList) :
    parseVar (k ++ "=" ++ v) =
      if isName k.toList then .ok (k, v)
      else .error ("`" ++ k ++ "` is not a valid placeholder name") := by
  have hlist : (k ++ "=" ++ v).toList = k.toList ++ '=' :: v.toList := by simp
  obtain ⟨htake, hdrop⟩ := @split_first k.toList v.toList h
  rw [parseVar, hlist, htake, hdrop, ← isVarName_eq]
  simp only [String.ofList_toList]

theorem parseVar_of_not_mem (h : '=' ∉ s.toList) :
    parseVar s = .error ("expected KEY=VALUE, got `" ++ s ++ "`") := by
  have hdrop : s.toList.dropWhile (· ≠ '=') = [] :=
    List.dropWhile_eq_nil_iff.2 fun c hc => decide_eq_true fun heq => h (heq ▸ hc)
  rw [parseVar, hdrop]

/-- A text with an equals sign is cut at the first one. -/
theorem exists_eq_append (h : '=' ∈ s.toList) : ∃ k v, s = k ++ "=" ++ v ∧ '=' ∉ k.toList := by
  obtain ⟨name, value, heq, hname⟩ := List.eq_append_cons_of_mem h
  refine ⟨String.ofList name, String.ofList value, String.toList_inj.1 ?_, ?_⟩
  · simpa using heq
  · simpa using hname

/-- **A binding is read when the text in front of its first equals sign is a name.** -/
theorem parseVar_eq_ok_iff :
    parseVar s = .ok (k, v) ↔
      s = k ++ "=" ++ v ∧ '=' ∉ k.toList ∧ isName k.toList = true := by
  constructor
  · intro h
    by_cases hmem : '=' ∈ s.toList
    · obtain ⟨k', v', rfl, hk'⟩ := exists_eq_append hmem
      rw [parseVar_append hk'] at h
      split at h
      next hname =>
        cases h
        exact ⟨rfl, hk', hname⟩
      next => cases h
    · rw [parseVar_of_not_mem hmem] at h
      cases h
  · rintro ⟨rfl, hk, hname⟩
    rw [parseVar_append hk, if_pos hname]

/-- What is wrong with a binding: it has no equals sign, or the text in front of it is no name. -/
theorem parseVar_eq_error_iff {message : String} :
    parseVar s = .error message ↔
      '=' ∉ s.toList ∧ message = "expected KEY=VALUE, got `" ++ s ++ "`" ∨
      ∃ k v, s = k ++ "=" ++ v ∧ '=' ∉ k.toList ∧ isName k.toList = false ∧
        message = "`" ++ k ++ "` is not a valid placeholder name" := by
  constructor
  · intro h
    by_cases hmem : '=' ∈ s.toList
    · obtain ⟨k, v, rfl, hk⟩ := exists_eq_append hmem
      rw [parseVar_append hk] at h
      split at h
      next => cases h
      next hname =>
        cases h
        exact .inr ⟨k, v, rfl, hk, eq_false_of_ne_true hname, rfl⟩
    · rw [parseVar_of_not_mem hmem] at h
      cases h
      exact .inl ⟨hmem, rfl⟩
  · rintro (⟨hmem, rfl⟩ | ⟨k, v, rfl, hk, hname, rfl⟩)
    · exact parseVar_of_not_mem hmem
    · rw [parseVar_append hk, if_neg (by simp [hname])]

/-- No equals sign stands in a name. -/
theorem not_mem_of_isName (h : isName n.toList = true) : '=' ∉ n.toList := fun hmem =>
  absurd (Template.isNameChar_of_isName h _ hmem) (by decide)

theorem parseVar_of_isName (h : isName n.toList = true) (v : String) :
    parseVar (n ++ "=" ++ v) = .ok (n, v) :=
  parseVar_eq_ok_iff.2 ⟨rfl, not_mem_of_isName h, h⟩

/-! ## The option among the arguments -/

/-- A binding does not look like an option. -/
theorem nextValue_var (h : isName n.toList = true) (v : String) (rest : List String) :
    nextValue ((n ++ "=" ++ v) :: rest) = .ok (n ++ "=" ++ v, rest) := by
  obtain ⟨c, r, hcons⟩ : ∃ c r, n.toList = c :: r := List.exists_cons_of_ne_nil fun hnil => by
    rw [hnil] at h
    cases h
  have hdash : c ≠ '-' := by
    rintro rfl
    exact absurd (Template.isNameChar_of_isName h '-' (by simp [hcons])) (by decide)
  rw [nextValue, if_neg]
  simp [hcons, hdash]

theorem isKnown_var (hcommand : command ≠ .clean) : Flag.isKnown (some command) .var = true := by
  cases command with
  | generate | plan => rfl
  | clean => exact absurd rfl hcommand

theorem give_var (hcommand : command ≠ .clean) (h : isName n.toList = true) (v : String)
    (given : Given) :
    give (some command) given .var (n ++ "=" ++ v) = .ok (given ++ [(.var, n ++ "=" ++ v)]) := by
  have hadmits : Flag.admits .var (n ++ "=" ++ v) = true := by
    rw [Flag.admits, parseVar_of_isName h]
    rfl
  simp [give, isKnown_var hcommand, hadmits]

/-- **The option is read and kept**, wherever it stands among the options of a command that has
it. -/
theorem readFlags_var (hcommand : command ≠ .clean) (h : isName n.toList = true) (v : String)
    (given : Given) (rest : List String) :
    readFlags (some command) given ("--var" :: (n ++ "=" ++ v) :: rest) =
      readFlags (some command) (given ++ [(.var, n ++ "=" ++ v)]) rest := by
  have hlong : giveLong (some command) given ((n ++ "=" ++ v) :: rest) ['v', 'a', 'r'] =
      .ok (given ++ [(.var, n ++ "=" ++ v)], rest) := by
    have hflag :
        Flag.ofLong? (String.ofList (['v', 'a', 'r'].takeWhile (· ≠ '='))) = some .var := by decide
    have hdrop : ['v', 'a', 'r'].dropWhile (· ≠ '=') = [] := by decide
    rw [giveLong, hflag]
    simp only [isKnown_var hcommand, hdrop, Flag.hasValue, nextValue_var h]
    show (give (some command) given .var (n ++ "=" ++ v) >>= fun given => pure (given, rest)) = _
    rw [give_var hcommand h]
    rfl
  have hdashes : "--var".toList = ['-', '-', 'v', 'a', 'r'] := by decide
  rw [readFlags, hdashes]
  simp only [hlong]
  exact dif_pos (Nat.le_succ rest.length)

theorem has_var {f : Flag} (hf : f ≠ .var) (value : String) (before after : Given) :
    Given.has (before ++ (.var, value) :: after) f = Given.has (before ++ after) f := by
  simp [Given.has, hf.symm]

theorem value?_var {f : Flag} (hf : f ≠ .var) (value : String) (before after : Given) :
    Given.value? (before ++ (.var, value) :: after) f = Given.value? (before ++ after) f := by
  simp [Given.value?, List.find?_append, hf.symm]

theorem overrides_var (h : isName n.toList = true) (v : String) (before after : Given)
    (asked : Option Platform) :
    Given.overrides (before ++ (.var, n ++ "=" ++ v) :: after) asked =
      { Given.overrides (before ++ after) asked with
        vars := (Given.overrides before asked).vars ++
          (n, v) :: (Given.overrides after asked).vars } := by
  simp [Given.overrides, has_var, value?_var, parseVar_of_isName h, Except.toOption]

end CommandLine

/-! ## The project -/

namespace Bindings

variable {b : Bindings} {n v : String}

theorem set_comm {m : String} (h : n ≠ m) (u : String) :
    (b.set n v).set m u = (b.set m u).set n v := by
  refine ext_get? fun name => ?_
  simp only [get?_set]
  by_cases hm : m = name
  · rw [if_pos hm, if_neg (hm ▸ h), if_pos hm]
  · rw [if_neg hm, if_neg hm]

theorem setAll_set {after : List (String × String)} (h : n ∉ after.map Prod.fst) :
    (b.set n v).setAll after = (b.setAll after).set n v := by
  induction after generalizing b with
  | nil => rfl
  | cons p r ih =>
    rw [List.map_cons, List.mem_cons, not_or] at h
    show ((b.set n v).set p.1 p.2).setAll r = ((b.set p.1 p.2).setAll r).set n v
    rw [set_comm h.1, ih h.2]

/-- Where a name is bound last, the other bindings do not matter. -/
theorem setAll_append_cons {before after : List (String × String)} (h : n ∉ after.map Prod.fst) :
    b.setAll (before ++ (n, v) :: after) = (b.setAll (before ++ after)).set n v := by
  rw [setAll, List.foldl_append, List.foldl_cons, setAll, List.foldl_append]
  exact setAll_set h

end Bindings

/-- **A run with one more binding** is the same run with the name bound. -/
theorem Project.load_var (t : FileTree) (w : Workspace) {o : Overrides} {n v : String}
    {before after : List (String × String)} (hvars : o.vars = before ++ (n, v) :: after)
    (h : n ∉ after.map Prod.fst) :
    load t w o = (load t w { o with vars := before ++ after }).map fun p =>
      { p with bindings := p.bindings.set n v } := by
  rw [load, load, hvars]
  cases loadConfig t w.userConfig w.projectConfig with
  | error e => rfl
  | ok config =>
    have hover : { o with vars := before ++ after }.over config.build = o.over config.build := rfl
    simp only [bind, Except.bind, hover, Bindings.setAll_append_cons h]
    split
    · rfl
    · cases config.toolchain.toProfile o.profile <;> rfl

namespace CommandLine

open Template (Recognises Reports braced)

/-- **Bindings on the command line.** A binding is read exactly when the text in front of its first
equals sign is a name that templates recognise, and its value is the rest as it is. A text can be
reported as a name without a value exactly when it can be bound to all values. The option that a
report suggests is read and kept wherever it stands among the options of a command that has it, its
binding becomes one of the run, and the run is then the same with the name bound: the name stands
for the value, and it is not reported any more. -/
theorem parseVar_agrees :
    (∀ s k v, parseVar s = .ok (k, v) ↔
      s = k ++ "=" ++ v ∧ '=' ∉ k.toList ∧ Recognises k) ∧
    (∀ n, Reports n ↔ ∀ v, parseVar (n ++ "=" ++ v) = .ok (n, v)) ∧
    ∀ n, Reports n → ∀ v,
      (∀ command given rest, command ≠ .clean →
        readFlags (some command) given ("--var" :: (n ++ "=" ++ v) :: rest) =
          readFlags (some command) (given ++ [(.var, n ++ "=" ++ v)]) rest) ∧
      (∀ before after asked, Given.overrides (before ++ (.var, n ++ "=" ++ v) :: after) asked =
        { Given.overrides (before ++ after) asked with
          vars := (Given.overrides before asked).vars ++
            (n, v) :: (Given.overrides after asked).vars }) ∧
      ∀ t w o before after, o.vars = before ++ (n, v) :: after → n ∉ after.map Prod.fst →
        (Project.load t w o =
          (Project.load t w { o with vars := before ++ after }).map fun p =>
            { p with bindings := p.bindings.set n v }) ∧
        ∀ p, Project.load t w o = .ok p →
          Template.expand p.bindings (braced n) = .ok v ∧
          ∀ template other,
            Template.expand p.bindings template ≠ .error (.unresolvedVariable n other) := by
  refine ⟨fun s k v => ?_, fun n => ?_, fun n hn v => ?_⟩
  · rw [parseVar_eq_ok_iff, Template.recognises_iff]
  · rw [Template.reports_iff]
    exact ⟨parseVar_of_isName, fun h => (parseVar_eq_ok_iff.1 (h "")).2.2⟩
  · have hname := Template.reports_iff.1 hn
    refine ⟨fun command given rest hcommand => readFlags_var hcommand hname v given rest,
      overrides_var hname v, fun t w o before after hvars hafter => ?_⟩
    have hload := Project.load_var t w hvars hafter
    refine ⟨hload, fun p hp => ?_⟩
    obtain ⟨q, -, rfl⟩ := map_eq_ok_iff.1 (hload.symm.trans hp)
    have hbound : (q.bindings.set n v).get? n = some v := by
      rw [Bindings.get?_set, if_pos rfl]
    exact ⟨Template.expand_braced_of_some hname hbound,
      Template.expand_ne_error_of_some hbound⟩

/-- A name that a template lacks can be bound, and its value is not read again. -/
theorem parseVar_agrees_missing :
    let v := "a=\x7bGEN\x7d"
    let o : Overrides := { vars := [("GEN", v)] }
    Reports "GEN" ∧ parseVar ("GEN" ++ "=" ++ v) = .ok ("GEN", v) ∧
      ∃ p, Project.load .empty ⟨⟨"/p"⟩, none⟩ o = .ok p ∧
        Template.expand p.bindings (braced "GEN") = .ok v := by
  intro v o
  have hreports : Reports "GEN" := ⟨.empty, braced "GEN", braced "GEN", by decide +kernel⟩
  have hok : (Project.load .empty ⟨⟨"/p"⟩, none⟩ o).isOk = true := by decide +kernel
  obtain ⟨p, hp⟩ := isOk_iff.1 hok
  obtain ⟨-, hparse, hrun⟩ := parseVar_agrees
  obtain ⟨-, -, hload⟩ := hrun "GEN" hreports v
  obtain ⟨-, hresolves⟩ := hload .empty ⟨⟨"/p"⟩, none⟩ o [] [] rfl List.not_mem_nil
  exact ⟨hreports, (hparse "GEN").1 hreports v, p, hp, (hresolves p hp).1⟩

end CommandLine

end NinjaGen
