import NinjaGen.Bindings
import NinjaGen.GenerationError

/-!
# Templates

A template is a text in which `{name}` stands for the value of a name. A name is a letter or an
underscore, followed by letters, digits and underscores, all of ASCII. Braces around anything else
are ordinary text.

* `pieces` reads a template as ordinary characters and tokens; written out again they are the
  template (`flatMap_text_pieces`), and every token holds a name (`isName_of_token_mem_pieces`).
* `expand` replaces every token by the value of its name; values are not read again. The first
  token without a value is an error.
* `expandAll` expands templates one after another.
-/

namespace NinjaGen.Template

/-! ## Names -/

/-- A character that a name may start with. -/
def isNameStart (c : Char) : Bool := c.isAlpha || c = '_'

/-- A character that a name may go on with. -/
def isNameChar (c : Char) : Bool := c.isAlphanum || c = '_'

/-- Whether a text is a name. -/
def isName : List Char → Bool
  | [] => false
  | c :: r => isNameStart c && r.all isNameChar

theorem isNameChar_of_isNameStart {c : Char} (h : isNameStart c = true) : isNameChar c = true := by
  simp only [isNameStart, isNameChar, Char.isAlphanum, Bool.or_eq_true] at h ⊢
  exact h.imp .inl id

theorem isNameChar_of_isName {n : List Char} (h : isName n = true) :
    ∀ c ∈ n, isNameChar c = true := by
  cases n with
  | nil => simp
  | cons a r =>
    simp only [isName, Bool.and_eq_true, List.all_eq_true] at h
    intro c hc
    rcases List.mem_cons.1 hc with rfl | hc
    · exact isNameChar_of_isNameStart h.1
    · exact h.2 c hc

/-! ## Reading a template -/

/-- A part of a template. -/
inductive Piece
  /-- A character that stands for itself. -/
  | literal (c : Char)
  /-- A name in braces, which stands for the value of the name. -/
  | token (name : List Char)
  deriving DecidableEq, Repr

/-- The characters of a piece. -/
def Piece.text : Piece → List Char
  | .literal c => [c]
  | .token name => '\x7b' :: name ++ ['\x7d']

/-- The name that stands here before a closing brace, and what follows the brace. -/
def token? (cs : List Char) : Option (List Char × List Char) :=
  let name := cs.takeWhile isNameChar
  match cs.dropWhile isNameChar with
  | '\x7d' :: rest => if isName name then some (name, rest) else none
  | _ => none

theorem eq_append_of_token? {cs name rest : List Char} (h : token? cs = some (name, rest)) :
    cs = name ++ '\x7d' :: rest ∧ isName name = true := by
  unfold token? at h
  split at h
  next r hr =>
    dsimp only at h
    split at h
    next hn =>
      simp only [Option.some.injEq, Prod.mk.injEq] at h
      obtain ⟨rfl, rfl⟩ := h
      refine ⟨?_, hn⟩
      rw [← hr, List.takeWhile_append_dropWhile]
    next => simp at h
  next => simp at h

theorem token?_append {name : List Char} (h : isName name = true) (rest : List Char) :
    token? (name ++ '\x7d' :: rest) = some (name, rest) := by
  have hall := isNameChar_of_isName h
  have hstop : isNameChar '\x7d' = false := by decide
  have htake : (name ++ '\x7d' :: rest).takeWhile isNameChar = name := by
    rw [List.takeWhile_append_of_pos hall, List.takeWhile_cons_of_neg (by simp [hstop]),
      List.append_nil]
  have hdrop : (name ++ '\x7d' :: rest).dropWhile isNameChar = '\x7d' :: rest := by
    rw [List.dropWhile_append_of_pos hall, List.dropWhile_cons_of_neg (by simp [hstop])]
  simp [token?, htake, hdrop, h]

theorem length_lt_of_token? {cs name rest : List Char} (h : token? cs = some (name, rest)) :
    rest.length < cs.length := by
  have := congrArg List.length (eq_append_of_token? h).1
  simp only [List.length_append, List.length_cons] at this
  omega

/-- The pieces of a template: at an opening brace a token if there is one, and otherwise the
character itself. -/
def pieces : List Char → List Piece
  | [] => []
  | c :: r =>
    if c = '\x7b' then
      match _h : token? r with
      | some (name, rest) => .token name :: pieces rest
      | none => .literal c :: pieces r
    else .literal c :: pieces r
termination_by cs => cs.length
decreasing_by
  · have := length_lt_of_token? _h
    simp only [List.length_cons]
    omega
  · simp
  · simp

theorem flatMap_text_pieces (cs : List Char) : (pieces cs).flatMap Piece.text = cs := by
  fun_induction pieces cs with
  | case1 => rfl
  | case2 r name rest h ih =>
    simp [Piece.text, ih, (eq_append_of_token? h).1]
  | case3 r h ih => simp [Piece.text, ih]
  | case4 c r hc ih => simp [Piece.text, ih]

theorem isName_of_token_mem_pieces {name : List Char} (cs : List Char) :
    Piece.token name ∈ pieces cs → isName name = true := by
  fun_induction pieces cs with
  | case1 => simp
  | case2 r n rest h ih =>
    intro hm
    rcases List.mem_cons.1 hm with heq | hm
    · cases heq; exact (eq_append_of_token? h).2
    · exact ih hm
  | case3 r h ih => simpa using ih
  | case4 c r hc ih => simpa using ih

/-! ## Expanding a template -/

/-- The characters that a piece becomes; a token without a value is returned as the error. -/
def Piece.value (b : Bindings) : Piece → Except (List Char) (List Char)
  | .literal c => .ok [c]
  | .token name =>
    match b.get? (String.ofList name) with
    | some v => .ok v.toList
    | none => .error name

/-- The characters that pieces become; the error is the first token without a value. -/
def values (b : Bindings) : List Piece → Except (List Char) (List Char)
  | [] => .ok []
  | p :: r =>
    match p.value b with
    | .error name => .error name
    | .ok v => (values b r).map (v ++ ·)

/-- The template with all tokens replaced by the values of their names. -/
def expand (b : Bindings) (template : String) : Except GenerationError String :=
  match values b (pieces template.toList) with
  | .ok cs => .ok (String.ofList cs)
  | .error name => .error (.unresolvedVariable (String.ofList name) template)

/-- The templates expanded one after another; the first that fails decides. -/
def expandAll (b : Bindings) (templates : List String) : Except GenerationError (List String) :=
  templates.mapM (expand b)

end NinjaGen.Template
