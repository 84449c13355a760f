import NinjaGen.Ninja.Statement

/-!
# Variables in commands

The command of a rule is run for an edge with the variables of the edge filled in. A `$` starts a
reference or vouches for the character after it.

* `tokens` reads a text as characters and references to variables. Escaped text is read as its
  characters alone, in front of any text (`tokens_escapeText_append`).
* `Scope` is what variables stand for in an edge, and `Scope.Evaluates` says what tokens come to.
  They come to one text at most (`Scope.Evaluates.unique`).
* `Scope.fill` is that text when no value of a variable has references (`Scope.evaluates_fill`).
* `BuildEdge.Runs` is the command line of an edge. Values that are empty need not be written
  (`BuildEdge.scope_written`).
-/

namespace NinjaGen.Ninja

/-! ## Reading a text with references -/

/-- A part of a text with references. -/
inductive Token
  | char (c : Char)
  /-- A reference to the variable of that name. -/
  | reference (name : String)
  deriving DecidableEq, Repr

/-- Whether a character may be in the name of a variable. -/
def isNameChar (c : Char) : Bool := c.isAlphanum || c = '_' || c = '-'

/-- What has been read in front of the rest of a text. -/
inductive Progress
  /-- Whole tokens. -/
  | between
  /-- A `$`. -/
  | dollar
  /-- A reference, with its name so far. -/
  | name (read : List Char)

/-- The tokens of the rest of a text. The name of a reference is as long as it can be. -/
def tokensFrom : Progress → List Char → Option (List Token)
  | .between, [] => some []
  | .between, c :: r =>
    if c = '$' then tokensFrom .dollar r else (tokensFrom .between r).map (.char c :: ·)
  | .dollar, [] => none
  | .dollar, c :: r =>
    if isSpecial c then (tokensFrom .between r).map (.char c :: ·)
    else if isNameChar c then tokensFrom (.name [c]) r
    else none
  | .name read, [] => some [.reference (String.ofList read)]
  | .name read, c :: r =>
    if isNameChar c then tokensFrom (.name (read ++ [c])) r
    else if c = '$' then (tokensFrom .dollar r).map (.reference (String.ofList read) :: ·)
    else (tokensFrom .between r).map fun ts => .reference (String.ofList read) :: .char c :: ts

/-- The tokens of a text, unless a `$` is misplaced in it. -/
def tokens (cs : List Char) : Option (List Token) := tokensFrom .between cs

/-- A name goes on as far as it can: the letters after `$out` make another name, a full stop does
not. -/
example : tokens "$out.d $outs".toList =
    some [.reference "out", .char '.', .char 'd', .char ' ', .reference "outs"] := by decide

/-- Text without references. -/
def literal (cs : List Char) : List Token := cs.map .char

/-- Escaped text is read as it was before. -/
theorem tokens_escapeText_append (cs rest : List Char) :
    tokens (escapeText cs ++ rest) = (tokens rest).map (literal cs ++ ·) := by
  induction cs with
  | nil => simp [escapeText, literal]
  | cons c r ih =>
    have hcons : tokens (escapeText (c :: r) ++ rest) =
        (tokens (escapeText r ++ rest)).map (.char c :: ·) := by
      by_cases h : c = '$'
      · subst h
        simp [tokens, tokensFrom, escapeText, isSpecial]
      · simp [tokens, tokensFrom, escapeText, h]
    rw [hcons, ih, Option.map_map]
    rfl

theorem tokens_escapeText (cs : List Char) : tokens (escapeText cs) = some (literal cs) := by
  have h := tokens_escapeText_append cs []
  rw [List.append_nil] at h
  rw [h]
  exact congrArg some (List.append_nil _)

/-! ## What variables stand for -/

/-- What the variables of an edge stand for. -/
structure Scope where
  /-- What `$in` stands for. -/
  inputs : List Char
  /-- What `$out` stands for. -/
  outputs : List Char
  /-- The value of any other variable, which may have references itself. -/
  value : String → List Char

namespace Scope

variable {σ : Scope}

/-- What tokens come to: references are replaced by what the variables stand for. -/
inductive Evaluates (σ : Scope) : List Token → List Char → Prop
  | nil : Evaluates σ [] []
  | char {c : Char} {ts : List Token} {cs : List Char} (rest : Evaluates σ ts cs) :
      Evaluates σ (.char c :: ts) (c :: cs)
  | inputs {name : String} {ts : List Token} {cs : List Char} (hname : name = "in")
      (rest : Evaluates σ ts cs) : Evaluates σ (.reference name :: ts) (σ.inputs ++ cs)
  | outputs {name : String} {ts : List Token} {cs : List Char} (hname : name = "out")
      (rest : Evaluates σ ts cs) : Evaluates σ (.reference name :: ts) (σ.outputs ++ cs)
  | value {name : String} {us ts : List Token} {ds cs : List Char} (hin : name ≠ "in")
      (hout : name ≠ "out") (hread : tokens (σ.value name) = some us) (value : Evaluates σ us ds)
      (rest : Evaluates σ ts cs) : Evaluates σ (.reference name :: ts) (ds ++ cs)

/-- Tokens come to one text at most. -/
theorem Evaluates.unique {ts : List Token} {cs ds : List Char} (h : σ.Evaluates ts cs)
    (h' : σ.Evaluates ts ds) : cs = ds := by
  induction h generalizing ds with
  | nil =>
    cases h'
    rfl
  | char rest ih =>
    cases h' with
    | char rest' => rw [ih rest']
  | inputs hname rest ih =>
    cases h' with
    | inputs _ rest' => rw [ih rest']
    | outputs hname' => exact absurd (hname.symm.trans hname') (by decide)
    | value hin => exact absurd hname hin
  | outputs hname rest ih =>
    cases h' with
    | inputs hname' => exact absurd (hname.symm.trans hname') (by decide)
    | outputs _ rest' => rw [ih rest']
    | value _ hout => exact absurd hname hout
  | value hin hout hread value rest ihvalue ihrest =>
    cases h' with
    | inputs hname => exact absurd hname hin
    | outputs hname => exact absurd hname hout
    | value _ _ hread' value' rest' =>
      cases hread.symm.trans hread'
      rw [ihvalue value', ihrest rest']

/-- Text without references comes to itself. -/
theorem evaluates_literal (cs : List Char) : σ.Evaluates (literal cs) cs := by
  induction cs with
  | nil => exact .nil
  | cons c r ih => exact .char ih

/-- The text that a variable stands for when values have no references: its escapes are undone. -/
def text (σ : Scope) (name : String) : List Char :=
  if name = "in" then σ.inputs else if name = "out" then σ.outputs else unescape (σ.value name)

/-- Tokens with the texts of the variables filled in. -/
def fill (σ : Scope) (ts : List Token) : List Char :=
  ts.flatMap fun
    | .char c => [c]
    | .reference name => σ.text name

@[simp] theorem fill_literal (cs : List Char) : σ.fill (literal cs) = cs := by
  induction cs with
  | nil => rfl
  | cons c r ih => exact congrArg (c :: ·) ih

@[simp] theorem fill_append (ts us : List Token) : σ.fill (ts ++ us) = σ.fill ts ++ σ.fill us :=
  List.flatMap_append

@[simp] theorem fill_nil : σ.fill [] = [] := rfl

@[simp] theorem fill_reference (name : String) (ts : List Token) :
    σ.fill (.reference name :: ts) = σ.text name ++ σ.fill ts :=
  List.flatMap_cons

/-- When the values are escaped texts, tokens come to what filling them in gives. -/
theorem evaluates_fill (h : ∀ name, ∃ cs, σ.value name = escapeText cs) (ts : List Token) :
    σ.Evaluates ts (σ.fill ts) := by
  induction ts with
  | nil => exact .nil
  | cons t ts ih =>
    cases t with
    | char c => exact .char ih
    | reference name =>
      change σ.Evaluates _ (σ.text name ++ σ.fill ts)
      obtain ⟨cs, hcs⟩ := h name
      unfold text
      split
      next hin => exact .inputs hin ih
      next hin =>
        split
        next hout => exact .outputs hout ih
        next hout =>
          rw [hcs, unescape_escapeText]
          exact .value hin hout (hcs ▸ tokens_escapeText cs) (evaluates_literal cs) ih

end Scope

/-! ## Edges -/

/-- The value of a variable after assignments in order, each of which overrides those before. -/
def assigned (assignments : List (String × String)) (name : String) : String :=
  assignments.foldl (fun value v => if v.1 = name then v.2 else value) ""

/-- What holds of all values that are assigned, and of the empty one, holds of each variable. -/
theorem assigned_of_forall {P : String → Prop} {vs : List (String × String)} (hempty : P "")
    (h : ∀ v ∈ vs, P v.2) (name : String) : P (assigned vs name) := by
  refine List.foldlRecOn vs _ hempty fun value hvalue v hv => ?_
  split
  · exact h v hv
  · exact hvalue

namespace BuildEdge

/-- What the variables of an edge stand for. A variable that is not assigned is empty. -/
def scope (e : BuildEdge) : Scope where
  inputs := (" ".intercalate e.inputs).toList
  outputs := (" ".intercalate e.outputs).toList
  value := fun name => (assigned e.assignments name).toList

/-- Whether the line is what a command comes to for an edge. -/
def Runs (e : BuildEdge) (command line : String) : Prop :=
  ∃ ts, tokens command.toList = some ts ∧ e.scope.Evaluates ts line.toList

/-- The edge as it is read back from a file, in which empty values are not written. -/
def written (e : BuildEdge) : BuildEdge :=
  { e with assignments := e.assignments.filter (·.2 ≠ "") }

/-- Assignments of nothing change nothing, if no variable is assigned twice. -/
theorem assigned_filter {vs : List (String × String)} (h : (vs.map (·.1)).Nodup) (name : String) :
    assigned (vs.filter (·.2 ≠ "")) name = assigned vs name := by
  have key : ∀ acc, acc = "" ∨ name ∉ vs.map (·.1) →
      (vs.filter (·.2 ≠ "")).foldl (fun value v => if v.1 = name then v.2 else value) acc =
        vs.foldl (fun value v => if v.1 = name then v.2 else value) acc := by
    induction vs with
    | nil => exact fun _ _ => rfl
    | cons v r ih =>
      intro acc hacc
      obtain ⟨hv, hr⟩ := List.nodup_cons.1 h
      rw [List.foldl_cons, List.filter_cons]
      by_cases hname : v.1 = name
      · rw [if_pos hname, ← ih hr v.2 (.inr (hname ▸ hv))]
        by_cases hempty : v.2 = ""
        · have : acc = "" := hacc.resolve_right fun hnot => hnot (by simp [hname])
          simp [hempty, this]
        · simp [hempty, hname]
      · rw [if_neg hname, ← ih hr acc (hacc.imp_right fun hnot hmem => hnot (by simp [hmem]))]
        by_cases hempty : v.2 = ""
        · simp [hempty]
        · simp [hempty, hname]
  exact key "" (.inl rfl)

theorem scope_written {e : BuildEdge} (h : (e.assignments.map (·.1)).Nodup) :
    e.written.scope = e.scope := by
  simp only [scope, written, Scope.mk.injEq, true_and]
  exact funext fun name => congrArg String.toList (assigned_filter h name)

end BuildEdge

end NinjaGen.Ninja
