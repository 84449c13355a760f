import Mathlib.Data.List.Forall2
import NinjaGen.Proofs.Path.Placeholders

/-!
# Tokens in templates

A template is read from left to right, but what it becomes can be said without an order: its tokens
are the names between braces that stand anywhere in it, they never overlap, and each is replaced by
the value of its name where it stands.

* `MatchesName` says which texts are names, and `TokenAt` where in a text a token stands.
* `tokenAt_iff`: the tokens of a text are those among its pieces, each behind the pieces before it;
  so no two of them overlap (`TokenAt.apart`).
* `LeftmostUnbound` is the token without a value that stands first (`values_eq_error_iff` finds it
  among the pieces), and `Replaced` is a text in which every token has been replaced where it
  stands. It comes about by spreading what the pieces become over their places (`spread`).
* `expand_spec` says what templates become, one by one and in a list.
-/

namespace NinjaGen.Template

/-! ## Where tokens stand -/

/-- A letter of a name, which may also start it. -/
def IsLetter (c : Char) : Prop := 'A' ≤ c ∧ c ≤ 'Z' ∨ 'a' ≤ c ∧ c ≤ 'z' ∨ c = '_'

/-- Whether a text is a name: a letter, and letters and digits behind it. -/
def MatchesName (name : List Char) : Prop :=
  ∃ c r, name = c :: r ∧ IsLetter c ∧ ∀ d ∈ r, IsLetter d ∨ '0' ≤ d ∧ d ≤ '9'

/-- Whether a token of that name stands in a text at a position, which is that of its opening
brace. -/
def TokenAt (cs : List Char) (i : Nat) (name : List Char) : Prop :=
  MatchesName name ∧ ('\x7b' :: name ++ ['\x7d']) <+: cs.drop i

theorem isNameStart_iff {c : Char} : isNameStart c = true ↔ IsLetter c := by
  have hletter : c.isAlpha = (decide ('A' ≤ c ∧ c ≤ 'Z') ||
      decide ('a' ≤ c) && decide (c ≤ 'z')) := rfl
  simp only [isNameStart, hletter, IsLetter, Bool.or_eq_true, Bool.and_eq_true,
    decide_eq_true_eq, or_assoc]

theorem isNameChar_iff {c : Char} : isNameChar c = true ↔ IsLetter c ∨ '0' ≤ c ∧ c ≤ '9' := by
  have hdigit : c.isDigit = (decide ('0' ≤ c) && decide (c ≤ '9')) := rfl
  have hletter : c.isAlphanum = (c.isAlpha || c.isDigit) := rfl
  rw [← isNameStart_iff]
  simp only [isNameChar, isNameStart, hletter, hdigit, Bool.or_eq_true, Bool.and_eq_true,
    decide_eq_true_eq]
  tauto

theorem isName_iff {name : List Char} : isName name = true ↔ MatchesName name := by
  cases name with
  | nil => simp [isName, MatchesName]
  | cons c r => simp [isName, MatchesName, isNameStart_iff, isNameChar_iff]

theorem tokenAt_append {a r name : List Char} {i : Nat} :
    TokenAt (a ++ r) (a.length + i) name ↔ TokenAt r i name := by
  rw [TokenAt, TokenAt, List.drop_length_add_append]

theorem tokenAt_cons_succ {c : Char} {r name : List Char} {i : Nat} :
    TokenAt (c :: r) (i + 1) name ↔ TokenAt r i name := Iff.rfl

theorem not_tokenAt_nil {i : Nat} {name : List Char} : ¬ TokenAt [] i name := by
  rintro ⟨-, h⟩
  simp at h

/-- A token starts with an opening brace, and a name and a closing brace follow. -/
theorem tokenAt_zero_iff {c : Char} {r name : List Char} :
    TokenAt (c :: r) 0 name ↔ c = '\x7b' ∧ ∃ rest, token? r = some (name, rest) := by
  constructor
  · rintro ⟨hname, rest, hrest⟩
    obtain ⟨rfl, rfl⟩ := List.cons.inj hrest
    refine ⟨rfl, rest, ?_⟩
    rw [← token?_append (isName_iff.2 hname) rest]
    simp
  · rintro ⟨rfl, rest, h⟩
    obtain ⟨rfl, hname⟩ := eq_append_of_token? h
    exact ⟨isName_iff.1 hname, rest, by simp⟩

/-- No token starts within a token. -/
theorem not_tokenAt_within {n rest name : List Char} (hn : isName n = true) {i : Nat}
    (hi : i < n.length + 1) : ¬ TokenAt (n ++ '\x7d' :: rest) i name := by
  rintro ⟨-, t, ht⟩
  have hbrace : (n ++ '\x7d' :: rest)[i]? = some '\x7b' := by
    have := congrArg (·[0]?) ht
    simpa using this.symm
  by_cases h : i < n.length
  · rw [List.getElem?_append_left h] at hbrace
    have := isNameChar_of_isName hn _ (List.mem_of_getElem? hbrace)
    exact absurd this (by decide)
  · obtain rfl : i = n.length := by omega
    simp at hbrace

/-! ## Tokens among pieces -/

@[simp] theorem length_text_literal (c : Char) : (Piece.literal c).text.length = 1 := rfl

@[simp] theorem length_text_token (name : List Char) :
    (Piece.token name).text.length = name.length + 2 := by
  simp [Piece.text]

/-- Whether a piece stands among pieces behind others whose text has that length. -/
def PieceAt (ps : List Piece) (i : Nat) (p : Piece) : Prop :=
  ∃ before after, ps = before ++ p :: after ∧ (before.flatMap Piece.text).length = i

theorem not_pieceAt_nil {i : Nat} {p : Piece} : ¬ PieceAt [] i p := by
  rintro ⟨before, after, h, -⟩
  simp at h

theorem pieceAt_cons_iff {q p : Piece} {ps : List Piece} {i : Nat} :
    PieceAt (q :: ps) i p ↔
      i = 0 ∧ q = p ∨ ∃ j, i = q.text.length + j ∧ PieceAt ps j p := by
  constructor
  · rintro ⟨before, after, h, rfl⟩
    rcases List.cons_eq_append_iff.1 h with ⟨rfl, h⟩ | ⟨before, rfl, rfl⟩
    · exact .inl ⟨rfl, (List.cons.inj h).1⟩
    · exact .inr ⟨_, by simp, before, after, rfl, rfl⟩
  · rintro (⟨rfl, rfl⟩ | ⟨_, rfl, before, after, rfl, rfl⟩)
    · exact ⟨[], ps, rfl, rfl⟩
    · exact ⟨q :: before, after, rfl, by simp⟩

/-- Behind a token stand the tokens of the rest. -/
theorem tokenAt_token_iff {n rest name : List Char} (hn : isName n = true) {i : Nat} :
    TokenAt ('\x7b' :: (n ++ '\x7d' :: rest)) i name ↔
      i = 0 ∧ n = name ∨ ∃ j, i = n.length + 2 + j ∧ TokenAt rest j name := by
  have hfirst : token? (n ++ '\x7d' :: rest) = some (n, rest) := token?_append hn rest
  have hsplit : '\x7b' :: (n ++ '\x7d' :: rest) = (Piece.token n).text ++ rest := by
    simp [Piece.text]
  constructor
  · intro h
    cases i with
    | zero =>
      obtain ⟨-, rest', h⟩ := tokenAt_zero_iff.1 h
      rw [hfirst] at h
      cases h
      exact .inl ⟨rfl, rfl⟩
    | succ i =>
      have hi : ¬ i < n.length + 1 := fun hi => not_tokenAt_within hn hi (tokenAt_cons_succ.1 h)
      obtain ⟨j, hj⟩ : ∃ j, i + 1 = n.length + 2 + j := ⟨i - (n.length + 1), by omega⟩
      refine .inr ⟨j, hj, ?_⟩
      rwa [hsplit, hj, ← length_text_token, tokenAt_append] at h
  · rintro (⟨rfl, rfl⟩ | ⟨j, rfl, h⟩)
    · exact tokenAt_zero_iff.2 ⟨rfl, rest, hfirst⟩
    · rwa [hsplit, ← length_text_token, tokenAt_append]

/-- Behind a character at which no token starts stand the tokens of the rest. -/
theorem tokenAt_literal_iff {c : Char} {r name : List Char} (h : ¬ TokenAt (c :: r) 0 name)
    {i : Nat} : TokenAt (c :: r) i name ↔ ∃ j, i = 1 + j ∧ TokenAt r j name := by
  constructor
  · intro ht
    cases i with
    | zero => exact absurd ht h
    | succ i => exact ⟨i, Nat.add_comm i 1, ht⟩
  · rintro ⟨j, rfl, ht⟩
    rw [Nat.add_comm]
    exact ht

/-- **The tokens of a text are those among its pieces.** -/
theorem tokenAt_iff {cs name : List Char} {i : Nat} :
    TokenAt cs i name ↔ PieceAt (pieces cs) i (.token name) := by
  fun_induction pieces cs generalizing i with
  | case1 => exact iff_of_false not_tokenAt_nil not_pieceAt_nil
  | case2 r n rest h ih =>
    obtain ⟨rfl, hn⟩ := eq_append_of_token? h
    rw [tokenAt_token_iff hn, pieceAt_cons_iff]
    simp only [ih, length_text_token, Piece.token.injEq]
  | case3 r h ih =>
    have hzero : ¬ TokenAt ('\x7b' :: r) 0 name := by
      rw [tokenAt_zero_iff, h]
      simp
    rw [tokenAt_literal_iff hzero, pieceAt_cons_iff]
    simp [ih]
  | case4 c r hc ih =>
    have hzero : ¬ TokenAt (c :: r) 0 name := fun h => hc (tokenAt_zero_iff.1 h).1
    rw [tokenAt_literal_iff hzero, pieceAt_cons_iff]
    simp [ih]

theorem PieceAt.apart {ps : List Piece} {p q : Piece} {i j : Nat} (hp : PieceAt ps i p)
    (hq : PieceAt ps j q) :
    i = j ∧ p = q ∨ i + p.text.length ≤ j ∨ j + q.text.length ≤ i := by
  induction ps generalizing i j with
  | nil => exact absurd hp not_pieceAt_nil
  | cons r ps ih =>
    rcases pieceAt_cons_iff.1 hp with ⟨rfl, rfl⟩ | ⟨i, rfl, hi⟩
    · rcases pieceAt_cons_iff.1 hq with ⟨rfl, rfl⟩ | ⟨j, rfl, -⟩
      · exact .inl ⟨rfl, rfl⟩
      · exact .inr (.inl (by omega))
    · rcases pieceAt_cons_iff.1 hq with ⟨rfl, rfl⟩ | ⟨j, rfl, hj⟩
      · exact .inr (.inr (by omega))
      · rcases ih hi hj with ⟨rfl, rfl⟩ | h | h
        · exact .inl ⟨rfl, rfl⟩
        · exact .inr (.inl (by omega))
        · exact .inr (.inr (by omega))

/-- **Tokens never overlap.** -/
theorem TokenAt.apart {cs n m : List Char} {i j : Nat} (hn : TokenAt cs i n)
    (hm : TokenAt cs j m) : i = j ∧ n = m ∨ i + n.length + 2 ≤ j ∨ j + m.length + 2 ≤ i := by
  have h := (tokenAt_iff.1 hn).apart (tokenAt_iff.1 hm)
  simpa only [length_text_token, Piece.token.injEq, Nat.add_assoc] using h

theorem TokenAt.lt_length {cs name : List Char} {i : Nat} (h : TokenAt cs i name) :
    i < cs.length := by
  have := h.2.length_le
  simp only [List.cons_append, List.length_cons, List.length_drop] at this
  omega

/-- A literal piece is the character that stands in the text. -/
theorem getElem?_of_pieceAt {cs : List Char} {c : Char} {i : Nat}
    (h : PieceAt (pieces cs) i (.literal c)) : cs[i]? = some c := by
  obtain ⟨before, after, heq, rfl⟩ := h
  rw [← flatMap_text_pieces cs, heq, List.flatMap_append, List.flatMap_cons]
  simp [Piece.text]

/-! ## The leftmost token without a value -/

variable {b : Bindings}

/-- Whether a token without a value stands in a text at a position, and every token before it has
one. -/
structure LeftmostUnbound (b : Bindings) (cs : List Char) (i : Nat) (name : List Char) : Prop where
  tokenAt : TokenAt cs i name
  unbound : b.get? (String.ofList name) = none
  leftmost : ∀ j n, TokenAt cs j n → j < i → ∃ v, b.get? (String.ofList n) = some v

theorem value_token_of_none {name : List Char} (h : b.get? (String.ofList name) = none) :
    (Piece.token name).value b = .error name := by
  rw [Piece.value, h]

theorem value_token_of_some {name : List Char} {v : String}
    (h : b.get? (String.ofList name) = some v) : (Piece.token name).value b = .ok v.toList := by
  rw [Piece.value, h]

/-- What has no value is a token. -/
theorem eq_token_of_value {q : Piece} {name : List Char} (h : q.value b = .error name) :
    q = .token name ∧ b.get? (String.ofList name) = none := by
  cases q with
  | literal c => cases h
  | token n =>
    cases hn : b.get? (String.ofList n) with
    | some v =>
      rw [value_token_of_some hn] at h
      cases h
    | none =>
      rw [value_token_of_none hn] at h
      cases h
      exact ⟨rfl, hn⟩

/-- Whether a token without a value stands among pieces behind others whose text has that length,
and every token before it has a value. -/
structure FirstUnbound (b : Bindings) (ps : List Piece) (i : Nat) (name : List Char) : Prop where
  pieceAt : PieceAt ps i (.token name)
  unbound : b.get? (String.ofList name) = none
  first : ∀ j n, PieceAt ps j (.token n) → j < i → ∃ v, b.get? (String.ofList n) = some v

/-- A piece that becomes something leaves it to the rest. -/
theorem firstUnbound_cons_iff_of_ok {q : Piece} {ps : List Piece} {i : Nat} {name v : List Char}
    (hq : q.value b = .ok v) :
    FirstUnbound b (q :: ps) i name ↔ ∃ j, i = q.text.length + j ∧ FirstUnbound b ps j name := by
  have hbound : ∀ n, q = .token n → ∃ v, b.get? (String.ofList n) = some v := by
    rintro n rfl
    cases hn : b.get? (String.ofList n) with
    | some v => exact ⟨v, rfl⟩
    | none =>
      rw [value_token_of_none hn] at hq
      cases hq
  constructor
  · rintro ⟨hi, hnone, hfirst⟩
    rcases pieceAt_cons_iff.1 hi with ⟨-, htoken⟩ | ⟨i, rfl, hname⟩
    · obtain ⟨v, hv⟩ := hbound name htoken
      rw [hnone] at hv
      cases hv
    · exact ⟨i, rfl, hname, hnone, fun j n hj hlt =>
        hfirst _ n (pieceAt_cons_iff.2 (.inr ⟨j, rfl, hj⟩)) (by omega)⟩
  · rintro ⟨i, rfl, hi, hnone, hfirst⟩
    refine ⟨pieceAt_cons_iff.2 (.inr ⟨i, rfl, hi⟩), hnone, fun j n hj hlt => ?_⟩
    rcases pieceAt_cons_iff.1 hj with ⟨-, htoken⟩ | ⟨j, rfl, hn⟩
    · exact hbound n htoken
    · exact hfirst j n hn (by omega)

/-- A token without a value that stands in front is the first one. -/
theorem firstUnbound_cons_iff_of_none {n name : List Char} {ps : List Piece} {i : Nat}
    (hn : b.get? (String.ofList n) = none) :
    FirstUnbound b (.token n :: ps) i name ↔ i = 0 ∧ n = name := by
  have hfront : PieceAt (.token n :: ps) 0 (.token n) := pieceAt_cons_iff.2 (.inl ⟨rfl, rfl⟩)
  constructor
  · rintro ⟨hi, -, hfirst⟩
    rcases pieceAt_cons_iff.1 hi with ⟨rfl, htoken⟩ | ⟨i, rfl, -⟩
    · exact ⟨rfl, Piece.token.inj htoken⟩
    · have hbehind : 0 < (Piece.token n).text.length + i := by
        rw [length_text_token]
        omega
      obtain ⟨v, hv⟩ := hfirst 0 n hfront hbehind
      rw [hn] at hv
      cases hv
  · rintro ⟨rfl, rfl⟩
    exact ⟨hfront, hn, fun j m _ hj => by omega⟩

/-- Only a token without a value stops the replacing, and it is the first one. -/
theorem values_eq_error_iff {ps : List Piece} {name : List Char} :
    values b ps = .error name ↔ ∃ i, FirstUnbound b ps i name := by
  induction ps with
  | nil =>
    constructor
    · intro h
      cases h
    · rintro ⟨i, h⟩
      exact absurd h.pieceAt not_pieceAt_nil
  | cons q ps ih =>
    cases hq : q.value b with
    | ok v =>
      rw [values, hq, map_eq_error_iff, ih]
      simp only [firstUnbound_cons_iff_of_ok hq]
      constructor
      · rintro ⟨i, h⟩
        exact ⟨_, i, rfl, h⟩
      · rintro ⟨_, i, -, h⟩
        exact ⟨i, h⟩
    | error n =>
      obtain ⟨rfl, hn⟩ := eq_token_of_value hq
      rw [values, hq]
      simp [firstUnbound_cons_iff_of_none hn]

/-- **A template fails at its leftmost token without a value**, and the error holds the template as
it is. -/
theorem expand_eq_error_iff {template : String} {e : GenerationError} :
    expand b template = .error e ↔
      ∃ i name, LeftmostUnbound b template.toList i name ∧
        e = .unresolvedVariable (String.ofList name) template := by
  have hvalues : ∀ name, values b (pieces template.toList) = .error name ↔
      ∃ i, LeftmostUnbound b template.toList i name := by
    intro name
    rw [values_eq_error_iff]
    refine exists_congr fun i => ⟨fun ⟨h, hnone, hfirst⟩ => ?_, fun ⟨h, hnone, hleft⟩ => ?_⟩
    · exact ⟨tokenAt_iff.2 h, hnone, fun j n hj => hfirst j n (tokenAt_iff.1 hj)⟩
    · exact ⟨tokenAt_iff.1 h, hnone, fun j n hj => hleft j n (tokenAt_iff.2 hj)⟩
  unfold expand
  cases hresult : values b (pieces template.toList) with
  | ok cs =>
    simp only [reduceCtorEq, false_iff]
    rintro ⟨i, name, h, -⟩
    have := (hvalues name).2 ⟨i, h⟩
    rw [hresult] at this
    cases this
  | error name =>
    simp only [Except.error.injEq]
    constructor
    · rintro rfl
      obtain ⟨i, h⟩ := (hvalues name).1 hresult
      exact ⟨i, name, h, rfl⟩
    · rintro ⟨i, n, h, rfl⟩
      have := (hvalues n).2 ⟨i, h⟩
      rw [hresult] at this
      cases this
      rfl

/-- A template fails as soon as some token has no value. -/
theorem exists_expand_eq_error_iff {template : String} :
    (∃ e, expand b template = .error e) ↔
      ∃ i name, TokenAt template.toList i name ∧ b.get? (String.ofList name) = none := by
  constructor
  · rintro ⟨e, he⟩
    obtain ⟨i, name, h, -⟩ := expand_eq_error_iff.1 he
    exact ⟨i, name, h.tokenAt, h.unbound⟩
  · rintro ⟨i, name, htoken, hnone⟩
    cases hresult : expand b template with
    | error e => exact ⟨e, rfl⟩
    | ok result =>
      obtain ⟨before, after, hpieces, -⟩ := tokenAt_iff.1 htoken
      obtain ⟨v, hv⟩ := @exists_value_of_expand b name template result hresult (by simp [hpieces])
      rw [hnone] at hv
      cases hv

/-! ## Replacing tokens -/

/-- What stands in the place of a character of a text once its tokens are replaced: the value of a
token in the place of its opening brace and nothing in the rest of it, and the character itself
wherever there is no token. -/
inductive StandsAt (b : Bindings) (cs : List Char) (k : Nat) : List Char → Prop
  | value {name : List Char} {v : String} (h : TokenAt cs k name)
      (hv : b.get? (String.ofList name) = some v) : StandsAt b cs k v.toList
  | within {i : Nat} {name : List Char} (h : TokenAt cs i name) (hi : i < k)
      (hk : k < i + name.length + 2) : StandsAt b cs k []
  | kept {c : Char} (hc : cs[k]? = some c)
      (h : ∀ i name, TokenAt cs i name → k < i ∨ i + name.length + 2 ≤ k) : StandsAt b cs k [c]

/-- Whether a text is another one with all tokens replaced where they stand. -/
def Replaced (b : Bindings) (cs result : List Char) : Prop :=
  ∃ parts : List (List Char), parts.length = cs.length ∧
    (∀ k, ∀ part ∈ parts[k]?, StandsAt b cs k part) ∧ result = parts.flatten

namespace StandsAt

variable {cs x y : List Char} {k i : Nat} {name : List Char}

/-- In the place of the opening brace of a token stands its value. -/
theorem of_tokenAt (hx : StandsAt b cs k x) (h : TokenAt cs k name) :
    ∃ v, b.get? (String.ofList name) = some v ∧ x = v.toList := by
  cases hx with
  | @value n v hn hv =>
    rcases hn.apart h with ⟨-, rfl⟩ | hle | hle
    · exact ⟨v, hv, rfl⟩
    · omega
    · omega
  | within hn hi hk =>
    rcases hn.apart h with ⟨rfl, -⟩ | hle | hle
    all_goals omega
  | kept hc hout =>
    have := hout k name h
    omega

/-- In the place of the rest of a token stands nothing. -/
theorem of_within (hx : StandsAt b cs k x) (h : TokenAt cs i name) (hi : i < k)
    (hk : k < i + name.length + 2) : x = [] := by
  cases hx with
  | value hn hv =>
    rcases hn.apart h with ⟨rfl, -⟩ | hle | hle
    all_goals omega
  | within => rfl
  | kept hc hout =>
    have := hout i name h
    omega

/-- One thing stands in the place of a character. -/
theorem unique (hx : StandsAt b cs k x) (hy : StandsAt b cs k y) : x = y := by
  cases hx with
  | value hn hv =>
    obtain ⟨w, hw, rfl⟩ := hy.of_tokenAt hn
    rw [hv] at hw
    cases hw
    rfl
  | within hn hi hk => exact (hy.of_within hn hi hk).symm
  | kept hc hout =>
    cases hy with
    | value hn =>
      have := hout _ _ hn
      omega
    | within hn hi hk =>
      have := hout _ _ hn
      omega
    | kept hd =>
      rw [hc] at hd
      cases hd
      rfl

end StandsAt

theorem Replaced.unique {cs x y : List Char} (hx : Replaced b cs x) (hy : Replaced b cs y) :
    x = y := by
  obtain ⟨ps, hps, hp, rfl⟩ := hx
  obtain ⟨qs, hqs, hq, rfl⟩ := hy
  have heq : ps = qs := by
    apply List.ext_getElem (hps.trans hqs.symm)
    intro k hk hk'
    exact (hp k _ (by simp [hk])).unique (hq k _ (by simp [hk']))
  rw [heq]

/-! ## What pieces become where they stand -/

theorem length_text_pos (p : Piece) : 0 < p.text.length := by
  cases p <;> simp

/-- Whether a piece that stands at `i` has `part` stand in the place of the character at `k`: what
it becomes in its first place, and nothing in its others. -/
def Piece.Puts (b : Bindings) (p : Piece) (i k : Nat) (part : List Char) : Prop :=
  k = i ∧ p.value b = .ok part ∨ i < k ∧ k < i + p.text.length ∧ part = []

/-- What pieces become, each spread over the places of its characters. -/
def spread : List Piece → List (List Char) → List (List Char)
  | p :: ps, v :: vs => v :: List.replicate (p.text.length - 1) [] ++ spread ps vs
  | _, _ => []

theorem flatten_spread {ps : List Piece} {vs : List (List Char)} (h : ps.length = vs.length) :
    (spread ps vs).flatten = vs.flatten := by
  induction ps generalizing vs with
  | nil =>
    cases vs with
    | nil => rfl
    | cons => cases h
  | cons p ps ih =>
    cases vs with
    | nil => cases h
    | cons v vs => simp [spread, ih (Nat.succ.inj h)]

theorem length_spread {ps : List Piece} {vs : List (List Char)} (h : ps.length = vs.length) :
    (spread ps vs).length = (ps.flatMap Piece.text).length := by
  induction ps generalizing vs with
  | nil => rfl
  | cons p ps ih =>
    cases vs with
    | nil => cases h
    | cons v vs =>
      have hpos := length_text_pos p
      simp only [spread, List.length_append, List.length_cons, List.length_replicate,
        List.flatMap_cons, ih (Nat.succ.inj h)]
      omega

/-- In every place stands what the piece there puts. -/
theorem exists_puts_of_spread {ps : List Piece} {vs : List (List Char)}
    (h : ps.map (Piece.value b) = vs.map .ok) {k : Nat} {part : List Char}
    (hpart : (spread ps vs)[k]? = some part) :
    ∃ i p, PieceAt ps i p ∧ p.Puts b i k part := by
  induction ps generalizing vs k with
  | nil => cases hpart
  | cons p ps ih =>
    cases vs with
    | nil => cases h
    | cons v vs =>
      obtain ⟨hv, hvs⟩ := List.cons.inj h
      have hfront : PieceAt (p :: ps) 0 p := pieceAt_cons_iff.2 (.inl ⟨rfl, rfl⟩)
      have hlength : (v :: List.replicate (p.text.length - 1) []).length = p.text.length := by
        have hpos := length_text_pos p
        rw [List.length_cons, List.length_replicate]
        omega
      rw [spread] at hpart
      by_cases hk : k < p.text.length
      · rw [List.getElem?_append_left (hlength.symm ▸ hk)] at hpart
        cases k with
        | zero =>
          cases hpart
          exact ⟨0, p, hfront, .inl ⟨rfl, hv⟩⟩
        | succ k =>
          have hempty : part = [] := List.eq_of_mem_replicate (List.mem_of_getElem? hpart)
          exact ⟨0, p, hfront, .inr ⟨by omega, by omega, hempty⟩⟩
      · rw [List.getElem?_append_right (by omega), hlength] at hpart
        obtain ⟨i, q, hq, hputs⟩ := ih hvs hpart
        refine ⟨_, q, pieceAt_cons_iff.2 (.inr ⟨i, rfl, hq⟩), ?_⟩
        rcases hputs with ⟨hi, hvalue⟩ | ⟨hi, hlt, hempty⟩
        · exact .inl ⟨by omega, hvalue⟩
        · exact .inr ⟨by omega, by omega, hempty⟩

/-- What a piece becomes is what stands in its place. -/
theorem standsAt_of_pieceAt {cs part : List Char} {i k : Nat} {p : Piece}
    (hp : PieceAt (pieces cs) i p) (h : p.Puts b i k part) : StandsAt b cs k part := by
  cases p with
  | literal c =>
    rcases h with ⟨rfl, hvalue⟩ | ⟨hi, hk, -⟩
    · cases hvalue
      refine .kept (getElem?_of_pieceAt hp) fun j name hj => ?_
      rcases (tokenAt_iff.1 hj).apart hp with ⟨-, hne⟩ | hle | hle
      · cases hne
      · rw [length_text_token] at hle
        omega
      · rw [length_text_literal] at hle
        omega
    · rw [length_text_literal] at hk
      omega
  | token name =>
    have htoken : TokenAt cs i name := tokenAt_iff.2 hp
    rcases h with ⟨rfl, hvalue⟩ | ⟨hi, hk, rfl⟩
    · cases hn : b.get? (String.ofList name) with
      | none =>
        rw [value_token_of_none hn] at hvalue
        cases hvalue
      | some v =>
        rw [value_token_of_some hn] at hvalue
        cases hvalue
        exact .value htoken hn
    · rw [length_text_token] at hk
      exact .within htoken hi (by omega)

theorem replaced_of_expand {template result : String} (h : expand b template = .ok result) :
    Replaced b template.toList result.toList := by
  obtain ⟨vs, hvs, hresult⟩ := values_eq_ok_iff.1 (expand_eq_ok_iff.1 h)
  have hlength : (pieces template.toList).length = vs.length := by
    simpa using congrArg List.length hvs
  refine ⟨spread (pieces template.toList) vs, ?_, fun k part hpart => ?_, ?_⟩
  · rw [length_spread hlength, flatMap_text_pieces]
  · obtain ⟨i, p, hp, hputs⟩ := exists_puts_of_spread hvs hpart
    exact standsAt_of_pieceAt hp hputs
  · rw [hresult, flatten_spread hlength]

/-- **A template becomes the text in which its tokens have been replaced where they stand**, all at
once. -/
theorem expand_eq_ok_iff_replaced {template result : String} :
    expand b template = .ok result ↔ Replaced b template.toList result.toList := by
  refine ⟨replaced_of_expand, fun h => ?_⟩
  cases hexpand : expand b template with
  | ok other => rw [String.toList_inj.1 ((replaced_of_expand hexpand).unique h)]
  | error e =>
    -- A token without a value leaves its place without anything to stand there.
    obtain ⟨i, name, hname, -⟩ := expand_eq_error_iff.1 hexpand
    obtain ⟨parts, hlength, hparts, -⟩ := h
    have hi : i < parts.length := hlength ▸ hname.tokenAt.lt_length
    obtain ⟨v, hv, -⟩ := (hparts i _ (List.getElem?_eq_getElem hi)).of_tokenAt hname.tokenAt
    rw [hname.unbound] at hv
    cases hv

/-! ## Templates -/

/-- **What templates become.** Tokens never overlap. A template fails as soon as some token has no
value, and the error tells the leftmost such token and holds the template as it is; otherwise every
token has been replaced by its value where it stands, and every other character is in its place.
A list of templates becomes the list of what they become, and fails as its first template does that
fails. -/
theorem expand_spec (b : Bindings) :
    (∀ cs i j n m, TokenAt cs i n → TokenAt cs j m →
      i = j ∧ n = m ∨ i + n.length + 2 ≤ j ∨ j + m.length + 2 ≤ i) ∧
    (∀ template, (∃ e, expand b template = .error e) ↔
      ∃ i name, TokenAt template.toList i name ∧ b.get? (String.ofList name) = none) ∧
    (∀ template e, expand b template = .error e ↔
      ∃ i name, LeftmostUnbound b template.toList i name ∧
        e = .unresolvedVariable (String.ofList name) template) ∧
    (∀ template result, expand b template = .ok result ↔
      Replaced b template.toList result.toList) ∧
    (∀ templates results, expandAll b templates = .ok results ↔
      List.Forall₂ (fun template result => expand b template = .ok result) templates results) ∧
    ∀ templates e, expandAll b templates = .error e ↔
      ∃ before template after, templates = before ++ template :: after ∧
        (∀ t ∈ before, ∃ result, expand b t = .ok result) ∧ expand b template = .error e := by
  refine ⟨fun _ _ _ _ _ hn hm => hn.apart hm, fun _ => exists_expand_eq_error_iff,
    fun _ _ => expand_eq_error_iff, fun _ _ => expand_eq_ok_iff_replaced,
    fun templates results => ?_, fun _ _ => mapM_eq_error_iff⟩
  rw [expandAll, mapM_eq_ok_iff, ← List.forall₂_eq_eq_eq, List.forall₂_map_left_iff,
    List.forall₂_map_right_iff]

/-- In `{a{b}}` the token is `{b}`, and a value that looks like a token is not replaced. -/
example :
    expand (.ofList [("b", "\x7bc\x7d"), ("c", "d")]) "\x7ba\x7bb\x7d\x7d" =
      .ok "\x7ba\x7bc\x7d\x7d" := by
  decide +kernel

end NinjaGen.Template
