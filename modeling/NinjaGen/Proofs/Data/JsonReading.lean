import NinjaGen.Data.Json

/-!
# Reading JSON

The JSON notation of a value is read back, whatever spaces and line breaks stand in it. What is
read in front of a text comes with the rest of that text.

* `char?` reads a character of a text with the escapes of JSON, `quoted?` a text and `number?` a
  whole number; other numbers are not read.
* `sequence?` reads what stands between brackets, and `value?` a value in which no more than so
  many brackets stand in each other. `read?` is the value that a text writes.
* `Exact` are the values that can be told from their notation: a date or a time is shown as its
  text, and a number that is not whole is not read.
* `value?_valueText`: an exact value is read back in front of whatever may follow it, and
  `read?_json` reads it back from its notation.
-/

namespace NinjaGen.Json

/-! ## Texts -/

/-- The number that a hexadecimal digit stands for. -/
def hexValue? (c : Char) : Option Nat :=
  if c.isDigit then some (c.toNat - '0'.toNat)
  else if 'a' ≤ c ∧ c ≤ 'f' then some (c.toNat - 'a'.toNat + 10)
  else if 'A' ≤ c ∧ c ≤ 'F' then some (c.toNat - 'A'.toNat + 10)
  else none

/-- The number that four hexadecimal digits write. -/
def unit? : List Char → Option (Nat × List Char)
  | a :: b :: c :: d :: r => do
    let a ← hexValue? a
    let b ← hexValue? b
    let c ← hexValue? c
    let d ← hexValue? d
    pure (((a * 16 + b) * 16 + c) * 16 + d, r)
  | _ => none

/-- The character whose number an escape writes. One that four digits are too few for is written
as two numbers of the range that has no characters. -/
def numbered? (cs : List Char) : Option (Char × List Char) := do
  let (first, r) ← unit? cs
  if first < 0xd800 ∨ 0xdfff < first then pure (Char.ofNat first, r)
  else
    match r with
    | '\\' :: 'u' :: r =>
      let (second, r) ← unit? r
      if first < 0xdc00 ∧ 0xdc00 ≤ second ∧ second ≤ 0xdfff then
        pure (Char.ofNat (0x10000 + (first - 0xd800) * 0x400 + (second - 0xdc00)), r)
      else none
    | _ => none

/-- The first character of a text, or the one that an escape there stands for. -/
def char? : List Char → Option (Char × List Char)
  | '\\' :: '"' :: r => some ('"', r)
  | '\\' :: '\\' :: r => some ('\\', r)
  | '\\' :: '/' :: r => some ('/', r)
  | '\\' :: 'n' :: r => some ('\n', r)
  | '\\' :: 'r' :: r => some ('\r', r)
  | '\\' :: 't' :: r => some ('\t', r)
  | '\\' :: 'b' :: r => some ('\x08', r)
  | '\\' :: 'f' :: r => some ('\x0c', r)
  | '\\' :: 'u' :: r => numbered? r
  | '\\' :: _ => none
  | c :: r => if c.toNat < 32 then none else some (c, r)
  | [] => none

/-- The characters up to the quote that ends a text, at most `n` of them. -/
def text? : Nat → List Char → Option (List Char × List Char)
  | _, '"' :: r => some ([], r)
  | 0, _ => none
  | n + 1, cs => do
    let (c, r) ← char? cs
    let (s, r) ← text? n r
    pure (c :: s, r)

/-- The text between two quotes. -/
def quoted? : List Char → Option (String × List Char)
  | '"' :: r => (text? r.length r).map fun (s, r) => (String.ofList s, r)
  | _ => none

theorem hexValue?_digitChar : ∀ d < 16, hexValue? (Nat.digitChar d) = some d := by decide

theorem numbered_eq : ∀ n < 32, List.replicate (4 - (Text.hexDigits n).length) '0' ++
    Text.hexDigits n = ['0', '0', Nat.digitChar (n / 16), Nat.digitChar (n % 16)] := by decide

theorem numbered?_numbered {c : Char} (hc : c.toNat < 32) (r : List Char) :
    ∃ cs, numbered c ++ r = '\\' :: 'u' :: cs ∧ numbered? cs = some (c, r) := by
  refine ⟨['0', '0', Nat.digitChar (c.toNat / 16), Nat.digitChar (c.toNat % 16)] ++ r, ?_, ?_⟩
  · rw [← numbered_eq _ hc]
    simp [numbered]
  · have hhigh := hexValue?_digitChar (c.toNat / 16) (by omega)
    have hlow := hexValue?_digitChar (c.toNat % 16) (by omega)
    have hzero : hexValue? '0' = some 0 := rfl
    have hunit : unit? (['0', '0', Nat.digitChar (c.toNat / 16), Nat.digitChar (c.toNat % 16)] ++ r)
        = some (c.toNat, r) := by
      simp only [List.cons_append, List.nil_append, unit?, hzero, hhigh, hlow,
        Option.bind_eq_bind, Option.bind_some, Option.pure_def, Option.some.injEq, Prod.mk.injEq,
        and_true]
      omega
    have hrange : c.toNat < 0xd800 ∨ 0xdfff < c.toNat := by omega
    rw [numbered?, hunit]
    simp [hrange, Char.ofNat_toNat]

/-- The form of a character does not end a text. -/
theorem escapeChar_eq_cons (c : Char) : ∃ d r, escapeChar c = d :: r ∧ d ≠ '"' := by
  unfold escapeChar
  split
  case h_8 hquote _ _ _ _ _ _ =>
    split
    · exact ⟨'\\', _, rfl, by decide⟩
    · exact ⟨c, [], rfl, hquote⟩
  all_goals exact ⟨'\\', _, rfl, by decide⟩

theorem char?_escapeChar (c : Char) (r : List Char) : char? (escapeChar c ++ r) = some (c, r) := by
  unfold escapeChar
  split
  case h_8 hquote hslash _ _ _ _ _ =>
    split
    case isTrue hc =>
      obtain ⟨cs, hcs, hread⟩ := numbered?_numbered hc r
      rw [hcs, char?]
      exact hread
    case isFalse hc =>
      rw [List.singleton_append, char?.eq_def]
      split <;> simp_all
  all_goals rfl

theorem text?_escapeChar (n : Nat) (c : Char) (cs : List Char) :
    text? (n + 1) (escapeChar c ++ cs) = (text? n cs).map fun p => (c :: p.1, p.2) := by
  obtain ⟨d, more, hcons, hd⟩ := escapeChar_eq_cons c
  have hopen : ∀ r, escapeChar c ++ cs = '"' :: r → False := by
    intro r heq
    rw [hcons] at heq
    exact hd (List.cons.inj heq).1
  rw [text?, char?_escapeChar]
  · cases hread : text? n cs <;> simp [hread]
  · exact hopen

theorem text?_escaped {s : List Char} {n : Nat} (hn : s.length ≤ n) (r : List Char) :
    text? n (s.flatMap escapeChar ++ '"' :: r) = some (s, r) := by
  induction s generalizing n with
  | nil => cases n <;> rfl
  | cons c s ih =>
    obtain ⟨n, rfl⟩ : ∃ m, n = m + 1 := ⟨n - 1, by simp at hn; omega⟩
    rw [List.flatMap_cons, List.append_assoc, text?_escapeChar, ih (by simpa using hn),
      Option.map_some]

theorem length_le_length_escaped (s : List Char) : s.length ≤ (s.flatMap escapeChar).length := by
  induction s with
  | nil => exact Nat.le_refl 0
  | cons c s ih =>
    obtain ⟨d, more, hcons, -⟩ := escapeChar_eq_cons c
    simp only [List.flatMap_cons, List.length_append, List.length_cons, hcons]
    omega

theorem quoted?_quote (s : String) (r : List Char) : quoted? (quote s ++ r) = some (s, r) := by
  have hlength := length_le_length_escaped s.toList
  simp only [quote, List.cons_append, List.append_assoc, List.nil_append, quoted?]
  rw [text?_escaped (by simp only [List.length_append]; omega), Option.map_some,
    String.ofList_toList]

/-! ## Numbers -/

/-- Whether a rest does not go on with the number in front of it. -/
def Stops (rest : List Char) : Prop := ∀ c ∈ rest.head?, c.isDigit = false

@[simp] theorem stops_cons {c : Char} {r : List Char} : Stops (c :: r) ↔ c.isDigit = false := by
  simp [Stops]

/-- The number that a run of digits writes. -/
def natural? (cs : List Char) : Option (Nat × List Char) :=
  let digits := cs.takeWhile Char.isDigit
  if digits = [] then none
  else some (Nat.ofDigitChars 10 digits 0, cs.dropWhile Char.isDigit)

/-- A whole number. -/
def number? : List Char → Option (Int × List Char)
  | '-' :: r => (natural? r).map fun (n, r) => (-n, r)
  | cs => (natural? cs).map fun (n, r) => (n, r)

theorem natural?_toDigits (n : Nat) {rest : List Char} (hrest : Stops rest) :
    natural? (Nat.toDigits 10 n ++ rest) = some (n, rest) := by
  have hdigits : ∀ c ∈ Nat.toDigits 10 n, c.isDigit = true :=
    fun c hc => Nat.isDigit_of_mem_toDigits (by decide) (by decide) hc
  have hstop : rest.takeWhile Char.isDigit = [] ∧ rest.dropWhile Char.isDigit = rest := by
    cases rest with
    | nil => exact ⟨rfl, rfl⟩
    | cons c r =>
      have hc : c.isDigit = false := stops_cons.1 hrest
      simp [hc]
  simp only [natural?]
  rw [List.takeWhile_append_of_pos hdigits, List.dropWhile_append_of_pos hdigits, hstop.1, hstop.2,
    List.append_nil, if_neg Nat.toDigits_ne_nil, Nat.ofDigitChars_ten_toDigits]

theorem toDigits_eq_cons (n : Nat) :
    ∃ c r, Nat.toDigits 10 n = c :: r ∧ c.isDigit = true := by
  obtain ⟨c, r, hcons⟩ := List.exists_cons_of_ne_nil (@Nat.toDigits_ne_nil n 10)
  exact ⟨c, r, hcons, Nat.isDigit_of_mem_toDigits (by decide) (by decide)
    (hcons ▸ List.mem_cons_self)⟩

/-- The notation of a number is its digits, with a sign in front of them below zero. -/
theorem toString_int (n : Int) :
    (∃ m : Nat, n = m ∧ (toString n).toList = Nat.toDigits 10 m) ∨
      ∃ m : Nat, n = -m ∧ (toString n).toList = '-' :: Nat.toDigits 10 m := by
  rw [Int.toString_eq_repr, Int.repr_eq_if]
  split
  case isTrue hn => exact .inl ⟨n.toNat, (Int.toNat_of_nonneg hn).symm, Nat.toList_repr⟩
  case isFalse hn => exact .inr ⟨(-n).toNat, by omega, by simp⟩

theorem toString_eq_cons (n : Int) :
    ∃ c r, (toString n).toList = c :: r ∧ (c = '-' ∨ c.isDigit = true) := by
  obtain ⟨m, -, hm⟩ | ⟨m, -, hm⟩ := toString_int n
  · obtain ⟨c, r, hcons, hc⟩ := toDigits_eq_cons m
    exact ⟨c, r, by rw [hm, hcons], .inr hc⟩
  · exact ⟨'-', _, hm, .inl rfl⟩

theorem number?_toString (n : Int) {rest : List Char} (hrest : Stops rest) :
    number? ((toString n).toList ++ rest) = some (n, rest) := by
  obtain ⟨m, rfl, hm⟩ | ⟨m, rfl, hm⟩ := toString_int n
  · have hsign : ∀ r, Nat.toDigits 10 m ++ rest = '-' :: r → False := by
      intro r heq
      obtain ⟨c, more, hcons, hc⟩ := toDigits_eq_cons m
      rw [hcons] at heq
      rw [(List.cons.inj heq).1] at hc
      exact absurd hc (by decide)
    rw [hm, number?, natural?_toDigits _ hrest, Option.map_some]
    exact hsign
  · rw [hm, List.cons_append, number?, natural?_toDigits _ hrest, Option.map_some]

/-! ## Brackets -/

/-- What may stand between the parts of a notation. -/
def isSpace (c : Char) : Bool := c = ' ' || c = '\n' || c = '\r' || c = '\t'

/-- A text from its first character on that is no space. -/
def skipSpaces (cs : List Char) : List Char := cs.dropWhile isSpace

/-- A closing bracket and what follows it. -/
def closed? (closing : Char) (cs : List Char) : Option (List Char) :=
  match skipSpaces cs with
  | c :: r => if c = closing then some r else none
  | [] => none

variable {α : Type}

/-- Items with commas between them up to a closing bracket: at least one of them, and at most
`n`. -/
def items? (item : List Char → Option (α × List Char)) (closing : Char) :
    Nat → List Char → Option (List α × List Char)
  | 0, _ => none
  | n + 1, cs => do
    let (x, r) ← item cs
    match skipSpaces r with
    | ',' :: r => (items? item closing n r).map fun (xs, r) => (x :: xs, r)
    | r => (closed? closing r).map fun r => ([x], r)

/-- What stands between brackets. -/
def sequence? (item : List Char → Option (α × List Char)) (closing : Char) (cs : List Char) :
    Option (List α × List Char) :=
  (items? item closing cs.length cs).or ((closed? closing cs).map fun r => ([], r))

@[simp] theorem skipSpaces_newline (level : Nat) (cs : List Char) :
    skipSpaces (newline level ++ cs) = skipSpaces cs := by
  have hspace : ∀ c ∈ newline level, isSpace c = true := by
    intro c hc
    rcases List.mem_cons.1 hc with rfl | hc
    · rfl
    · rw [List.eq_of_mem_replicate hc]
      rfl
  exact List.dropWhile_append_of_pos hspace

theorem skipSpaces_cons {c : Char} (hc : isSpace c = false) (r : List Char) :
    skipSpaces (c :: r) = c :: r := by
  simp [skipSpaces, hc]

/-- How the items of a block and its closing bracket are written. -/
def listing (level : Nat) (closing : Char) (lines : List (List Char)) : List Char :=
  newline (level + 1) ++ (',' :: newline (level + 1)).intercalate lines ++ newline level ++
    [closing]

theorem listing_singleton (level : Nat) (closing : Char) (l : List Char) :
    listing level closing [l] = newline (level + 1) ++ l ++ newline level ++ [closing] := by
  simp [listing]

theorem listing_cons_cons (level : Nat) (closing : Char) (l l' : List Char)
    (lines : List (List Char)) :
    listing level closing (l :: l' :: lines) =
      newline (level + 1) ++ l ++ ',' :: listing level closing (l' :: lines) := by
  simp [listing]

theorem block_cons (level : Nat) (opening closing : Char) (l : List Char)
    (lines : List (List Char)) :
    block level opening closing (l :: lines) = opening :: listing level closing (l :: lines) := by
  simp [block, listing]

theorem items?_comma {item : List Char → Option (α × List Char)} {cs r r' : List Char} {x : α}
    (hitem : item cs = some (x, r)) (hr : skipSpaces r = ',' :: r') (closing : Char) (n : Nat) :
    items? item closing (n + 1) cs = (items? item closing n r').map fun p => (x :: p.1, p.2) := by
  simp [items?, hitem, hr]

theorem items?_closed {item : List Char → Option (α × List Char)} {cs r r' : List Char} {x : α}
    {closing : Char} (hitem : item cs = some (x, r)) (hr : skipSpaces r = closing :: r')
    (hclosing : closing ≠ ',') (hspace : isSpace closing = false) (n : Nat) :
    items? item closing (n + 1) cs = some ([x], r') := by
  have hclosed : closed? closing (closing :: r') = some r' := by
    simp [closed?, skipSpaces_cons hspace]
  simp only [items?, hitem, hr, Option.bind_eq_bind, Option.bind_some]
  split
  · exact absurd (List.cons.inj ‹_›).1 hclosing
  · rw [hclosed, Option.map_some]

theorem items?_listing {item : List Char → Option (α × List Char)} {text : α → List Char}
    {closing : Char} {level : Nat} (hclosing : closing ≠ ',') (hspace : isSpace closing = false)
    {x : α} {xs : List α}
    (hitem : ∀ y ∈ x :: xs, ∀ rest, Stops rest →
      item (newline (level + 1) ++ text y ++ rest) = some (y, rest))
    {n : Nat} (hn : xs.length < n) (rest : List Char) :
    items? item closing n (listing level closing ((x :: xs).map text) ++ rest) =
      some (x :: xs, rest) := by
  induction xs generalizing x n with
  | nil =>
    obtain ⟨n, rfl⟩ : ∃ m, n = m + 1 := ⟨n - 1, by omega⟩
    have hread := hitem x List.mem_cons_self (newline level ++ closing :: rest) (by simp [newline])
    have hrest : skipSpaces (newline level ++ closing :: rest) = closing :: rest := by
      rw [skipSpaces_newline, skipSpaces_cons hspace]
    have hcs : listing level closing ([x].map text) ++ rest =
        newline (level + 1) ++ text x ++ (newline level ++ closing :: rest) := by
      simp [listing_singleton]
    rw [hcs, items?_closed hread hrest hclosing hspace]
  | cons x' xs ih =>
    obtain ⟨n, rfl⟩ : ∃ m, n = m + 1 := ⟨n - 1, by omega⟩
    have hread := hitem x List.mem_cons_self
      (',' :: (listing level closing ((x' :: xs).map text) ++ rest)) (by simp)
    have hcs : listing level closing ((x :: x' :: xs).map text) ++ rest =
        newline (level + 1) ++ text x ++
          ',' :: (listing level closing ((x' :: xs).map text) ++ rest) := by
      simp [listing_cons_cons]
    rw [hcs, items?_comma hread (skipSpaces_cons (by decide) _),
      ih (fun y hy => hitem y (List.mem_cons_of_mem x hy)) (by simpa using hn), Option.map_some]

theorem length_lt_length_listing (level : Nat) (closing : Char) (l : List Char)
    (lines : List (List Char)) :
    lines.length < (listing level closing (l :: lines)).length := by
  induction lines generalizing l with
  | nil =>
    simp only [listing_singleton, List.length_append, List.length_cons]
    omega
  | cons l' lines ih =>
    have := ih l'
    simp only [listing_cons_cons, List.length_append, List.length_cons]
    omega

theorem length_lt_length_listing_of_mem {level : Nat} {closing : Char} {l : List Char}
    {lines : List (List Char)} (h : l ∈ lines) :
    l.length < (listing level closing lines).length := by
  induction lines with
  | nil => simp at h
  | cons m lines ih =>
    cases lines with
    | nil =>
      obtain rfl := List.mem_singleton.1 h
      simp only [listing_singleton, List.length_append, List.length_cons]
      omega
    | cons m' lines =>
      simp only [listing_cons_cons, List.length_append, List.length_cons]
      rcases List.mem_cons.1 h with rfl | h
      · omega
      · have := ih h
        omega

theorem length_lt_length_block {level : Nat} {opening closing : Char} {l : List Char}
    {lines : List (List Char)} (h : l ∈ lines) :
    l.length + 1 < (block level opening closing lines).length := by
  have hlisting := @length_lt_length_listing_of_mem level closing l lines h
  obtain ⟨m, lines, rfl⟩ := List.exists_cons_of_ne_nil (List.ne_nil_of_mem h)
  rw [block_cons, List.length_cons]
  omega

/-- What is read item by item is read from the block of the items. -/
theorem sequence?_block {item : List Char → Option (α × List Char)} {text : α → List Char}
    {closing : Char} {level : Nat} {xs : List α} (hclosing : closing ≠ ',')
    (hspace : isSpace closing = false) (hend : ∀ rest, item (closing :: rest) = none)
    (hitem : ∀ x ∈ xs, ∀ rest, Stops rest →
      item (newline (level + 1) ++ text x ++ rest) = some (x, rest))
    (opening : Char) (rest : List Char) :
    ∃ r, block level opening closing (xs.map text) ++ rest = opening :: r ∧
      sequence? item closing r = some (xs, rest) := by
  cases xs with
  | nil =>
    refine ⟨closing :: rest, rfl, ?_⟩
    simp [sequence?, items?, hend, closed?, skipSpaces_cons hspace]
  | cons x xs =>
    refine ⟨listing level closing ((x :: xs).map text) ++ rest, ?_, ?_⟩
    · rw [List.map_cons, block_cons, List.cons_append]
    · have hlength := length_lt_length_listing level closing (text x) (xs.map text)
      rw [sequence?, items?_listing hclosing hspace hitem, Option.some_or]
      simp only [List.map_cons, List.length_map, List.length_append] at hlength ⊢
      omega

/-! ## Values -/

/-- A field of a record, its value read by `value`. -/
def field? (value : List Char → Option (Value × List Char)) (cs : List Char) :
    Option ((String × Value) × List Char) := do
  let (name, r) ← quoted? (skipSpaces cs)
  match skipSpaces r with
  | ':' :: r => (value r).map fun (v, r) => ((name, v), r)
  | _ => none

/-- A value in which at most `n - 1` brackets stand in each other. -/
def value? : Nat → List Char → Option (Value × List Char)
  | 0, _ => none
  | n + 1, cs =>
    match skipSpaces cs with
    | 'n' :: 'u' :: 'l' :: 'l' :: r => some (.null, r)
    | 't' :: 'r' :: 'u' :: 'e' :: r => some (.bool true, r)
    | 'f' :: 'a' :: 'l' :: 's' :: 'e' :: r => some (.bool false, r)
    | '"' :: r => (quoted? ('"' :: r)).map fun (s, r) => (.string s, r)
    | '[' :: r => (sequence? (value? n) ']' r).map fun (vs, r) => (.list vs, r)
    | '\x7b' :: r =>
      (sequence? (field? (value? n)) '\x7d' r).map fun (fs, r) => (.record fs, r)
    | cs => (number? cs).map fun (n, r) => (.int n, r)

/-- The value that a text writes. -/
def read? (text : String) : Option Value := do
  let (v, r) ← value? (text.length + 1) text.toList
  if skipSpaces r = [] then pure v else none

/-- The values that can be told from their notation. -/
inductive Exact : Value → Prop
  | null : Exact .null
  | bool (b : Bool) : Exact (.bool b)
  | int (n : Int) : Exact (.int n)
  | string (s : String) : Exact (.string s)
  | list {items : List Value} (h : ∀ v ∈ items, Exact v) : Exact (.list items)
  | record {fields : List (String × Value)} (h : ∀ f ∈ fields, Exact f.2) : Exact (.record fields)

theorem itemTexts_eq (level : Nat) (items : List Value) :
    itemTexts level items = items.map (valueText level) := by
  induction items with
  | nil => rfl
  | cons v r ih => rw [itemTexts, ih, List.map_cons]

/-- The notation of a field at a level. -/
def fieldText (level : Nat) (f : String × Value) : List Char :=
  quote f.1 ++ [':', ' '] ++ valueText level f.2

theorem fieldTexts_eq (level : Nat) (fields : List (String × Value)) :
    fieldTexts level fields = fields.map (fieldText level) := by
  induction fields with
  | nil => rfl
  | cons f r ih =>
    obtain ⟨name, v⟩ := f
    rw [fieldTexts, ih, List.map_cons]
    rfl

theorem value?_newline (n level : Nat) (cs : List Char) :
    value? n (newline level ++ cs) = value? n cs := by
  cases n with
  | zero => rfl
  | succ n => rw [value?, value?, skipSpaces_newline]

theorem value?_space (n : Nat) (cs : List Char) : value? n (' ' :: cs) = value? n cs := by
  cases n <;> rfl

theorem field?_fieldText {value : List Char → Option (Value × List Char)} {level level' : Nat}
    {f : String × Value} {rest : List Char}
    (hvalue : value (' ' :: (valueText level f.2 ++ rest)) = some (f.2, rest)) :
    field? value (newline level' ++ fieldText level f ++ rest) = some (f, rest) := by
  have hskip : skipSpaces (newline level' ++ fieldText level f ++ rest) =
      quote f.1 ++ ':' :: ' ' :: (valueText level f.2 ++ rest) := by
    rw [List.append_assoc, skipSpaces_newline, fieldText]
    simp [quote, skipSpaces, isSpace]
  simp only [field?, hskip, quoted?_quote, Option.bind_eq_bind, Option.bind_some]
  rw [skipSpaces_cons (by decide)]
  simp [hvalue]

theorem isSpace_of_isDigit {c : Char} (hc : c.isDigit = true) : isSpace c = false := by
  cases h : isSpace c with
  | false => rfl
  | true =>
    simp only [isSpace, Bool.or_eq_true, decide_eq_true_eq] at h
    rcases h with ((rfl | rfl) | rfl) | rfl <;> exact absurd hc (by decide)

theorem value?_number {c : Char} (hc : c = '-' ∨ c.isDigit = true) (n : Nat) (r : List Char) :
    value? (n + 1) (c :: r) = (number? (c :: r)).map fun p => (.int p.1, p.2) := by
  have hspace : isSpace c = false := by
    rcases hc with rfl | hc
    · rfl
    · exact isSpace_of_isDigit hc
  rw [value?, skipSpaces_cons hspace]
  split <;> simp_all

/-- An exact value is read back from its notation, whatever follows it. -/
theorem value?_valueText {v : Value} (hv : Exact v) {level n : Nat}
    (hn : (valueText level v).length ≤ n) {rest : List Char} (hrest : Stops rest) :
    value? (n + 1) (valueText level v ++ rest) = some (v, rest) := by
  induction hv generalizing level n rest with
  | null => rfl
  | bool b => cases b <;> rfl
  | int m =>
    obtain ⟨c, r, hcons, hc⟩ := toString_eq_cons m
    have hread := number?_toString m hrest
    rw [hcons] at hread
    rw [valueText, hcons, List.cons_append, value?_number hc, ← List.cons_append, hread,
      Option.map_some]
  | string s =>
    obtain ⟨r, hr⟩ : ∃ r, quote s ++ rest = '"' :: r := ⟨_, rfl⟩
    have hread := quoted?_quote s rest
    rw [hr] at hread
    rw [valueText, hr, value?, skipSpaces_cons (by decide)]
    simp only [hread, Option.map_some]
  | @list items h ih =>
    rw [valueText, itemTexts_eq] at hn ⊢
    have hitem : ∀ v ∈ items, ∀ rest, Stops rest →
        value? n (newline (level + 1) ++ valueText (level + 1) v ++ rest) = some (v, rest) := by
      intro v hv rest hrest
      have hlength := Nat.lt_of_lt_of_le (length_lt_length_block (List.mem_map_of_mem hv)) hn
      obtain ⟨n, rfl⟩ : ∃ m, n = m + 1 := ⟨n - 1, by omega⟩
      rw [List.append_assoc, value?_newline, ih v hv (by omega) hrest]
    have hend : ∀ rest, value? n (']' :: rest) = none := by
      intro rest
      cases n <;> rfl
    obtain ⟨r, hr, hread⟩ := sequence?_block (by decide) rfl hend hitem '[' rest
    rw [hr, value?, skipSpaces_cons (by decide)]
    simp only [hread, Option.map_some]
  | @record fields h ih =>
    rw [valueText, fieldTexts_eq] at hn ⊢
    have hfield : ∀ f ∈ fields, ∀ rest, Stops rest →
        field? (value? n) (newline (level + 1) ++ fieldText (level + 1) f ++ rest) =
          some (f, rest) := by
      intro f hf rest hrest
      have hlength := Nat.lt_of_lt_of_le (length_lt_length_block (List.mem_map_of_mem hf)) hn
      simp only [fieldText, List.length_append] at hlength
      obtain ⟨n, rfl⟩ : ∃ m, n = m + 1 := ⟨n - 1, by omega⟩
      exact field?_fieldText (by rw [value?_space, ih f hf (by omega) hrest])
    have hend : ∀ rest, field? (value? n) ('\x7d' :: rest) = none := fun _ => rfl
    obtain ⟨r, hr, hread⟩ := sequence?_block (by decide) rfl hend hfield '\x7b' rest
    rw [hr, value?, skipSpaces_cons (by decide)]
    simp only [hread, Option.map_some]

theorem stops_of_isSpace {spaces : List Char} (h : ∀ c ∈ spaces, isSpace c = true) :
    Stops spaces := by
  intro c hc
  cases hdigit : c.isDigit with
  | false => rfl
  | true =>
    have hspace := h c (List.mem_of_mem_head? hc)
    rw [isSpace_of_isDigit hdigit] at hspace
    cases hspace

/-- An exact value is read back from its notation, behind which spaces may stand. -/
theorem read?_json {v : Value} (hv : Exact v) {spaces : List Char}
    (hspaces : ∀ c ∈ spaces, isSpace c = true) :
    read? (v.json ++ String.ofList spaces) = some v := by
  have htext : (v.json ++ String.ofList spaces).toList = valueText 0 v ++ spaces := by
    simp [Value.json]
  have hlength : (valueText 0 v).length ≤ (v.json ++ String.ofList spaces).length := by
    rw [← String.length_toList, htext, List.length_append]
    omega
  have hskip : skipSpaces spaces = [] := by
    simpa [skipSpaces] using @List.dropWhile_append_of_pos _ isSpace spaces [] hspaces
  rw [read?, htext, value?_valueText hv hlength (stops_of_isSpace hspaces)]
  simp [hskip]

end NinjaGen.Json
