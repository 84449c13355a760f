import NinjaGen.Proofs.Ninja.LogicalLines

/-!
# Where a line is broken

A line that is too wide is broken at its separating spaces, each time as far right as the width
admits. Positions in a line are counted in the bytes of its UTF-8 form.

* `bytes` is that form (`bytes_toList`); an ASCII character is found in it where it stands in the
  text (`getElem?_bytes_iff`).
* `SeparatesAt` says of a byte that it is a space behind an even run of `$`, and `BreaksAt` that it
  is the one at which a line is broken (`separatesAt_iff`).
* `WellBroken` says that every chunk of a line ends where the line has to be broken, and
  `lineTexts` are the physical lines that hold the chunks.
* `wellBroken_chunks`: a line is broken so. `lineText_breaks` is what follows for the text of a
  line.
-/

namespace NinjaGen.Ninja

open Text (width joinSpaces fill fillFrom fits)

/-! ## Bytes -/

/-- The bytes of a text in UTF-8. -/
def bytes (cs : List Char) : List UInt8 := cs.flatMap String.utf8EncodeChar

@[simp] theorem bytes_append (a b : List Char) : bytes (a ++ b) = bytes a ++ bytes b := by
  simp [bytes]

/-- They are those of the string. -/
theorem bytes_toList (s : String) : bytes s.toList = s.toByteArray.data.toList := by
  have h : s.toByteArray = s.toList.utf8Encode := by
    rw [← String.toByteArray_ofList, String.ofList_toList]
  rw [h, List.utf8Encode, bytes]
  simp

@[simp] theorem length_bytes (cs : List Char) : (bytes cs).length = width cs := by
  induction cs with
  | nil => rfl
  | cons c r ih =>
    rw [bytes, List.flatMap_cons, List.length_append, String.length_utf8EncodeChar, ← bytes, ih,
      Text.width_cons]

theorem utf8EncodeChar_of_ascii {c : Char} (hc : c.toNat < 128) :
    String.utf8EncodeChar c = [c.toUInt8] := by
  refine String.utf8EncodeChar_eq_singleton (Char.utf8Size_eq_one_iff.2 ?_)
  exact UInt32.le_iff_toNat_le.2 (show c.toNat ≤ 127 by omega)

/-- The bytes of a character that is not in ASCII are not in ASCII either. -/
theorem le_of_mem_utf8EncodeChar {c : Char} (hc : 128 ≤ c.toNat) :
    ∀ b ∈ String.utf8EncodeChar c, 128 ≤ b.toNat := by
  have hfirst : ¬ c.val.toNat ≤ 127 := show ¬ c.toNat ≤ 127 by omega
  unfold String.utf8EncodeChar
  dsimp only
  rw [if_neg hfirst]
  repeat' split
  all_goals
    simp only [List.forall_mem_cons, List.not_mem_nil, UInt8.toNat_ofNat', false_imp_iff,
      implies_true, and_true]
    omega

/-- The byte of an ASCII character is in the form of that character alone. -/
theorem eq_of_mem_utf8EncodeChar {c d : Char} (hd : d.toNat < 128)
    (h : d.toUInt8 ∈ String.utf8EncodeChar c) : c = d := by
  have hbyte : d.toUInt8.toNat = d.toNat % 256 := rfl
  by_cases hc : c.toNat < 128
  · rw [utf8EncodeChar_of_ascii hc, List.mem_singleton] at h
    have hval : d.toNat % 256 = c.toNat % 256 := congrArg UInt8.toNat h
    exact Char.ext (UInt32.toNat.inj (show c.toNat = d.toNat by omega))
  · have := le_of_mem_utf8EncodeChar (by omega) _ h
    omega

/-- The byte of an ASCII character is found where that stands in the text. -/
theorem getElem?_bytes_iff {d : Char} (hd : d.toNat < 128) {cs : List Char} {i : Nat} :
    (bytes cs)[i]? = some d.toUInt8 ↔ ∃ a b, cs = a ++ d :: b ∧ width a = i := by
  constructor
  · intro h
    induction cs generalizing i with
    | nil => simp [bytes] at h
    | cons c r ih =>
      have hsplit : bytes (c :: r) = String.utf8EncodeChar c ++ bytes r := rfl
      rw [hsplit] at h
      by_cases hi : i < (String.utf8EncodeChar c).length
      · rw [List.getElem?_append_left hi] at h
        have hc := eq_of_mem_utf8EncodeChar hd (List.mem_of_getElem? h)
        rw [hc, utf8EncodeChar_of_ascii hd, List.length_singleton] at hi
        exact ⟨[], r, by rw [hc, List.nil_append], by simp; omega⟩
      · rw [List.getElem?_append_right (by omega)] at h
        obtain ⟨a, b, rfl, hwidth⟩ := ih h
        rw [String.length_utf8EncodeChar] at hwidth hi
        exact ⟨c :: a, b, rfl, by rw [Text.width_cons]; omega⟩
  · rintro ⟨a, b, rfl, rfl⟩
    have hsplit : bytes (d :: b) = String.utf8EncodeChar d ++ bytes b := rfl
    rw [bytes_append, List.getElem?_append_right (by simp), hsplit, utf8EncodeChar_of_ascii hd]
    simp

theorem length_run_bytes {d : Char} (hd : d.toNat < 128) (cs : List Char) :
    ((bytes cs).reverse.takeWhile (· = d.toUInt8)).length =
      (cs.reverse.takeWhile (· = d)).length := by
  induction cs using List.reverseRecOn with
  | nil => rfl
  | append_singleton r c ih =>
    have hsingle : bytes [c] = String.utf8EncodeChar c := List.flatMap_singleton _ _
    rw [bytes_append, hsingle, List.reverse_append, List.reverse_append]
    by_cases hc : c = d
    · rw [hc, utf8EncodeChar_of_ascii hd]
      simp [ih]
    · obtain ⟨b, more, hb⟩ : ∃ b more, (String.utf8EncodeChar c).reverse = b :: more :=
        List.exists_cons_of_ne_nil (by simp [String.utf8EncodeChar_ne_nil])
      have hne : b ≠ d.toUInt8 := by
        rintro rfl
        have hmem : d.toUInt8 ∈ (String.utf8EncodeChar c).reverse := hb ▸ List.mem_cons_self
        exact hc (eq_of_mem_utf8EncodeChar hd (List.mem_reverse.1 hmem))
      rw [hb]
      simp [hne, hc]

/-! ## Separating spaces -/

/-- Whether the byte at an index is a space behind an even run of `$`. -/
def SeparatesAt (bs : List UInt8) (i : Nat) : Prop :=
  bs[i]? = some ' '.toUInt8 ∧
    ((bs.take i).reverse.takeWhile (· = '$'.toUInt8)).length % 2 = 0

/-- Whether a text is broken at an index when the line has room for less than `budget` bytes in
front of its mark: at the last separating space below the budget, or at the first one if there is
none below. -/
def BreaksAt (bs : List UInt8) (budget i : Nat) : Prop :=
  SeparatesAt bs i ∧
    (i < budget ∧ (∀ j, i < j → j < budget → ¬ SeparatesAt bs j) ∨
      budget ≤ i ∧ ∀ j, j < i → ¬ SeparatesAt bs j)

theorem oddAfter_eq_false_iff {a b : List Char} :
    oddAfter false a = false ↔
      (((bytes (a ++ b)).take (width a)).reverse.takeWhile (· = '$'.toUInt8)).length % 2 = 0 := by
  rw [bytes_append, ← length_bytes, List.take_left, length_run_bytes (by decide), oddAfter_eq_run,
    decide_eq_false_iff_not]
  omega

theorem separatesAt_width_iff {a b : List Char} :
    SeparatesAt (bytes (a ++ ' ' :: b)) (width a) ↔ oddAfter false a = false := by
  rw [SeparatesAt, ← oddAfter_eq_false_iff]
  exact and_iff_right ((getElem?_bytes_iff (by decide)).2 ⟨a, b, rfl, rfl⟩)

theorem separatesAt_iff {cs : List Char} {i : Nat} :
    SeparatesAt (bytes cs) i ↔
      ∃ a b, cs = a ++ ' ' :: b ∧ oddAfter false a = false ∧ width a = i := by
  constructor
  · intro h
    obtain ⟨a, b, rfl, rfl⟩ := (getElem?_bytes_iff (by decide)).1 h.1
    exact ⟨a, b, rfl, separatesAt_width_iff.1 h, rfl⟩
  · rintro ⟨a, b, rfl, hodd, rfl⟩
    exact separatesAt_width_iff.2 hodd

/-- A separating space stays one in front of more. -/
theorem SeparatesAt.append {a : List Char} {i : Nat} (h : SeparatesAt (bytes a) i)
    (b : List Char) : SeparatesAt (bytes (a ++ b)) i := by
  obtain ⟨x, y, rfl, hodd, rfl⟩ := separatesAt_iff.1 h
  exact separatesAt_iff.2 ⟨x, y ++ b, by simp, hodd, rfl⟩

theorem SeparatesAt.lt_width {a : List Char} {i : Nat} (h : SeparatesAt (bytes a) i) :
    i < width a := by
  obtain ⟨hi, -⟩ := List.getElem?_eq_some_iff.1 h.1
  rwa [length_bytes] at hi

/-! ## Items -/

/-- Whether texts are the items of a line: their spaces are escaped, and those between them are
not. -/
structure AreItems (ws : List (List Char)) : Prop where
  escaped : ∀ w ∈ ws, SpacesAre true false w
  even : ∀ w ∈ ws.dropLast, oddAfter false w = false

theorem spacesAre_of_mem_itemsFrom {cs w : List Char} {r : List (List Char)} :
    ∀ {odd}, itemsFrom odd cs = w :: r →
      SpacesAre true odd w ∧ ∀ v ∈ r, SpacesAre true false v := by
  induction cs generalizing w r with
  | nil =>
    intro odd h
    cases h
    exact ⟨trivial, nofun⟩
  | cons c cs ih =>
    intro odd h
    unfold itemsFrom at h
    split at h
    next hsep =>
      cases h
      obtain ⟨v, e, hv⟩ := List.exists_cons_of_ne_nil (itemsFrom_ne_nil false cs)
      rw [hv, List.forall_mem_cons]
      exact ⟨trivial, ih hv⟩
    next hsep =>
      split at h
      next hr => exact absurd hr (itemsFrom_ne_nil _ cs)
      next item more hr =>
        cases h
        obtain ⟨hitem, hmore⟩ := ih hr
        have hspace : c = ' ' → odd = true := fun hc => by
          cases odd with
          | true => rfl
          | false => exact absurd ⟨hc, rfl⟩ hsep
        exact ⟨⟨hspace, hitem⟩, hmore⟩

theorem areItems_items (cs : List Char) : AreItems (items cs) := by
  refine ⟨fun w hw => ?_, fun w hw => oddAfter_of_mem_items hw⟩
  obtain ⟨v, r, hv⟩ := List.exists_cons_of_ne_nil (items_ne_nil cs)
  rw [hv] at hw
  exact List.forall_mem_cons.2 (spacesAre_of_mem_itemsFrom hv) w hw

namespace AreItems

variable {ws us vs : List (List Char)}

theorem of_append (h : AreItems (us ++ vs)) (hvs : vs ≠ []) : AreItems vs := by
  refine ⟨fun w hw => h.escaped w (List.mem_append_right us hw), fun w hw => h.even w ?_⟩
  rw [List.dropLast_append_of_ne_nil hvs]
  exact List.mem_append_right us hw

/-- A separating space stands between two items. -/
theorem exists_split (h : AreItems ws) {a b : List Char} (hjoin : joinSpaces ws = a ++ ' ' :: b)
    (hodd : oddAfter false a = false) :
    ∃ us vs, ws = us ++ vs ∧ us ≠ [] ∧ vs ≠ [] ∧ joinSpaces us = a := by
  have hinside : ∀ {x y : List Char}, oddAfter false x = false →
      ¬ SpacesAre true false (x ++ ' ' :: y) := by
    intro x y hx hspaces
    have := (spacesAre_append.1 hspaces).2.1 rfl
    rw [hx] at this
    cases this
  induction ws generalizing a with
  | nil => simp at hjoin
  | cons w r ih =>
    cases r with
    | nil =>
      rw [Text.joinSpaces_singleton] at hjoin
      exact absurd (hjoin ▸ h.escaped w List.mem_cons_self) (hinside hodd)
    | cons v r =>
      rw [Text.joinSpaces_cons_cons] at hjoin
      rcases List.append_eq_append_iff.1 hjoin with ⟨t, ha, ht⟩ | ⟨t, hw, ht⟩
      · cases t with
        | nil => exact ⟨[w], v :: r, rfl, by simp, by simp, by simp [ha]⟩
        | cons c t =>
          obtain ⟨hc, hrest⟩ := List.cons.inj ht
          -- The run of `$` in front of the space starts behind the first item.
          have hodd' : oddAfter false t = false := by
            rw [ha, oddAfter_append, ← hc] at hodd
            exact hodd
          obtain ⟨us, vs, hr, hus, hvs, hjoin'⟩ :=
            ih (@of_append [w] _ h (by simp)) hrest hodd'
          obtain ⟨u, us, rfl⟩ := List.exists_cons_of_ne_nil hus
          refine ⟨w :: u :: us, vs, by rw [hr]; rfl, by simp, hvs, ?_⟩
          rw [Text.joinSpaces_cons_cons, hjoin', ha, hc]
      · cases t with
        | nil => exact ⟨[w], v :: r, rfl, by simp, by simp, by simp [hw]⟩
        | cons c t =>
          have hc : ' ' = c := (List.cons.inj ht).1
          rw [← hc] at hw
          exact absurd (hw ▸ h.escaped w List.mem_cons_self) (hinside hodd)

/-- The separating spaces of a line are those between its items. -/
theorem separatesAt_iff (h : AreItems ws) {i : Nat} :
    SeparatesAt (bytes (joinSpaces ws)) i ↔
      ∃ us vs, ws = us ++ vs ∧ us ≠ [] ∧ vs ≠ [] ∧ width (joinSpaces us) = i := by
  rw [Ninja.separatesAt_iff]
  constructor
  · rintro ⟨a, b, hjoin, hodd, rfl⟩
    obtain ⟨us, vs, hws, hus, hvs, rfl⟩ := h.exists_split hjoin hodd
    exact ⟨us, vs, hws, hus, hvs, rfl⟩
  · rintro ⟨us, vs, rfl, hus, hvs, rfl⟩
    refine ⟨_, _, joinSpaces_append hus hvs, oddAfter_joinSpaces fun w hw => ?_, rfl⟩
    refine h.even w ?_
    rw [List.dropLast_append_of_ne_nil hvs]
    exact List.mem_append_left _ hw

end AreItems

/-! ## Filling a line -/

theorem width_joinSpaces_append {us vs : List (List Char)} (hus : us ≠ []) (hvs : vs ≠ []) :
    width (joinSpaces (us ++ vs)) = width (joinSpaces us) + 1 + width (joinSpaces vs) := by
  have hspace : Char.utf8Size ' ' = 1 := by decide
  rw [joinSpaces_append hus hvs, Text.width_append, Text.width_cons, hspace, Nat.add_assoc]

theorem width_joinSpaces_le_append (us vs : List (List Char)) :
    width (joinSpaces us) ≤ width (joinSpaces (us ++ vs)) := by
  by_cases hus : us = []
  · simp [hus]
  · by_cases hvs : vs = []
    · simp [hvs]
    · rw [width_joinSpaces_append hus hvs]
      omega

/-- Behind `front`, a line takes what stays within the limit, and the next item would not. -/
theorem fillFrom_spec {limit : Nat} {front ws taken left : List (List Char)} (hfront : front ≠ [])
    (h : fillFrom limit (width (joinSpaces front)) ws = (taken, left)) :
    (taken ≠ [] → width (joinSpaces (front ++ taken)) ≤ limit) ∧
      ∀ v ∈ left.head?, limit < width (joinSpaces (front ++ taken ++ [v])) := by
  induction ws generalizing front taken with
  | nil =>
    cases h
    exact ⟨nofun, nofun⟩
  | cons w r ih =>
    have hnext : width (joinSpaces front) + 1 + width w = width (joinSpaces (front ++ [w])) := by
      rw [width_joinSpaces_append hfront (by simp), Text.joinSpaces_singleton]
    rw [fillFrom, hnext] at h
    split at h
    next hfit =>
      obtain ⟨more, left', hmore⟩ : ∃ more left',
          fillFrom limit (width (joinSpaces (front ++ [w]))) r = (more, left') := ⟨_, _, rfl⟩
      rw [hmore] at h
      cases h
      obtain ⟨htaken, hleft⟩ := ih (by simp) hmore
      simp only [List.append_assoc, List.singleton_append] at htaken hleft ⊢
      refine ⟨fun _ => ?_, hleft⟩
      by_cases hm : more = []
      · rwa [hm]
      · exact htaken hm
    next hfit =>
      cases h
      refine ⟨nofun, fun v hv => ?_⟩
      cases hv
      rw [List.append_nil]
      omega

theorem fill_spec {limit : Nat} {ws taken left : List (List Char)}
    (h : fill limit ws = (taken, left)) :
    (width (joinSpaces taken) ≤ limit ∨ taken.length ≤ 1) ∧
      ∀ v ∈ left.head?, limit < width (joinSpaces (taken ++ [v])) := by
  cases ws with
  | nil =>
    cases h
    exact ⟨.inr (by simp), nofun⟩
  | cons w r =>
    obtain ⟨more, left', hmore⟩ : ∃ more left', fillFrom limit (width w) r = (more, left') :=
      ⟨_, _, rfl⟩
    rw [fill, hmore] at h
    cases h
    have hspec := @fillFrom_spec limit [w] r more left (by simp) (by simpa using hmore)
    refine ⟨?_, hspec.2⟩
    by_cases hm : more = []
    · exact .inr (by simp [hm])
    · exact .inl (hspec.1 hm)

/-! ## Chunks -/

/-- Whether the chunks of a line, the first of which is indented by `level` and the others by
`further`, are those in which it has to be broken: what is left of the line is broken when it is too
wide, and it stays whole when it fits or cannot be broken. -/
def WellBroken (lineWidth further : Nat) : Nat → List (List Char) → Prop
  | _, [] => False
  | level, [last] => 2 * level + width last ≤ lineWidth ∨ ∀ i, ¬ SeparatesAt (bytes last) i
  | level, chunk :: next :: more =>
    lineWidth < 2 * level + width (joinSpaces (chunk :: next :: more)) ∧
      BreaksAt (bytes (joinSpaces (chunk :: next :: more))) (lineWidth - (2 * level + 2))
        (width chunk) ∧
      WellBroken lineWidth further further (next :: more)

/-- The physical lines that hold chunks: each is indented, and each but the last is marked as
continued. -/
def lineTexts (further : Nat) : Nat → List (List Char) → List (List Char)
  | _, [] => []
  | level, [last] => [indentation level ++ last]
  | level, chunk :: next :: more =>
    (indentation level ++ chunk ++ [' ', '$']) :: lineTexts further further (next :: more)

theorem width_indentation (level : Nat) : width (indentation level) = 2 * level := by
  rw [indentation]
  induction 2 * level with
  | zero => rfl
  | succ n ih =>
    have hspace : Char.utf8Size ' ' = 1 := by decide
    rw [List.replicate_succ, Text.width_cons, ih, hspace, Nat.add_comm]

theorem layOut_eq_flatMap (further : Nat) (css : List (List (List Char))) :
    ∀ level, layOut level further css =
      (lineTexts further level (css.map joinSpaces)).flatMap (· ++ ['\n']) := by
  induction css with
  | nil => exact fun _ => rfl
  | cons c r ih =>
    intro level
    cases r with
    | nil => simp [layOut, lineTexts]
    | cons d r =>
      have hlay : layOut level further (c :: d :: r) = indentation level ++ joinSpaces c ++
          [' ', '$', '\n'] ++ layOut further further (d :: r) := rfl
      rw [hlay, ih]
      simp [lineTexts]

theorem joinSpaces_map_joinSpaces {css : List (List (List Char))} (h : ∀ c ∈ css, c ≠ []) :
    joinSpaces (css.map joinSpaces) = joinSpaces css.flatten := by
  induction css with
  | nil => rfl
  | cons c r ih =>
    rw [List.forall_mem_cons] at h
    cases r with
    | nil => simp
    | cons d r =>
      have hrest : (d :: r).flatten ≠ [] := by
        have hd : d ≠ [] := h.2 d List.mem_cons_self
        simp [hd]
      rw [List.flatten_cons, joinSpaces_append h.1 hrest, ← ih h.2]
      exact Text.joinSpaces_cons_cons _ _ _

/-- Where a line is full, it is broken. -/
theorem breaksAt_fill {limit budget : Nat} {taken left : List (List Char)} (hlimit : limit = budget - 1)
    (hitems : AreItems (taken ++ left)) (htaken : taken ≠ []) (hleft : left ≠ [])
    (h : fill limit (taken ++ left) = (taken, left)) :
    BreaksAt (bytes (joinSpaces (taken ++ left))) budget (width (joinSpaces taken)) := by
  obtain ⟨hfit, hnext⟩ := fill_spec h
  refine ⟨hitems.separatesAt_iff.2 ⟨taken, left, rfl, htaken, hleft, rfl⟩, ?_⟩
  by_cases hbudget : width (joinSpaces taken) < budget
  · refine .inl ⟨hbudget, fun j hj hjb hsep => ?_⟩
    obtain ⟨us, vs, heq, hus, hvs, rfl⟩ := hitems.separatesAt_iff.1 hsep
    rcases List.append_eq_append_iff.1 heq with ⟨t, rfl, ht⟩ | ⟨t, rfl, ht⟩
    · cases t with
      | nil => simp at hj
      | cons v t =>
        -- The next item is in front of the space, and it had no room.
        have hv : v ∈ left.head? := by rw [ht]; rfl
        have hroom := hnext v hv
        have hle := width_joinSpaces_le_append (taken ++ [v]) t
        rw [List.append_assoc, List.singleton_append] at hle
        omega
    · have := width_joinSpaces_le_append us t
      omega
  · refine .inr ⟨by omega, fun j hj hsep => ?_⟩
    obtain ⟨us, vs, heq, hus, hvs, rfl⟩ := hitems.separatesAt_iff.1 hsep
    have hone : taken.length ≤ 1 := by
      rcases hfit with hfit | hone
      · omega
      · exact hone
    -- One item has been taken, and no space is in front of the end of that.
    obtain ⟨w, rfl⟩ : ∃ w, taken = [w] := by
      obtain ⟨w, r, rfl⟩ := List.exists_cons_of_ne_nil htaken
      exact ⟨w, by simpa using hone⟩
    obtain ⟨u, us, rfl⟩ := List.exists_cons_of_ne_nil hus
    obtain ⟨rfl, -⟩ := List.cons.inj heq
    have := width_joinSpaces_le_append [w] us
    rw [List.singleton_append] at this
    omega

/-- What is taken whole although it does not fit cannot be broken. -/
theorem not_separatesAt_of_fill {lineWidth used : Nat} {ws : List (List Char)}
    (hitems : AreItems ws) (hfit : ¬ fits lineWidth used ws = true)
    (h : fill (lineWidth - (used + 2) - 1) ws = (ws, [])) (i : Nat) :
    ¬ SeparatesAt (bytes (joinSpaces ws)) i := by
  intro hsep
  obtain ⟨us, vs, rfl, hus, hvs, -⟩ := hitems.separatesAt_iff.1 hsep
  have hlong := width_joinSpaces_append hus hvs
  rw [Text.fits_iff] at hfit
  rcases (fill_spec h).1 with hle | hone
  · omega
  · have := List.length_pos_iff.2 hus
    have := List.length_pos_iff.2 hvs
    rw [List.length_append] at hone
    omega

/-- **A line is broken where it has to be.** -/
theorem wellBroken_chunks (lineWidth further level : Nat) (rest : List (List Char))
    (hne : rest ≠ []) (hitems : AreItems rest) :
    WellBroken lineWidth further level
      ((chunks lineWidth level further rest).map joinSpaces) := by
  fun_induction chunks lineWidth level further rest with
  | case1 level rest indent hfit => exact .inl (Text.fits_iff.1 hfit)
  | case2 level rest indent hfit taken hf =>
    have htaken := Text.fill_append (lineWidth - (indent + 2) - 1) rest
    rw [hf] at htaken
    dsimp only at htaken
    rw [List.append_nil] at htaken
    rw [htaken] at hf ⊢
    exact .inr (not_separatesAt_of_fill hitems hfit hf)
  | case3 level rest indent hfit taken item more hf ih =>
    have hrest := Text.fill_append (lineWidth - (indent + 2) - 1) rest
    have htaken := @Text.fill_fst_ne_nil (lineWidth - (indent + 2) - 1) rest hne
    rw [hf] at hrest htaken
    dsimp only at hrest htaken
    subst hrest
    have hchunks := @ne_nil_of_chunks lineWidth further further (item :: more) (by simp)
    have hjoin : joinSpaces (joinSpaces taken ::
        (chunks lineWidth further further (item :: more)).map joinSpaces) =
          joinSpaces (taken ++ item :: more) := by
      have hall : ∀ c ∈ taken :: chunks lineWidth further further (item :: more), c ≠ [] :=
        List.forall_mem_cons.2 ⟨htaken, hchunks.2⟩
      have := joinSpaces_map_joinSpaces hall
      rwa [List.map_cons, List.flatten_cons, flatten_chunks] at this
    have hbroken := ih (by simp) (hitems.of_append (by simp))
    obtain ⟨d, r, hdr⟩ := List.exists_cons_of_ne_nil hchunks.1
    rw [List.map_cons]
    rw [hdr, List.map_cons] at hbroken hjoin ⊢
    rw [WellBroken, hjoin]
    rw [Text.fits_iff] at hfit
    exact ⟨by omega, breaksAt_fill rfl hitems htaken (by simp) hf, hbroken⟩

/-! ## The text of a line -/

section WellBroken

variable {lineWidth further : Nat}

theorem oddAfter_of_wellBroken {before after : List (List Char)} (hafter : after ≠ []) :
    ∀ {level}, WellBroken lineWidth further level (before ++ after) →
      ∀ c ∈ before, oddAfter false c = false := by
  induction before with
  | nil => exact fun _ => nofun
  | cons c r ih =>
    intro level h
    obtain ⟨d, more, hdr⟩ := List.exists_cons_of_ne_nil (List.append_ne_nil_of_right_ne_nil r hafter)
    rw [List.cons_append, hdr, WellBroken, Text.joinSpaces_cons_cons] at h
    rw [List.forall_mem_cons]
    exact ⟨separatesAt_width_iff.1 h.2.1.1, ih (hdr ▸ h.2.2)⟩

/-- A line that is too wide holds nothing at which it could be broken. -/
theorem not_separatesAt_of_wellBroken {chunks : List (List Char)} :
    ∀ {level}, WellBroken lineWidth further level chunks →
      List.Forall₂ (fun line chunk => lineWidth < width line →
        ∀ i, ¬ SeparatesAt (bytes chunk) i) (lineTexts further level chunks) chunks := by
  induction chunks with
  | nil => exact fun _ => .nil
  | cons c r ih =>
    intro level h
    cases r with
    | nil =>
      refine .cons (fun hlong => ?_) .nil
      rw [Text.width_append, width_indentation] at hlong
      rcases h with hfit | hnone
      · omega
      · exact hnone
    | cons d r =>
      refine .cons (fun hlong i hsep => ?_) (ih h.2.2)
      have hmark : width [' ', '$'] = 2 := by decide
      rw [Text.width_append, Text.width_append, width_indentation, hmark] at hlong
      have hi := hsep.lt_width
      rcases h.2.1.2 with ⟨hlt, -⟩ | ⟨-, hnone⟩
      · omega
      · refine hnone i hi ?_
        rw [Text.joinSpaces_cons_cons]
        exact hsep.append _

/-- What fits is not broken. -/
theorem whole_of_wellBroken {level : Nat} {cs : List Char} {chunks : List (List Char)}
    (hjoin : joinSpaces chunks = cs) (h : WellBroken lineWidth further level chunks)
    (hfit : 2 * level + width cs ≤ lineWidth) : chunks = [cs] := by
  rcases chunks with _ | ⟨c, _ | ⟨d, r⟩⟩
  · exact h.elim
  · rw [← hjoin, Text.joinSpaces_singleton]
  · have hlong := h.1
    rw [hjoin] at hlong
    omega

end WellBroken

/-- The end of a part of a text is at the end of a character. -/
theorem isValid_width {text : String} {a b : List Char} (h : text.toList = a ++ b) :
    String.Pos.Raw.IsValid text ⟨width a⟩ := by
  refine String.Pos.Raw.isValid_iff_exists_append.2 ⟨String.ofList a, String.ofList b, ?_, ?_⟩
  · rw [← String.ofList_append, ← h, String.ofList_toList]
  · rw [← Text.utf8ByteSize_ofList]
    rfl

theorem newline_not_mem_lineTexts {further : Nat} {chunks : List (List Char)}
    (h : '\n' ∉ joinSpaces chunks) : ∀ {level}, ∀ l ∈ lineTexts further level chunks, '\n' ∉ l := by
  induction chunks with
  | nil => exact nofun
  | cons c r ih =>
    intro level
    cases r with
    | nil =>
      rw [Text.joinSpaces_singleton] at h
      simpa [lineTexts] using ⟨newline_not_mem_indentation level, h⟩
    | cons d r =>
      rw [Text.joinSpaces_cons_cons, List.mem_append, List.mem_cons, not_or, not_or] at h
      refine List.forall_mem_cons.2 ⟨?_, ih h.2.2⟩
      simpa using ⟨newline_not_mem_indentation level, h.1⟩

/-- What is to be said of the chunks in which a text is written as a line. -/
structure IsWrapped (lineWidth level : Nat) (text : String) (chunks : List (List Char)) : Prop where
  /-- The chunks with one space between two of them are the text. -/
  join : joinSpaces chunks = text.toList
  /-- The physical lines hold the chunks. -/
  lines : lineText lineWidth level text =
    (lineTexts (level + 2) level chunks).flatMap (· ++ ['\n'])
  physicalLines : physicalLines (lineText lineWidth level text) =
    some (lineTexts (level + 2) level chunks)
  broken : WellBroken lineWidth (level + 2) level chunks
  /-- A text that fits is one chunk. -/
  whole : 2 * level + width text.toList ≤ lineWidth → chunks = [text.toList]
  /-- Between two chunks there is a separating space of the text, at the end of a character. -/
  cut : ∀ before after, before ≠ [] → after ≠ [] → chunks = before ++ after →
    SeparatesAt (bytes text.toList) (width (joinSpaces before)) ∧
      String.Pos.Raw.IsValid text ⟨width (joinSpaces before)⟩
  /-- A physical line that is too wide holds nothing at which it could be broken. -/
  long : List.Forall₂ (fun line chunk => lineWidth < width line →
    ∀ i, ¬ SeparatesAt (bytes chunk) i) (lineTexts (level + 2) level chunks) chunks

/-- **Wrapping a line.** At every width a text without newlines is written in chunks that are cut
from it at separating spaces, each as far right as the width admits. -/
theorem lineText_breaks (lineWidth level : Nat) {text : String} (h : '\n' ∉ text.toList) :
    ∃ chunks, IsWrapped lineWidth level text chunks := by
  have hitems := areItems_items text.toList
  have hne := @ne_nil_of_chunks lineWidth (level + 2) level _ (items_ne_nil text.toList)
  have hbroken := wellBroken_chunks lineWidth (level + 2) level _ (items_ne_nil _) hitems
  have hlines := layOut_eq_flatMap (level + 2)
    (chunks lineWidth level (level + 2) (items text.toList)) level
  have hjoin := joinSpaces_map_joinSpaces hne.2
  rw [flatten_chunks, joinSpaces_items] at hjoin
  refine ⟨_, hjoin, hlines, ?_, hbroken, whole_of_wellBroken hjoin hbroken, ?_,
    not_separatesAt_of_wellBroken hbroken⟩
  · rw [lineText, wrap, hlines]
    refine physicalLines_eq_some_iff.2 ⟨newline_not_mem_lineTexts ?_, rfl⟩
    rwa [hjoin]
  · intro before after hbefore hafter heq
    rw [heq] at hbroken hjoin
    rw [joinSpaces_append hbefore hafter] at hjoin
    refine ⟨?_, isValid_width hjoin.symm⟩
    rw [← hjoin]
    exact separatesAt_width_iff.2 (oddAfter_joinSpaces (oddAfter_of_wellBroken hafter hbroken))

/-- A name with an escaped space stays whole, although it is wider than the line. -/
theorem lineText_breaks_escaped :
    let text := "build a: cc größe$ x$$ y.c"
    '\n' ∉ text.toList ∧
      physicalLines (lineText 12 0 text) = some
        ["build a: $".toList, "    cc $".toList, "    größe$ x$$ $".toList, "    y.c".toList] ∧
      ∃ chunks, IsWrapped 12 0 text chunks := by
  intro text
  have hnewline : '\n' ∉ text.toList := by decide +kernel
  exact ⟨hnewline, by decide +kernel, lineText_breaks 12 0 hnewline⟩

end NinjaGen.Ninja
