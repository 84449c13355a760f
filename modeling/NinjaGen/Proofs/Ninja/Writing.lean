import NinjaGen.Proofs.Ninja.Statements

/-!
# What a writer appends

A statement is written as a whole or not at all, and what it appends does not depend on what the
file holds already.

* `Writing.Appends` says of work that it succeeds and which text it appends, and `Writing.Fails`
  that it fails before it has appended any; work in a row appends one text after the other
  (`Appends.bind`, `Appends.forM`).
* `RefusesFirst` says of work that it fails for the first of its texts that holds a line break, and
  for nothing else. So does writing a statement, for its paths (`RefusesFirst.write`).
* `Statement.perform` appends the text of the statement, or fails (`appends_perform`,
  `fails_perform`).
* `Writer.writeEach_appends` is what follows for statements in a row. Where all of them can be
  written, the writer gathers the file that they make (`Writer.writeEach_of_writeAll`).
-/

namespace NinjaGen.Ninja

/-! ## Work that appends -/

namespace Writing

variable {α β : Type} {lineWidth : Nat} {text more : List Char}

theorem on_bind (x : Writing α) (f : α → Writing β) (w : Writer) :
    (x >>= f).on w =
      match x.on w with
      | (.ok a, v) => (f a).on v
      | (.error e, v) => (.error e, v) := by
  show (match x.on w with | (a, v) => ExceptT.bindCont f a v) = _
  rcases x.on w with ⟨_ | _, _⟩ <;> rfl

/-- **Whether work succeeds and appends a text**, whatever the file holds. -/
def Appends (x : Writing α) (lineWidth : Nat) (a : α) (text : List Char) : Prop :=
  ∀ front, x.on ⟨lineWidth, front⟩ = (.ok a, ⟨lineWidth, front ++ text⟩)

/-- **Whether work fails and leaves no trace**, whatever the file holds. -/
def Fails (x : Writing α) (lineWidth : Nat) (e : GenerationError) : Prop :=
  ∀ front, x.on ⟨lineWidth, front⟩ = (.error e, ⟨lineWidth, front⟩)

namespace Appends

theorem pure (a : α) : Appends (pure a) lineWidth a [] := fun front => by
  rw [List.append_nil]
  rfl

theorem bind {x : Writing α} {f : α → Writing β} {a : α} {b : β}
    (hx : Appends x lineWidth a text) (hf : Appends (f a) lineWidth b more) :
    Appends (x >>= f) lineWidth b (text ++ more) := fun front => by
  rw [on_bind, hx]
  exact (hf _).trans (by rw [List.append_assoc])

/-- What is given back at the end appends nothing. -/
theorem give {x : Writing Unit} (hx : Appends x lineWidth () text) (b : β) :
    Appends (x >>= fun _ => Pure.pure b) lineWidth b text := by
  have h : Appends (x >>= fun _ => Pure.pure b) lineWidth b (text ++ []) := hx.bind (pure b)
  rwa [List.append_nil] at h

theorem ofExcept (a : α) : Appends (MonadExcept.ofExcept (.ok a)) lineWidth a [] := pure a

theorem forM {f : α → Writing Unit} {g : α → List Char} (xs : List α)
    (h : ∀ x ∈ xs, Appends (f x) lineWidth () (g x)) :
    Appends (xs.forM f) lineWidth () (xs.flatMap g) := by
  induction xs with
  | nil => exact pure ()
  | cons x r ih =>
    rw [List.forall_mem_cons] at h
    exact h.1.bind (ih h.2)

theorem line (level : Nat) (s : String) :
    Appends (line level s) lineWidth () (lineText lineWidth level s) := fun _ => rfl

theorem comment (s : String) : Appends (comment s) lineWidth () (commentText lineWidth s) :=
  fun front => forM _ (fun _ _ _ => rfl) front

theorem assign (level : Nat) (key value : String) :
    Appends (assign level key value) lineWidth () (variableText lineWidth level key value) := by
  unfold Writing.assign variableText
  split
  · exact pure ()
  · exact line level _

theorem assignAll (vs : List (String × String)) :
    Appends (assignAll vs) lineWidth () (assignmentsText lineWidth vs) :=
  forM vs fun v _ => assign 1 v.1 v.2

end Appends

theorem Fails.bind {x : Writing α} {e : GenerationError} (h : Fails x lineWidth e)
    (f : α → Writing β) : Fails (x >>= f) lineWidth e := fun front => by
  rw [on_bind, h]

theorem Fails.ofExcept (e : GenerationError) :
    Fails (MonadExcept.ofExcept (.error e) : Writing α) lineWidth e := fun _ => rfl

end Writing

/-! ## Statements -/

/-- What a statement gives back: an edge its outputs, as they are. -/
def Statement.given : Statement → Option (List String)
  | build edge => some edge.outputs
  | _ => none

namespace Statement

open Writing

variable {lineWidth : Nat} {s : Statement}

/-- A statement that can be written is appended. -/
theorem appends_perform {t : List Char} (h : s.write lineWidth = .ok t) :
    Appends s.perform lineWidth s.given t := by
  cases s with
  | blank =>
    cases h
    exact fun _ => rfl
  | comment text =>
    cases h
    exact (Appends.comment text).give none
  | assign key value level =>
    cases h
    exact (Appends.assign level key value).give none
  | list key values level =>
    cases h
    exact (Appends.assign level key _).give none
  | pool name depth =>
    cases h
    exact (Appends.line 0 _).bind ((Appends.assign 1 "depth" _).give none)
  | rule name command options =>
    cases h
    exact (Appends.line 0 _).bind
      ((Appends.assign 1 "command" _).bind ((Appends.assignAll _).give none))
  | build edge =>
    obtain ⟨line, hline, h⟩ := bind_eq_ok_iff.1 h
    cases h
    rw [perform, hline, assignmentsText, List.flatMap_append]
    exact (Appends.ofExcept line).bind ((Appends.line 0 line).bind
      ((Appends.assignAll _).bind ((Appends.assignAll _).give _)))
  | includeFile path | subninja path =>
    obtain ⟨es, hes, h⟩ := bind_eq_ok_iff.1 h
    cases h
    rw [perform, hes]
    exact (Appends.ofExcept es).bind ((Appends.line 0 _).give none)
  | defaults paths =>
    obtain ⟨es, hes, h⟩ := bind_eq_ok_iff.1 h
    cases h
    rw [perform]
    split
    · exact Appends.pure none
    · rw [hes]
      exact (Appends.ofExcept es).bind ((Appends.line 0 _).give none)

/-- A statement that cannot be written leaves no trace. -/
theorem fails_perform {e : GenerationError} (h : s.write lineWidth = .error e) :
    Fails s.perform lineWidth e := by
  cases s with
  | blank | comment | assign | list | pool | rule => cases h
  | build edge =>
    rcases bind_eq_error_iff.1 h with hline | ⟨_, _, h⟩
    · rw [perform, hline]
      exact (Fails.ofExcept e).bind _
    · cases h
  | includeFile path | subninja path =>
    rcases bind_eq_error_iff.1 h with hes | ⟨_, _, h⟩
    · rw [perform, hes]
      exact (Fails.ofExcept e).bind _
    · cases h
  | defaults paths =>
    rcases bind_eq_error_iff.1 h with hes | ⟨_, _, h⟩
    · have hne : paths ≠ [] := by
        rintro rfl
        cases hes
      rw [perform, if_neg hne, hes]
      exact (Fails.ofExcept e).bind _
    · cases h

end Statement

/-! ## Line breaks -/

section RefusesFirst

variable {α β : Type} {texts more : List String}

/-- **Whether work fails for the first of some texts that holds a line break**, and only for a line
break. -/
def RefusesFirst (texts : List String) (x : Except GenerationError α) : Prop :=
  ∀ e, x = .error e ↔ ∃ p, texts.find? hasLineBreak = some p ∧ e = .invalidText p

namespace RefusesFirst

theorem ok (a : α) : RefusesFirst [] (.ok a) := fun _ => iff_of_false nofun nofun

theorem bind {x : Except GenerationError α} {f : α → Except GenerationError β}
    (hx : RefusesFirst texts x) (hf : ∀ y, RefusesFirst more (f y)) :
    RefusesFirst (texts ++ more) (x >>= f) := by
  intro e
  rw [List.find?_append]
  cases hfind : texts.find? hasLineBreak with
  | some p =>
    rw [(hx (.invalidText p)).2 ⟨p, hfind, rfl⟩, bind_eq_error_iff]
    simp [eq_comm]
  | none =>
    cases x with
    | error e' =>
      obtain ⟨p, hp, -⟩ := (hx e').1 rfl
      rw [hfind] at hp
      cases hp
    | ok y => exact hf y e

/-- What follows and never fails refuses nothing. -/
theorem andThen {x : Except GenerationError α} (hx : RefusesFirst texts x) (f : α → β) :
    RefusesFirst texts (x >>= fun y => pure (f y)) := by
  have h := hx.bind fun y => ok (f y)
  rwa [List.append_nil] at h

theorem escapePath (s : String) : RefusesFirst [s] (escapePath s) := by
  intro e
  by_cases h : hasLineBreak s <;> simp [Ninja.escapePath, h, eq_comm]

theorem escapePaths (paths : List String) : RefusesFirst paths (escapePaths paths) := by
  induction paths with
  | nil => exact ok []
  | cons p r ih =>
    rw [Ninja.escapePaths, List.mapM_cons]
    exact (escapePath p).bind fun _ => ih.andThen _

theorem marked (mark : String) (paths : List String) : RefusesFirst paths (marked mark paths) :=
  (escapePaths paths).andThen _

theorem line (e : BuildEdge) : RefusesFirst e.paths e.line := by
  rw [BuildEdge.paths, List.append_assoc, List.append_assoc, List.append_assoc]
  exact (escapePaths e.outputs).bind fun _ => (marked "|" e.implicitOutputs).bind fun _ =>
    (escapePaths e.inputs).bind fun _ => (marked "|" e.implicit).bind fun _ =>
      (marked "||" e.orderOnly).andThen _

/-- **A statement is refused for the first path with a line break.** -/
theorem write (lineWidth : Nat) (s : Statement) : RefusesFirst s.paths (s.write lineWidth) := by
  cases s with
  | blank | comment | assign | list | pool | rule => exact ok _
  | build e => exact (line e).andThen _
  | includeFile path | subninja path => exact (escapePath path).andThen _
  | defaults paths => exact (escapePaths paths).andThen _

end RefusesFirst

end RefusesFirst

/-! ## Statement after statement -/

namespace Writer

variable {w : Writer} {s : Statement} {e : GenerationError} {t : List Char}

theorem write_of_ok (h : s.write w.lineWidth = .ok t) :
    w.write s = (.ok s.given, ⟨w.lineWidth, w.text ++ t⟩) :=
  Statement.appends_perform h w.text

theorem write_of_error (h : s.write w.lineWidth = .error e) : w.write s = (.error e, w) :=
  Statement.fails_perform h w.text

/-- **A statement is appended as it is written into an empty file.** -/
theorem write_eq (w : Writer) (s : Statement) :
    w.write s = (((new w.lineWidth).write s).1,
      ⟨w.lineWidth, w.text ++ ((new w.lineWidth).write s).2.text⟩) := by
  cases h : s.write w.lineWidth with
  | error e =>
    rw [write_of_error h, @write_of_error (new w.lineWidth) s e h]
    simp [new]
  | ok t =>
    rw [write_of_ok h, @write_of_ok (new w.lineWidth) s t h]
    rfl

theorem writeEach_cons (w : Writer) (s : Statement) (r : List Statement) :
    w.writeEach (s :: r) =
      ((w.write s).1 :: ((w.write s).2.writeEach r).1, ((w.write s).2.writeEach r).2) := rfl

theorem writeEach_eq (w : Writer) (ss : List Statement) :
    w.writeEach ss = (ss.map fun s => ((new w.lineWidth).write s).1,
      ⟨w.lineWidth, w.text ++ ss.flatMap fun s => ((new w.lineWidth).write s).2.text⟩) := by
  induction ss generalizing w with
  | nil => simp [writeEach]
  | cons s r ih =>
    rw [writeEach_cons, write_eq]
    dsimp only
    rw [ih, List.map_cons, List.flatMap_cons, List.append_assoc]

/-- **A statement fails for the first path with a line break**, and the file stays as it is. -/
theorem write_eq_error_iff {v : Writer} :
    w.write s = (.error e, v) ↔
      v = w ∧ ∃ p, s.paths.find? hasLineBreak = some p ∧ e = .invalidText p := by
  rw [← RefusesFirst.write w.lineWidth s e]
  cases h : s.write w.lineWidth with
  | error e' => simp [write_of_error h, and_comm, eq_comm]
  | ok t => simp [write_of_ok h]

/-- **Otherwise its lines are appended.** -/
theorem write_eq_ok_iff {v : Writer} {given : Option (List String)} :
    w.write s = (.ok given, v) ↔
      (∀ p ∈ s.paths, hasLineBreak p = false) ∧ given = s.given ∧
        v = ⟨w.lineWidth, w.text ++ s.lines.flatMap (·.write w.lineWidth)⟩ := by
  constructor
  · intro hwrite
    cases h : s.write w.lineWidth with
    | error e =>
      rw [write_of_error h] at hwrite
      cases hwrite
    | ok t =>
      rw [write_of_ok h] at hwrite
      cases hwrite
      obtain ⟨hpaths, rfl⟩ := Statement.write_eq_ok_iff.1 h
      exact ⟨hpaths, rfl, rfl⟩
  · rintro ⟨hpaths, rfl, rfl⟩
    exact write_of_ok (Statement.write_eq_ok_iff.2 ⟨hpaths, rfl⟩)

/-- Without the statements that cannot be written the file is the same. -/
theorem snd_writeEach_filter (w : Writer) (ss : List Statement) :
    (w.writeEach (ss.filter fun s => (w.write s).1.isOk)).2 = (w.writeEach ss).2 := by
  rw [writeEach_eq, writeEach_eq]
  refine congrArg (fun text => (⟨w.lineWidth, w.text ++ text⟩ : Writer)) ?_
  induction ss with
  | nil => rfl
  | cons s r ih =>
    cases h : s.write w.lineWidth with
    | error e =>
      have hfails : ¬ (w.write s).1.isOk = true := by
        rw [write_of_error h]
        exact nofun
      rw [List.filter_cons, if_neg hfails, ih, List.flatMap_cons,
        @write_of_error (new w.lineWidth) s e h]
      rfl
    | ok t =>
      have hok : (w.write s).1.isOk = true := by
        rw [write_of_ok h]
        rfl
      rw [List.filter_cons, if_pos hok, List.flatMap_cons, ih, List.flatMap_cons]

/-- A file whose statements can all be written is what a writer gathers from them. -/
theorem writeEach_of_writeAll {ss : List Statement}
    (h : Statement.writeAll w.lineWidth ss = .ok t) :
    w.writeEach ss = (ss.map fun s => .ok s.given, ⟨w.lineWidth, w.text ++ t⟩) := by
  obtain ⟨ts, hts, rfl⟩ := map_eq_ok_iff.1 h
  rw [mapM_eq_ok_iff] at hts
  clear h
  induction ss generalizing w ts with
  | nil =>
    obtain rfl := List.map_eq_nil_iff.1 hts.symm
    rw [List.flatten_nil, List.append_nil]
    rfl
  | cons s r ih =>
    obtain ⟨u, us, rfl⟩ := List.exists_cons_of_ne_nil fun hnil : ts = [] => by
      rw [hnil] at hts
      cases hts
    obtain ⟨hs, hr⟩ := List.cons.inj hts
    rw [writeEach_cons, write_of_ok hs]
    dsimp only
    rw [@ih ⟨w.lineWidth, w.text ++ u⟩ us hr, List.flatten_cons, List.append_assoc]
    rfl

/-- **What statements in a row append.** Each appends what it writes into an empty file of the same
width, and what comes out of it is the same as there. One that fails appends nothing, so the file is
the same without those that fail; it fails exactly for a line break in a path, and reports the first
such path. One that does not fail appends its lines, and an edge gives its outputs back as they
are. -/
theorem writeEach_appends (w : Writer) (ss : List Statement) :
    w.writeEach ss = (ss.map fun s => ((new w.lineWidth).write s).1,
      ⟨w.lineWidth, w.text ++ ss.flatMap fun s => ((new w.lineWidth).write s).2.text⟩) ∧
    (w.writeEach (ss.filter fun s => (w.write s).1.isOk)).2 = (w.writeEach ss).2 ∧
    (∀ s e v, w.write s = (.error e, v) ↔
      v = w ∧ ∃ p, s.paths.find? hasLineBreak = some p ∧ e = .invalidText p) ∧
    (∀ s given v, w.write s = (.ok given, v) ↔
      (∀ p ∈ s.paths, hasLineBreak p = false) ∧ given = s.given ∧
        v = ⟨w.lineWidth, w.text ++ s.lines.flatMap (·.write w.lineWidth)⟩) ∧
    ∀ edge given, (∃ v, w.write (.build edge) = (.ok given, v)) ↔
      (∀ p ∈ edge.paths, hasLineBreak p = false) ∧ given = some edge.outputs := by
  refine ⟨writeEach_eq w ss, snd_writeEach_filter w ss, fun _ _ _ => write_eq_error_iff,
    fun _ _ _ => write_eq_ok_iff, fun edge given => ?_⟩
  simp only [write_eq_ok_iff]
  constructor
  · rintro ⟨_, hpaths, hgiven, -⟩
    exact ⟨hpaths, hgiven⟩
  · rintro ⟨hpaths, hgiven⟩
    exact ⟨_, hpaths, hgiven, rfl⟩

end Writer

end NinjaGen.Ninja
