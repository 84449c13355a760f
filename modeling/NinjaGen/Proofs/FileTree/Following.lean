import NinjaGen.FileTree
import NinjaGen.Proofs.Path.Components

/-!
# Where paths lead

A path is followed piece by piece, and every location that it passes has to be a directory. Where it
leads does not depend on the tree; the tree only decides whether it can be followed.

* `Path.location` is the location that a path leads to, and `Path.passed` are those from which its
  pieces are followed. Without `..` they are all above the location (`Path.prefix_of_mem_passed`).
* `FileTree.Leads` says that a tree lets a path be followed (`FileTree.locate_eq_ok_iff`); on it
  depends what a path finds (`FileTree.isThere_iff`, `FileTree.isFile_iff`,
  `FileTree.isDirectory_iff`, `FileTree.read_eq_ok_iff`).
* `Path.components_join_of_isAbsolute` are the components of a path below an absolute one.
-/

namespace NinjaGen

/-! ## Locations -/

/-- The location that a component leads to from another. -/
def Component.lead (l : Location) : Component → Location
  | root => []
  | current => l
  | parent => l.dropLast
  | normal name => l ++ [name]

/-- The location that a piece of a path leads to from another. -/
def Location.next (l : Location) (piece : List Char) : Location :=
  match Component.ofPiece? piece with
  | some c => c.lead l
  | none => l

/-- The locations from which pieces of a path are followed. -/
def Location.passed (l : Location) : List (List Char) → List Location
  | [] => []
  | piece :: rest => l :: passed (next l piece) rest

theorem Location.next_eq (l : Location) (piece : List Char) :
    next l piece =
      if piece = [] ∨ piece = ['.'] then l
      else if piece = ['.', '.'] then l.dropLast
      else l ++ [String.ofList piece] := by
  unfold next Component.ofPiece?
  by_cases hsame : piece = [] ∨ piece = ['.']
  · rw [if_pos hsame, if_pos hsame]
  · rw [if_neg hsame, if_neg hsame]
    by_cases hup : piece = ['.', '.']
    · rw [if_pos hup, if_pos hup]
      rfl
    · rw [if_neg hup, if_neg hup]
      rfl

namespace Path

/-- The location that a path leads to, component by component from the root directory. -/
def location (p : Path) : Location := p.components.foldl Component.lead []

/-- Names lead down. -/
theorem foldl_lead_names (names : List String) (l : Location) :
    (names.map Component.normal).foldl Component.lead l = l ++ names := by
  induction names generalizing l with
  | nil => exact (List.append_nil l).symm
  | cons name names ih =>
    rw [List.map_cons, List.foldl_cons, ih, Component.lead, List.append_assoc]
    rfl

/-- The locations from which the pieces of a path are followed. -/
def passed (p : Path) : List Location := Location.passed [] p.pieces

theorem foldl_next (pieces : List (List Char)) (l : Location) :
    pieces.foldl Location.next l =
      (pieces.filterMap Component.ofPiece?).foldl Component.lead l := by
  induction pieces generalizing l with
  | nil => rfl
  | cons piece rest ih =>
    rw [List.foldl_cons, ih, Location.next]
    cases h : Component.ofPiece? piece <;> simp [h]

/-- The pieces of a path lead where its components do. -/
theorem foldl_next_pieces (p : Path) : p.pieces.foldl Location.next [] = p.location := by
  rw [foldl_next, location, components]
  split
  · rfl
  · split
    next heq =>
      rw [heq]
      rfl
    · rfl

/-- Pieces that do not lead up lead below where they start. -/
theorem prefix_foldl_next {pieces : List (List Char)}
    (h : ∀ piece ∈ pieces, Component.ofPiece? piece ≠ some .parent) (l : Location) :
    l <+: pieces.foldl Location.next l := by
  induction pieces generalizing l with
  | nil => exact List.prefix_rfl
  | cons piece rest ih =>
    refine List.IsPrefix.trans ?_ (ih (fun p hp => h p (List.mem_cons_of_mem _ hp)) _)
    have hpiece := h piece List.mem_cons_self
    unfold Location.next
    cases hc : Component.ofPiece? piece with
    | none => exact List.prefix_rfl
    | some c =>
      cases c with
      | root => exact absurd hc (Component.ofPiece?_ne_root piece)
      | current => exact List.prefix_rfl
      | parent => exact absurd hc hpiece
      | normal name => exact List.prefix_append l [name]

theorem prefix_of_mem_passed_pieces {pieces : List (List Char)}
    (h : ∀ piece ∈ pieces, Component.ofPiece? piece ≠ some .parent) {l k : Location}
    (hk : k ∈ Location.passed l pieces) : k <+: pieces.foldl Location.next l := by
  induction pieces generalizing l with
  | nil => cases hk
  | cons piece rest ih =>
    rcases List.mem_cons.1 hk with rfl | hk
    · exact prefix_foldl_next h k
    · exact ih (fun p hp => h p (List.mem_cons_of_mem _ hp)) hk

theorem parent_mem_components_iff {p : Path} :
    .parent ∈ p.components ↔ ∃ piece ∈ p.pieces, Component.ofPiece? piece = some .parent := by
  unfold components
  split
  · simp
  · split
    next heq => simp [heq, Component.ofPiece?]
    next => simp

/-- **A path without `..` passes nothing but what is above its location.** -/
theorem prefix_of_mem_passed {p : Path} (h : .parent ∉ p.components) {k : Location}
    (hk : k ∈ p.passed) : k <+: p.location := by
  rw [← foldl_next_pieces]
  refine prefix_of_mem_passed_pieces (fun piece hp heq => h ?_) hk
  exact parent_mem_components_iff.2 ⟨piece, hp, heq⟩

/-- Whether the text of a path can be followed in some tree. -/
def IsUsable (p : Path) : Prop :=
  p.refusal? = none ∧ p.text ≠ "" ∧ ∀ piece ∈ p.pieces, isLongName piece = false

/-! ## Absolute paths -/

theorem components_of_isAbsolute {p : Path} (h : p.isAbsolute = true) :
    p.components = .root :: p.pieces.filterMap Component.ofPiece? := by
  rw [components, if_pos h]

/-- The components of a relative path, less that which stands for where it starts. -/
theorem filterMap_pieces {p : Path} (h : p.isAbsolute = false) :
    p.pieces.filterMap Component.ofPiece? = p.components.filter (· ≠ .current) := by
  have hcurrent : ∀ pieces : List (List Char), (pieces.filterMap Component.ofPiece?).filter
      (· ≠ .current) = pieces.filterMap Component.ofPiece? := by
    intro pieces
    rw [List.filter_eq_self]
    intro c hc
    obtain ⟨piece, -, hpiece⟩ := List.mem_filterMap.1 hc
    exact decide_eq_true fun heq => Component.ofPiece?_ne_current piece (heq ▸ hpiece)
  unfold components
  rw [h, if_neg (by simp)]
  split
  next rest heq =>
    rw [heq, List.filter_cons_of_neg (by simp), hcurrent]
    rfl
  next => rw [hcurrent]

/-- **The components of a relative path that continues an absolute one.** -/
theorem components_join_of_isAbsolute {p q : Path} (hp : p.isAbsolute = true)
    (hq : q.isAbsolute = false) :
    (p.join q).components = p.components ++ q.components.filter (· ≠ .current) := by
  obtain ⟨text⟩ := p
  have hjoined : ∀ front : List Char, front ++ ['/'] = text.toList ∨ front = text.toList →
      (Path.mk (String.ofList (front ++ '/' :: q.text.toList))).components =
        (Path.mk text).components ++ q.components.filter (· ≠ .current) := by
    intro front hfront
    have habs : (Path.mk (String.ofList (front ++ '/' :: q.text.toList))).isAbsolute = true := by
      rw [isAbsolute, decide_eq_true_eq] at hp ⊢
      rcases hfront with hfront | rfl
      · cases front with
        | nil => simp
        | cons c r => simpa [← hfront] using hp
      · rw [String.toList_ofList, List.head?_append, hp]
        rfl
    have hpieces : (Path.mk text).pieces.filterMap Component.ofPiece? =
        (front.splitOn '/').filterMap Component.ofPiece? := by
      rcases hfront with hfront | rfl
      · rw [pieces, ← hfront, List.splitOn_append_cons_self, List.filterMap_append]
        simp [Component.ofPiece?]
      · rfl
    rw [components_of_isAbsolute habs, components_of_isAbsolute hp, hpieces, ← filterMap_pieces hq,
      pieces, String.toList_ofList, List.splitOn_append_cons_self, List.filterMap_append]
    rfl
  rw [join, if_neg (by simp [hq])]
  split
  next hend =>
    have hne : text.toList ≠ [] := by
      rintro heq
      simp [isAbsolute, heq] at hp
    obtain ⟨front, hfront⟩ := List.getLast?_eq_some_iff.1 (hend.resolve_left hne)
    have htext : text ++ q.text = String.ofList (front ++ '/' :: q.text.toList) := by
      rw [← String.toList_inj]
      simp [show text.toList = front ++ ['/'] from hfront]
    rw [htext]
    exact hjoined front (.inl hfront.symm)
  next =>
    have htext : text ++ "/" ++ q.text = String.ofList (text.toList ++ '/' :: q.text.toList) := by
      rw [← String.toList_inj]
      simp
    rw [htext]
    exact hjoined text.toList (.inr rfl)

end Path

/-! ## Following a path -/

namespace FileTree

variable {t u : FileTree} {p : Path} {l m : Location}

/-- A piece is followed from a directory, unless it is too long for a name. -/
theorem follow_eq_ok_iff {piece : List Char} :
    t.follow l piece = .ok m ↔
      t.at? l = some .directory ∧ isLongName piece = false ∧ m = Location.next l piece := by
  rw [follow, Location.next_eq]
  cases t.at? l with
  | none => simp
  | some e =>
    cases e with
    | file => simp
    | directory =>
      by_cases hsame : piece = [] ∨ piece = ['.']
      · have hshort : isLongName piece = false := by rcases hsame with rfl | rfl <;> decide
        rw [if_pos hsame, hshort]
        simp [hsame, eq_comm]
      · by_cases hup : piece = ['.', '.']
        · have hshort : isLongName piece = false := by rw [hup]; decide
          rw [if_neg hsame, if_pos hup, if_neg hsame, if_pos hup, hshort]
          simp [eq_comm]
        · rw [if_neg hsame, if_neg hup, if_neg hsame, if_neg hup]
          cases isLongName piece <;> simp [eq_comm]

theorem followAll_eq_ok_iff {pieces : List (List Char)} :
    t.followAll l pieces = .ok m ↔
      (∀ k ∈ Location.passed l pieces, t.at? k = some .directory) ∧
        (∀ piece ∈ pieces, isLongName piece = false) ∧ m = pieces.foldl Location.next l := by
  induction pieces generalizing l with
  | nil =>
    rw [followAll, Except.ok.injEq, eq_comm]
    simp [Location.passed]
  | cons piece rest ih =>
    simp only [followAll, bind_eq_ok_iff, follow_eq_ok_iff, ih, Location.passed, List.foldl_cons,
      List.forall_mem_cons]
    constructor
    · rintro ⟨_, ⟨hl, hpiece, rfl⟩, hpassed, hrest, rfl⟩
      exact ⟨⟨hl, hpassed⟩, ⟨hpiece, hrest⟩, rfl⟩
    · rintro ⟨⟨hl, hpassed⟩, ⟨hpiece, hrest⟩, rfl⟩
      exact ⟨_, ⟨hl, hpiece, rfl⟩, hpassed, hrest, rfl⟩

/-- A path that passes what is gone, and directories otherwise, leads to nothing. -/
theorem followAll_eq_notFound {pieces : List (List Char)}
    (hshort : ∀ piece ∈ pieces, isLongName piece = false)
    (hpassed : ∀ k ∈ Location.passed l pieces, t.at? k = some .directory ∨ t.at? k = none)
    (hgone : ∃ k ∈ Location.passed l pieces, t.at? k = none) :
    t.followAll l pieces = .error .notFound := by
  induction pieces generalizing l with
  | nil =>
    obtain ⟨k, hk, -⟩ := hgone
    cases hk
  | cons piece rest ih =>
    obtain ⟨hpiece, hrest⟩ := List.forall_mem_cons.1 hshort
    obtain ⟨hl, hafter⟩ := List.forall_mem_cons.1 hpassed
    rw [followAll, bind_eq_error_iff]
    rcases hl with hl | hl
    · refine .inr ⟨_, follow_eq_ok_iff.2 ⟨hl, hpiece, rfl⟩, ih hrest hafter ?_⟩
      obtain ⟨k, hk, hnone⟩ := hgone
      rcases List.mem_cons.1 hk with rfl | hk
      · rw [hl] at hnone
        cases hnone
      · exact ⟨k, hk, hnone⟩
    · refine .inl ?_
      rw [follow, hl]

/-- Whether a tree lets a path be followed: the text is one of a path, and all that the path passes
are directories. -/
def Leads (t : FileTree) (p : Path) : Prop :=
  p.IsUsable ∧ ∀ k ∈ p.passed, t.at? k = some .directory

/-- Another tree lets a path be followed that has the directories which the path passes. -/
theorem Leads.mono (h : t.Leads p)
    (hkept : ∀ k ∈ p.passed, t.at? k = some .directory → u.at? k = some .directory) : u.Leads p :=
  ⟨h.1, fun k hk => hkept k hk (h.2 k hk)⟩

theorem locate_eq_ok_iff : t.locate p = .ok l ↔ t.Leads p ∧ l = p.location := by
  unfold locate Leads Path.IsUsable
  cases p.refusal? with
  | some e => simp
  | none =>
    by_cases hempty : p.text = ""
    · simp [hempty]
    · simp only [if_neg hempty, followAll_eq_ok_iff, Path.foldl_next_pieces, Path.passed]
      tauto

/-- A path that leads through what is gone leads to nothing. -/
theorem locate_eq_notFound (hp : p.IsUsable)
    (hpassed : ∀ k ∈ p.passed, t.at? k = some .directory ∨ t.at? k = none)
    (hgone : ∃ k ∈ p.passed, t.at? k = none) : t.locate p = .error .notFound := by
  obtain ⟨hrefusal, hempty, hshort⟩ := hp
  simp only [locate, hrefusal, if_neg hempty]
  exact followAll_eq_notFound hshort hpassed hgone

theorem status_eq_ok_iff {e : Entry} :
    t.status p = .ok e ↔ t.Leads p ∧ t.at? p.location = some e := by
  unfold status
  rw [bind_eq_ok_iff]
  constructor
  · rintro ⟨l, hl, he⟩
    obtain ⟨hleads, rfl⟩ := locate_eq_ok_iff.1 hl
    refine ⟨hleads, ?_⟩
    cases hat : t.at? p.location with
    | none => simp [hat] at he
    | some d => simpa [hat, pure, Except.pure] using he
  · rintro ⟨hleads, he⟩
    refine ⟨p.location, locate_eq_ok_iff.2 ⟨hleads, rfl⟩, ?_⟩
    simp [he, pure, Except.pure]

theorem isThere_iff : t.isThere p = true ↔ t.Leads p ∧ t.at? p.location ≠ none := by
  rw [isThere, isOk_iff, Option.ne_none_iff_exists']
  simp only [status_eq_ok_iff, exists_and_left]

theorem read_eq_ok_iff {text : String} :
    t.read p = .ok text ↔ t.Leads p ∧ t.at? p.location = some (.file text) := by
  rw [← status_eq_ok_iff, read]
  split
  next h => simp [h]
  next h => simp [h]
  next h => simp [h]

theorem isThere_of_read {text : String} (h : t.read p = .ok text) : t.isThere p = true := by
  obtain ⟨hleads, hfile⟩ := read_eq_ok_iff.1 h
  exact isThere_iff.2 ⟨hleads, hfile ▸ Option.some_ne_none _⟩

theorem isFile_iff :
    t.isFile p = true ↔ t.Leads p ∧ ∃ text, t.at? p.location = some (.file text) := by
  simp only [← exists_and_left, ← status_eq_ok_iff, isFile]
  split
  next text h => simp [h]
  next h => simpa using h

theorem isDirectory_iff :
    t.isDirectory p = true ↔ t.Leads p ∧ t.at? p.location = some .directory := by
  rw [← status_eq_ok_iff, isDirectory]
  split
  next h => simp [h]
  next h => simpa using h

/-! ## What is above an entry -/

/-- All that is above an entry is a directory. -/
theorem at?_above {e : Entry} (h : t.at? m = some e) (hbelow : l <+: m) (hne : l ≠ m) :
    t.at? l = some .directory := by
  obtain ⟨names, rfl⟩ := hbelow
  induction names using List.reverseRecOn generalizing e with
  | nil => simp at hne
  | append_singleton names name ih =>
    have habove := at?_dropLast h
    rw [← List.append_assoc, List.dropLast_concat] at habove
    by_cases hnames : names = []
    · simpa [hnames] using habove
    · exact ih habove (by simpa using hnames)

/-- Nothing is below a file. -/
theorem eq_of_prefix_of_file {text : String} (h : t.at? l = some (.file text)) {e : Entry}
    (hm : t.at? m = some e) (hbelow : l <+: m) : m = l := by
  by_contra hne
  rw [at?_above hm hbelow (Ne.symm hne)] at h
  cases h

end FileTree

end NinjaGen
