import NinjaGen.Path.Order
import NinjaGen.Text.Width

/-!
# File trees

A file tree is the state of a file system: which files and directories there are, and what the
files hold. There are no links.

* `Location` is the list of names that leads to an entry from the root directory, and
  `FileTree.at?` is the entry there, if any. What is there is in a directory (`at?_dropLast`).
* `FileTree.put`, `FileTree.remove` and `FileTree.removeBelow` change the entries (`at?_put`,
  `at?_remove`, `at?_removeBelow`).
* `FileTree.descendants` lists what is below a location (`mem_descendants`).
* `FileTree.locate` follows the text of a path, so that a trailing slash asks for a directory and
  `..` leads up; `FileTree.read`, `isFile`, `isDirectory` and `isThere` answer questions about
  paths. Names and paths have a largest size (`nameLimit`, `pathLimit`).
* `FileTree.makeDirectories`, `writeFile`, `removeDirectory` and `removeFile` are the changes that
  programs make.
-/

namespace NinjaGen

/-- The names that lead to an entry from the root directory. -/
abbrev Location := List String

/-- The path that leads straight to a location. -/
def Path.ofLocation (l : Location) : Path := ⟨"/" ++ "/".intercalate l⟩

/-- What is at a location. -/
inductive Entry
  | file (text : String)
  | directory
  deriving DecidableEq, Repr

/-- Why the system refuses to do something. -/
inductive FileError
  | notFound
  | notADirectory
  | isADirectory
  | invalid
  | notEmpty
  /-- A name or a path is longer than the system takes. -/
  | tooLong
  /-- A path holds the character that ends texts within the system. -/
  | unusable
  deriving DecidableEq, Repr

/-- The wording of the system. -/
def FileError.message : FileError → String
  | .notFound => "No such file or directory (os error 2)"
  | .notADirectory => "Not a directory (os error 20)"
  | .isADirectory => "Is a directory (os error 21)"
  | .invalid => "Invalid argument (os error 22)"
  | .notEmpty => "Directory not empty (os error 39)"
  | .tooLong => "File name too long (os error 36)"
  | .unusable => "file name contained an unexpected NUL byte"

/-! ## Limits -/

/-- The size that the text of a path has to stay below, in bytes. -/
def pathLimit : Nat := 4096

/-- The largest size of a name, in bytes. -/
def nameLimit : Nat := 255

/-- What the system has against the text of a path, wherever it may lead. -/
def Path.refusal? (p : Path) : Option FileError :=
  if p.text.toList.contains '\x00' then some .unusable
  else if pathLimit ≤ p.text.utf8ByteSize then some .tooLong
  else none

/-- Whether a name is too long for an entry. -/
def isLongName (name : List Char) : Bool := nameLimit < Text.width name

/-- The files and directories of a system. The root directory is always there, and is no entry. -/
structure FileTree where
  entries : List (Location × Entry)
  /-- A location has one entry at most. -/
  nodup : (entries.map (·.1)).Nodup
  /-- An entry is in a directory. -/
  inDirectory : ∀ e ∈ entries,
    e.1 ≠ [] ∧ (e.1.dropLast = [] ∨ (e.1.dropLast, Entry.directory) ∈ entries)
  deriving DecidableEq, Repr

namespace FileTree

/-- The tree that has the root directory alone. -/
def empty : FileTree := ⟨[], by simp, by simp⟩

/-! ## Entries -/

/-- The entry at a location. -/
def at? (t : FileTree) (l : Location) : Option Entry :=
  if l = [] then some .directory else (t.entries.find? (·.1 = l)).map (·.2)

@[simp] theorem at?_nil (t : FileTree) : t.at? [] = some .directory := by simp [at?]

theorem at?_eq_some_iff {t : FileTree} {l : Location} {e : Entry} (h : l ≠ []) :
    t.at? l = some e ↔ (l, e) ∈ t.entries := by
  have key : ∀ es : List (Location × Entry), (es.map (·.1)).Nodup →
      ((es.find? (·.1 = l)).map (·.2) = some e ↔ (l, e) ∈ es) := by
    intro es
    induction es with
    | nil => simp
    | cons a es ih =>
      intro hnd
      obtain ⟨m, d⟩ := a
      obtain ⟨hm, hes⟩ := List.nodup_cons.1 hnd
      by_cases hl : m = l
      · subst hl
        have hnot : (m, e) ∉ es := fun he => hm (List.mem_map.2 ⟨(m, e), he, rfl⟩)
        simp [hnot, eq_comm]
      · simp [hl, Ne.symm hl, ← ih hes]
  simpa only [at?, h, if_false] using key t.entries t.nodup

/-- What is there is in a directory. -/
theorem at?_dropLast {t : FileTree} {l : Location} {e : Entry} (h : t.at? l = some e) :
    t.at? l.dropLast = some .directory := by
  by_cases hl : l = []
  · subst hl; simp
  · obtain ⟨-, hd⟩ := t.inDirectory _ ((at?_eq_some_iff hl).1 h)
    by_cases hn : l.dropLast = []
    · simp [hn]
    · exact (at?_eq_some_iff hn).2 (hd.resolve_left hn)

/-- Whether there may be a new entry at a location, or another file in place of a file. -/
def HasRoom (t : FileTree) (l : Location) : Prop :=
  l ≠ [] ∧ t.at? l.dropLast = some .directory ∧ t.at? l ≠ some .directory

instance (t : FileTree) (l : Location) : Decidable (t.HasRoom l) :=
  inferInstanceAs (Decidable (_ ∧ _ ∧ _))

/-- The tree with an entry at a location, in place of a file that was there; without room for it
the tree stays as it is. -/
def put (t : FileTree) (l : Location) (e : Entry) : FileTree :=
  if h : t.HasRoom l then
    { entries := (l, e) :: t.entries.filter (·.1 ≠ l)
      nodup := by
        rw [List.map_cons, List.nodup_cons]
        refine ⟨?_, t.nodup.sublist (List.filter_sublist.map _)⟩
        simp
      inDirectory := by
        obtain ⟨hl, hd, hno⟩ := h
        intro a ha
        have hmem : ∀ m, m ≠ l → m = [] ∨ (m, Entry.directory) ∈ t.entries →
            m = [] ∨ (m, Entry.directory) ∈ (l, e) :: t.entries.filter (·.1 ≠ l) :=
          fun m hm hor => hor.imp id fun hin =>
            List.mem_cons_of_mem _ (List.mem_filter.2 ⟨hin, by simpa using hm⟩)
        rcases List.mem_cons.1 ha with rfl | ha
        · refine ⟨hl, hmem _ (fun heq => ?_) ?_⟩
          · have hpos := List.length_pos_iff.2 hl
            have hlen : l.dropLast.length = l.length := congrArg List.length heq
            rw [List.length_dropLast] at hlen
            omega
          · by_cases hn : l.dropLast = []
            · exact .inl hn
            · exact .inr ((at?_eq_some_iff hn).1 hd)
        · obtain ⟨hne, hor⟩ := t.inDirectory a (List.mem_filter.1 ha).1
          refine ⟨hne, hmem _ (fun heq => ?_) hor⟩
          rcases hor with hn | hin
          · exact hl (heq ▸ hn)
          · exact hno ((at?_eq_some_iff hl).2 (heq ▸ hin)) }
  else t

/-- The tree with those locations alone that are kept. What is kept is in directories that are. -/
def keep (t : FileTree) (kept : Location → Bool)
    (h : ∀ l, kept l = true → l.dropLast = [] ∨ kept l.dropLast = true) : FileTree where
  entries := t.entries.filter (kept ·.1)
  nodup := t.nodup.sublist (List.filter_sublist.map _)
  inDirectory := by
    intro a ha
    obtain ⟨ha, hk⟩ := List.mem_filter.1 ha
    obtain ⟨hne, hor⟩ := t.inDirectory a ha
    refine ⟨hne, ?_⟩
    rcases hor with hn | hin
    · exact .inl hn
    · exact (h a.1 hk).imp id fun hkept => List.mem_filter.2 ⟨hin, hkept⟩

theorem isPrefixOf_of_dropLast {l m : Location} (h : l.isPrefixOf m.dropLast = true) :
    l.isPrefixOf m = true :=
  List.isPrefixOf_iff_prefix.2 ((List.isPrefixOf_iff_prefix.1 h).trans (List.dropLast_prefix m))

/-- The tree without a location and all that is below it. -/
def remove (t : FileTree) (l : Location) : FileTree :=
  t.keep (fun m => !l.isPrefixOf m) fun m hm => by
    refine .inr ?_
    rw [Bool.not_eq_true'] at hm ⊢
    exact Bool.eq_false_iff.2 fun h => Bool.eq_false_iff.1 hm (isPrefixOf_of_dropLast h)

/-- The tree without what is below a location. -/
def removeBelow (t : FileTree) (l : Location) : FileTree :=
  t.keep (fun m => m = l || !l.isPrefixOf m) fun m hm => by
    by_cases hp : l.isPrefixOf m.dropLast = true
    · have hl : m = l := by simpa [isPrefixOf_of_dropLast hp] using hm
      subst hl
      have hlen := (List.isPrefixOf_iff_prefix.1 hp).length_le
      rw [List.length_dropLast] at hlen
      refine .inl (List.eq_nil_of_length_eq_zero ?_)
      rw [List.length_dropLast]
      omega
    · exact .inr (by simp [hp])

theorem at?_put {t : FileTree} {l : Location} (h : t.HasRoom l) (m : Location) (e : Entry) :
    (t.put l e).at? m = if m = l then some e else t.at? m := by
  by_cases hm : m = []
  · subst hm
    simp [Ne.symm h.1]
  · by_cases hml : m = l
    · subst hml
      simp [at?, put, hm, h]
    · have hfind : (t.entries.filter (·.1 ≠ l)).find? (·.1 = m) = t.entries.find? (·.1 = m) := by
        rw [List.find?_filter]
        congr 1
        funext a
        by_cases ha : a.1 = m
        · subst ha; simp [hml]
        · simp [ha]
      simp only [at?, hm, if_false, put, h, dif_pos, hml, List.find?_cons, Ne.symm hml,
        decide_false]
      rw [hfind]

theorem at?_keep (t : FileTree) (kept : Location → Bool)
    (h : ∀ l, kept l = true → l.dropLast = [] ∨ kept l.dropLast = true) {m : Location}
    (hm : m ≠ []) : (t.keep kept h).at? m = if kept m then t.at? m else none := by
  simp only [at?, hm, if_false, keep, List.find?_filter]
  by_cases hk : kept m = true
  · rw [if_pos hk]
    congr 2
    funext a
    by_cases ha : a.1 = m
    · simp [ha, hk]
    · simp [ha]
  · have hnone : t.entries.find? (fun a => kept a.1 && decide (a.1 = m)) = none := by
      rw [List.find?_eq_none]
      intro a _ hc
      simp only [Bool.and_eq_true, decide_eq_true_eq] at hc
      exact hk (hc.2 ▸ hc.1)
    simp [hk, hnone]

theorem at?_remove (t : FileTree) {l : Location} (m : Location) (h : l ≠ []) :
    (t.remove l).at? m = if l <+: m then none else t.at? m := by
  by_cases hm : m = []
  · subst hm; simp [h]
  · rw [remove, at?_keep _ _ _ hm]
    by_cases hp : l <+: m
    · simp [hp, List.isPrefixOf_iff_prefix.2 hp]
    · have hf : l.isPrefixOf m = false :=
        Bool.eq_false_iff.2 fun h => hp (List.isPrefixOf_iff_prefix.1 h)
      simp [hp, hf]

theorem at?_removeBelow (t : FileTree) (l m : Location) :
    (t.removeBelow l).at? m = if l <+: m ∧ m ≠ l then none else t.at? m := by
  by_cases hm : m = []
  · subst hm
    have hl : ¬(l <+: [] ∧ [] ≠ l) := fun ⟨hp, hne⟩ => hne (List.prefix_nil.1 hp).symm
    rw [if_neg hl, at?_nil, at?_nil]
  · rw [removeBelow, at?_keep _ _ _ hm]
    by_cases hml : m = l
    · simp [hml]
    · by_cases hp : l <+: m
      · simp [hp, hml, List.isPrefixOf_iff_prefix.2 hp]
      · have hf : l.isPrefixOf m = false :=
          Bool.eq_false_iff.2 fun h => hp (List.isPrefixOf_iff_prefix.1 h)
        simp [hp, hml, hf]

/-- The part of a location below another. -/
def below? : (above l : Location) → Option Location
  | [], l => some l
  | a :: above, b :: l => if a = b then below? above l else none
  | _ :: _, [] => none

theorem below?_eq_some_iff {above l rest : Location} :
    below? above l = some rest ↔ l = above ++ rest := by
  induction above generalizing l with
  | nil => simp [below?]
  | cons a above ih =>
    cases l with
    | nil => simp [below?]
    | cons b l =>
      by_cases h : a = b
      · subst h; simp [below?, ih]
      · simp [below?, h, Ne.symm h]

/-- What is below a location, each entry by the names that lead to it from there. -/
def descendants (t : FileTree) (l : Location) : List (Location × Entry) :=
  t.entries.filterMap fun e =>
    match below? l e.1 with
    | some (name :: rest) => some (name :: rest, e.2)
    | _ => none

theorem mem_descendants {t : FileTree} {l names : Location} {e : Entry} :
    (names, e) ∈ t.descendants l ↔ names ≠ [] ∧ t.at? (l ++ names) = some e := by
  simp only [descendants, List.mem_filterMap]
  constructor
  · rintro ⟨⟨m, d⟩, ha, hm⟩
    split at hm
    next name rest hb =>
      simp only [Option.some.injEq, Prod.mk.injEq] at hm
      obtain ⟨rfl, rfl⟩ := hm
      obtain rfl := below?_eq_some_iff.1 hb
      exact ⟨by simp, (at?_eq_some_iff (by simp)).2 ha⟩
    next => simp at hm
  · rintro ⟨hn, ha⟩
    obtain ⟨name, rest, rfl⟩ := List.exists_cons_of_ne_nil hn
    exact ⟨(l ++ name :: rest, e), (at?_eq_some_iff (by simp)).1 ha, by
      simp [below?_eq_some_iff.2 rfl]⟩

/-- The names of what is directly in a directory. -/
def childNames (t : FileTree) (l : Location) : List String :=
  (t.descendants l).filterMap fun e =>
    match e.1 with
    | [name] => some name
    | _ => none

/-! ## Following paths -/

/-- The location that a piece of a path leads to from `l`, which has to be a directory. -/
def follow (t : FileTree) (l : Location) (piece : List Char) : Except FileError Location :=
  match t.at? l with
  | none => .error .notFound
  | some (.file _) => .error .notADirectory
  | some .directory =>
    if piece = [] ∨ piece = ['.'] then .ok l
    else if piece = ['.', '.'] then .ok l.dropLast
    else if isLongName piece then .error .tooLong
    else .ok (l ++ [String.ofList piece])

/-- The location that pieces of a path lead to from `l`. -/
def followAll (t : FileTree) (l : Location) : List (List Char) → Except FileError Location
  | [] => .ok l
  | piece :: rest => do
    let l ← t.follow l piece
    t.followAll l rest

/-- The location that a path leads to from the root directory. There may be nothing at it, but the
directory around it is there. -/
def locate (t : FileTree) (p : Path) : Except FileError Location :=
  match p.refusal? with
  | some e => .error e
  | none => if p.text = "" then .error .notFound else t.followAll [] p.pieces

theorem at?_dropLast_of_follow {t : FileTree} {l m : Location} {piece : List Char}
    (h : t.follow l piece = .ok m) : t.at? m.dropLast = some .directory := by
  unfold follow at h
  split at h
  next => simp at h
  next => simp at h
  next hl =>
    split at h
    · simp only [Except.ok.injEq] at h
      subst h
      exact at?_dropLast hl
    · split at h
      · simp only [Except.ok.injEq] at h
        subst h
        exact at?_dropLast (at?_dropLast hl)
      · split at h
        · simp at h
        · simp only [Except.ok.injEq] at h
          subst h
          rw [List.dropLast_concat]
          exact hl

theorem at?_dropLast_of_followAll {t : FileTree} (pieces : List (List Char)) :
    ∀ {l m : Location}, t.at? l.dropLast = some .directory → t.followAll l pieces = .ok m →
      t.at? m.dropLast = some .directory := by
  induction pieces with
  | nil =>
    intro l m hl h
    simp only [followAll, Except.ok.injEq] at h
    exact h ▸ hl
  | cons piece rest ih =>
    intro l m hl h
    cases hf : t.follow l piece with
    | error e => simp [followAll, hf, bind, Except.bind] at h
    | ok k =>
      simp only [followAll, hf, bind, Except.bind] at h
      exact ih (at?_dropLast_of_follow hf) h

/-- The directory around the location that a path leads to is there. -/
theorem at?_dropLast_of_locate {t : FileTree} {p : Path} {l : Location} (h : t.locate p = .ok l) :
    t.at? l.dropLast = some .directory := by
  unfold locate at h
  split at h
  · simp at h
  · split at h
    · simp at h
    · exact at?_dropLast_of_followAll p.pieces (by simp) h

/-- The entry that a path leads to. -/
def status (t : FileTree) (p : Path) : Except FileError Entry := do
  let l ← t.locate p
  match t.at? l with
  | some e => pure e
  | none => .error .notFound

/-- Whether a path leads to anything. -/
def isThere (t : FileTree) (p : Path) : Bool := (t.status p).isOk

/-- Whether a path leads to a file. -/
def isFile (t : FileTree) (p : Path) : Bool :=
  match t.status p with
  | .ok (.file _) => true
  | _ => false

/-- Whether a path leads to a directory. -/
def isDirectory (t : FileTree) (p : Path) : Bool :=
  match t.status p with
  | .ok .directory => true
  | _ => false

/-- The text of the file that a path leads to. -/
def read (t : FileTree) (p : Path) : Except FileError String :=
  match t.status p with
  | .ok (.file text) => .ok text
  | .ok .directory => .error .isADirectory
  | .error e => .error e

/-! ## Changes -/

/-- The tree with the directories that pieces of a path lead through from `l`, which is one. They
are made one after another, and those made before an error stay. -/
def makeFrom (t : FileTree) (l : Location) : List (List Char) → FileTree × Except FileError Unit
  | [] => (t, .ok ())
  | piece :: rest =>
    if piece = [] ∨ piece = ['.'] then t.makeFrom l rest
    else if piece = ['.', '.'] then t.makeFrom l.dropLast rest
    else if isLongName piece then (t, .error .tooLong)
    else
      let l := l ++ [String.ofList piece]
      match t.at? l with
      | some .directory => t.makeFrom l rest
      | some (.file _) => (t, .error .notADirectory)
      | none => (t.put l .directory).makeFrom l rest

/-- The tree with the directory of a path and all directories around it. -/
def makeDirectories (t : FileTree) (p : Path) : FileTree × Except FileError Unit :=
  match p.refusal? with
  | some e => (t, .error e)
  | none => t.makeFrom [] p.pieces

/-- The name of a file that has not taken its place yet. -/
def draftName : String := ".tmp000000"

/-- The tree with a file of that text, for which directories are made as needed. The file is drafted
beside its place, which it takes in one step; where a directory is, it cannot. -/
def writeFile (t : FileTree) (p : Path) (text : String) : FileTree × Except FileError Unit :=
  match t.makeDirectories p.directory with
  | (t, .error e) => (t, .error e)
  | (t, .ok ()) =>
    match t.locate (p.directory.join ⟨draftName⟩), t.locate p with
    | .error e, _ => (t, .error e)
    | .ok _, .error .unusable => (t, .error .invalid)
    | .ok _, .error e => (t, .error e)
    | .ok _, .ok l =>
      if t.at? l = some .directory then (t, .error .isADirectory)
      else (t.put l (.file text), .ok ())

/-- The tree without the directory that a path leads to. The directory is emptied first, and then
the path is followed once more to remove it. Where the path led through what has been removed, the
directory stays as it is; `.` and `..` are no names under which a directory could be removed. -/
def removeDirectory (t : FileTree) (p : Path) : FileTree × Except FileError Unit :=
  match t.locate p with
  | .error e => (t, .error e)
  | .ok l =>
    match t.at? l with
    | none => (t, .error .notFound)
    | some (.file _) => (t, .error .notADirectory)
    | some .directory =>
      let emptied := t.removeBelow l
      match emptied.locate p with
      | .error .notFound => (emptied, .ok ())
      | .error e => (emptied, .error e)
      | .ok l =>
        match p.lastPiece? with
        | none | some ['.'] => (emptied, .error .invalid)
        | some ['.', '.'] => (emptied, .error .notEmpty)
        | some _ => (emptied.remove l, .ok ())

/-- The tree without the file that a path leads to. -/
def removeFile (t : FileTree) (p : Path) : FileTree × Except FileError Unit :=
  match t.locate p with
  | .error e => (t, .error e)
  | .ok l =>
    match t.at? l with
    | some (.file _) => (t.remove l, .ok ())
    | some .directory => (t, .error .isADirectory)
    | none => (t, .error .notFound)

end FileTree

end NinjaGen
