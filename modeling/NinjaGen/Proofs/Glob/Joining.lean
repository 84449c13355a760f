import NinjaGen.Proofs.Glob.Matching
import NinjaGen.Proofs.Path.Spelling

/-!
# Patterns below a directory

A pattern is matched below a directory as the path that continues the directory. Where the text of
the directory is no pattern itself, its names come first and stand for themselves; what follows is
what the pattern says, whatever the directory.

* `Glob.segments` reads a relative pattern, and `Glob.Stands` says for which names it stands.
* `Glob.origin` is the directory as a walk comes to it from the root.
* `Glob.matchedFiles_join` reads a pattern below a directory, and `Glob.mem_matchedFiles_join_iff`
  says which files match it there.
-/

namespace NinjaGen.Glob

variable {t : FileTree} {base p q pattern : Path} {names : List String} {cs : List Char}
  {found : List Path}

/-! ## Texts without marks -/

/-- A text in which no character is a mark is read as it stands. -/
theorem parse_of_plain (h : ∀ c ∈ cs, ¬ (c = '*' ∨ c = '?' ∨ c = '[')) :
    Pattern.parse cs = .ok (cs.map .exactly) := by
  fun_induction Pattern.parse cs with
  | case1 => rfl
  | case2 | case3 | case4 | case5 | case6 | case7 => simp at h
  | case8 c r _ _ _ _ _ ih =>
    rw [ih (List.forall_mem_cons.1 h).2]
    rfl

theorem text?_map_exactly (cs : List Char) : Pattern.text? (cs.map .exactly) = some cs := by
  induction cs with
  | nil => rfl
  | cons c r ih =>
    rw [List.map_cons, Pattern.text?, ih]
    rfl

theorem segment_of_plain (h : ∀ c ∈ cs, ¬ (c = '*' ∨ c = '?' ∨ c = '[')) :
    Segment.parse cs = .ok (.name cs) := by
  have hstars : cs ≠ ['*', '*'] := by
    rintro rfl
    simp at h
  rw [Segment.parse, if_neg hstars, parse_of_plain h]
  simp only [bind, Except.bind, text?_map_exactly]
  rfl

/-! ## Pieces -/

/-- Pieces without an empty one at the end. -/
def trimmed (pieces : List (List Char)) : List (List Char) :=
  if pieces.getLast? = some [] then pieces.dropLast else pieces

theorem trimmed_append {pieces rest : List (List Char)} (h : rest ≠ []) :
    trimmed (pieces ++ rest) = pieces ++ trimmed rest := by
  rw [trimmed, trimmed, List.getLast?_append_of_ne_nil _ h, List.dropLast_append_of_ne_nil h]
  split <;> rfl

theorem piecesBelowRoot_eq {pieces : List (List Char)} (h : p.pieces = [] :: pieces) :
    piecesBelowRoot p = trimmed pieces := by
  unfold piecesBelowRoot trimmed
  rw [h]
  split
  next heq =>
    obtain ⟨-, rfl⟩ := List.cons.inj heq
    rfl
  next pieces' _ heq =>
    obtain ⟨-, rfl⟩ := List.cons.inj heq
    rfl
  next hother => exact absurd rfl (hother pieces)

/-- The text before the slash at the end of an absolute path is empty or begins with a slash. -/
theorem exists_splitOn_stem (hp : p.isAbsolute = true) :
    ∃ pieces, p.stem.splitOn '/' = [] :: pieces := by
  rw [Path.isAbsolute, decide_eq_true_eq] at hp
  cases hstem : p.stem with
  | nil => exact ⟨[], List.splitOn_nil '/'⟩
  | cons c rest =>
    have hc : c = '/' := by
      rcases p.toList_eq_stem with h | h
      · simpa [h, hstem] using hp
      · simpa [h, hstem] using hp
    exact ⟨rest.splitOn '/', by rw [hc]; exact List.splitOn_append_cons_self [] rest⟩

/-- An absolute path is the root and the pieces below it. -/
theorem splitOn_stem (hp : p.isAbsolute = true) : p.stem.splitOn '/' = [] :: piecesBelowRoot p := by
  obtain ⟨pieces, hpieces⟩ := exists_splitOn_stem hp
  rw [hpieces]
  by_cases hlast : p.text.toList.getLast? = some '/'
  · obtain ⟨front, hfront⟩ := List.getLast?_eq_some_iff.1 hlast
    have hstem : p.stem = front := by rw [Path.stem, if_pos hlast, hfront, List.dropLast_concat]
    have hall : p.pieces = [] :: (pieces ++ [[]]) := by
      rw [Path.pieces, hfront, List.splitOn_append_cons_self, ← hstem, hpieces, List.splitOn_nil]
      rfl
    rw [piecesBelowRoot_eq hall, trimmed_append (List.cons_ne_nil _ _)]
    exact congrArg _ (List.append_nil pieces).symm
  · have hstem : p.stem = p.text.toList := by rw [Path.stem, if_neg hlast]
    have hall : p.pieces = [] :: pieces := by rw [Path.pieces, ← hstem, hpieces]
    rw [piecesBelowRoot_eq hall, trimmed, if_neg]
    intro hempty
    obtain ⟨front, rfl⟩ := List.getLast?_eq_some_iff.1 hempty
    have hjoined : ['/'].intercalate (p.stem.splitOn '/') = p.stem := List.intercalate_splitOn '/'
    rw [hpieces, Path.intercalate_cons, hstem] at hjoined
    simp [← hjoined] at hlast

/-- The text of an absolute path has a slash before each piece. -/
theorem stem_eq (hp : p.isAbsolute = true) : p.stem = (piecesBelowRoot p).flatMap ('/' :: ·) := by
  have hjoined : ['/'].intercalate (p.stem.splitOn '/') = p.stem := List.intercalate_splitOn '/'
  rw [splitOn_stem hp, Path.intercalate_cons] at hjoined
  exact hjoined.symm

theorem piecesBelowRoot_join (hp : p.isAbsolute = true) (hq : q.isAbsolute = false) :
    piecesBelowRoot (p.join q) = piecesBelowRoot p ++ trimmed q.pieces := by
  have hpieces : (p.join q).pieces = [] :: (piecesBelowRoot p ++ q.pieces) := by
    rw [Path.pieces_join hp hq, splitOn_stem hp, List.cons_append]
  have hne : q.pieces ≠ [] := List.splitOn_ne_nil _ _
  rw [piecesBelowRoot_eq hpieces, trimmed_append hne]

theorem wantsDirectory_join (hp : p.isAbsolute = true) (hq : q.isAbsolute = false) :
    wantsDirectory (p.join q) = decide (('/' :: q.text.toList).getLast? = some '/') := by
  rw [wantsDirectory, Path.toList_join hp hq, List.getLast?_append_of_ne_nil _ (by simp)]

/-! ## Reading a pattern below a directory -/

/-- The segments of a relative pattern. -/
def segments (pattern : Path) : Except PatternError (List Segment) :=
  (trimmed pattern.pieces).mapM Segment.parse

/-- The directory as a walk from the root directory comes to it. -/
def origin (base : Path) : Path := extend ⟨"/"⟩ ((piecesBelowRoot base).map String.ofList)

theorem matchedFiles_join (hbase : base.isAbsolute = true) (hplain : isPattern base.text = false)
    (hpattern : pattern.isAbsolute = false) :
    matchedFiles t (base.join pattern) = (segments pattern).map fun segs =>
      if ('/' :: pattern.text.toList).getLast? = some '/' then []
      else (walk t ⟨"/"⟩ ((piecesBelowRoot base).map .name ++ segs)).filter t.isFile := by
  have hnames : (piecesBelowRoot base).mapM Segment.parse =
      .ok ((piecesBelowRoot base).map .name) := by
    refine mapM_eq_ok_iff.2 ?_
    rw [List.map_map]
    refine List.map_congr_left fun piece hpiece => segment_of_plain fun c hc => ?_
    have hmem : c ∈ base.text.toList := by
      refine base.stem_sublist.subset ?_
      rw [stem_eq hbase]
      exact List.mem_flatMap.2 ⟨piece, hpiece, List.mem_cons_of_mem _ hc⟩
    rw [isPattern, List.any_eq_false] at hplain
    simpa [or_assoc] using hplain c hmem
  unfold matchedFiles segments
  rw [piecesBelowRoot_join hbase hpattern, List.mapM_append, hnames,
    wantsDirectory_join hbase hpattern]
  cases (trimmed pattern.pieces).mapM Segment.parse with
  | error e => rfl
  | ok segs =>
    simp only [bind, Except.bind, pure, Except.pure, Except.map, decide_eq_true_eq]
    split <;> rfl

theorem trimmed_sublist (pieces : List (List Char)) : (trimmed pieces).Sublist pieces := by
  unfold trimmed
  split
  · exact List.dropLast_sublist pieces
  · exact List.Sublist.refl _

theorem plain_of_segments {segs : List Segment} (h : segments pattern = .ok segs) : Plain segs :=
  plain_of_parse (fun _ hpiece =>
    Path.slash_not_mem_of_mem_splitOn ((trimmed_sublist pattern.pieces).subset hpiece)) h

/-- Whether a relative pattern stands for names, one after another. A pattern with a slash at its
end stands for nothing that is a file. -/
def Stands (pattern : Path) (names : List String) : Prop :=
  ('/' :: pattern.text.toList).getLast? ≠ some '/' ∧
    ∃ segs, segments pattern = .ok segs ∧ Follows segs names

theorem Stands.slash_not_mem (h : Stands pattern names) : ∀ n ∈ names, '/' ∉ n.toList := by
  obtain ⟨-, segs, hsegs, hnames⟩ := h
  exact hnames.slash_not_mem (plain_of_segments hsegs)

/-- **A file matches a relative pattern below a directory** when names for which the pattern stands
lead to it from there. -/
theorem mem_matchedFiles_join_iff (ht : t.IsProper) (hbase : base.isAbsolute = true)
    (hplain : isPattern base.text = false) (hpattern : pattern.isAbsolute = false)
    (h : matchedFiles t (base.join pattern) = .ok found) :
    q ∈ found ↔
      t.isFile q = true ∧ ∃ names, Stands pattern names ∧ q = extend (origin base) names := by
  rw [matchedFiles_join hbase hplain hpattern, map_eq_ok_iff] at h
  obtain ⟨segs, hsegs, rfl⟩ := h
  have hall : Plain ((piecesBelowRoot base).map .name ++ segs) := by
    refine List.forall_mem_append.2 ⟨fun s hs => ?_, plain_of_segments hsegs⟩
    obtain ⟨piece, hpiece, rfl⟩ := List.mem_map.1 hs
    rw [Segment.Takes, String.toList_ofList]
    exact slash_not_mem_of_mem_piecesBelowRoot hpiece
  unfold Stands
  simp only [hsegs, Except.ok.injEq]
  split
  next hends => simp [hends]
  next hends =>
    rw [List.mem_filter, and_comm]
    refine and_congr_right fun hq => ?_
    rw [mem_walk_iff ht hall rfl hq]
    constructor
    · rintro ⟨_, hnames, rfl⟩
      obtain ⟨rest, hrest, rfl⟩ := follows_names_append_iff.1 hnames
      exact ⟨rest, ⟨hends, segs, rfl, hrest⟩, extend_append _ _ _⟩
    · rintro ⟨rest, ⟨-, _, rfl, hrest⟩, rfl⟩
      exact ⟨_, follows_names_append_iff.2 ⟨rest, hrest, rfl⟩, (extend_append _ _ _).symm⟩

/-! ## Where a walk below a directory starts -/

/-- The components for which names stand. -/
def steps (names : List String) : List Component :=
  names.filterMap fun n => Component.ofPiece? n.toList

theorem components_extend_of_not_mem (hp : p.isAbsolute = true)
    (hnames : ∀ n ∈ names, '/' ∉ n.toList) :
    (extend p names).components = p.components ++ steps names := by
  induction names generalizing p with
  | nil => exact (List.append_nil _).symm
  | cons n names ih =>
    obtain ⟨hn, hnames⟩ := List.forall_mem_cons.1 hnames
    have hrest : (extend (p.join ⟨n⟩) names).components = _ :=
      ih (Path.isAbsolute_join hp hn) hnames
    rw [Path.components_join_of_not_mem hp hn, List.append_assoc] at hrest
    rw [extend, List.foldl_cons]
    refine hrest.trans (congrArg _ ?_)
    rw [steps, steps, List.filterMap_cons]
    cases Component.ofPiece? n.toList <;> rfl

/-- Names add the same to the text of every absolute path: themselves and a slash each, or less. -/
theorem exists_toList_extend (hnames : ∀ n ∈ names, '/' ∉ n.toList) (hne : names ≠ []) :
    ∃ added, added.Sublist (names.flatMap ('/' :: ·.toList)) ∧
      ∀ p : Path, p.isAbsolute = true → (extend p names).text.toList = p.stem ++ added := by
  induction names with
  | nil => exact absurd rfl hne
  | cons n names ih =>
    obtain ⟨hn, hnames⟩ := List.forall_mem_cons.1 hnames
    rw [List.flatMap_cons]
    by_cases hlast : names = []
    · refine ⟨'/' :: n.toList, List.sublist_append_left _ _, fun p hp => ?_⟩
      rw [hlast, ← Path.toList_join  hp (Path.isAbsolute_of_not_mem hn)]
      rfl
    · obtain ⟨added, hadded, htext⟩ := ih hnames hlast
      refine ⟨(if n.toList = [] then [] else '/' :: n.toList) ++ added,
        List.Sublist.append ?_ hadded, fun p hp => ?_⟩
      · split
        · exact List.nil_sublist _
        · exact List.Sublist.refl _
      · rw [extend, List.foldl_cons]
        refine (htext _ (Path.isAbsolute_join hp hn)).trans ?_
        rw [Path.stem_join hp hn, ← List.append_assoc]
        split
        · rw [List.append_nil]
        · rfl

theorem slash_not_mem_origin : ∀ n ∈ (piecesBelowRoot base).map String.ofList, '/' ∉ n.toList := by
  intro n hn
  obtain ⟨piece, hpiece, rfl⟩ := List.mem_map.1 hn
  rw [String.toList_ofList]
  exact slash_not_mem_of_mem_piecesBelowRoot hpiece

theorem isAbsolute_origin (base : Path) : (origin base).isAbsolute = true :=
  isAbsolute_extend rfl slash_not_mem_origin

/-- A walk comes to the directory itself. -/
theorem same_origin (hbase : base.isAbsolute = true) : base.same (origin base) = true := by
  have hroot : (Path.mk "/").components = [.root] := by decide
  have hpieces : base.pieces.filterMap Component.ofPiece? =
      (piecesBelowRoot base).filterMap Component.ofPiece? := by
    have hempty : Component.ofPiece? [] = none := by decide
    rcases base.pieces_eq_stem with h | h
    · rw [h, splitOn_stem hbase, List.filterMap_cons_none hempty]
    · rw [h, splitOn_stem hbase, List.filterMap_append, List.filterMap_cons_none hempty,
        List.filterMap_cons_none hempty, List.filterMap_nil, List.append_nil]
  rw [Path.same_iff, Path.components_of_isAbsolute hbase, hpieces, origin,
    components_extend_of_not_mem rfl slash_not_mem_origin, hroot, steps, List.filterMap_map]
  simp

theorem refusal?_origin (hbase : base.isAbsolute = true) (h : base.refusal? = none) :
    (origin base).refusal? = none := by
  by_cases hpieces : piecesBelowRoot base = []
  · rw [origin, hpieces]
    decide
  · obtain ⟨added, hadded, htext⟩ :=
      exists_toList_extend slash_not_mem_origin (mt List.map_eq_nil_iff.1 hpieces)
    refine Path.refusal?_of_sublist ?_ h
    have hroot : (Path.mk "/").stem = [] := by decide
    rw [origin, htext ⟨"/"⟩ rfl, hroot, List.nil_append]
    rw [List.flatMap_map] at hadded
    simp only [String.toList_ofList] at hadded
    rw [← stem_eq hbase] at hadded
    exact hadded.trans base.stem_sublist

/-- A path that is continued by short names can be used, unless the whole is too long. -/
theorem isUsable_extend (hp : p.isAbsolute = true) (husable : p.IsUsable)
    (hnames : ∀ n ∈ names, '/' ∉ n.toList ∧ isLongName n.toList = false)
    (hrefusal : (extend p names).refusal? = none) : (extend p names).IsUsable := by
  induction names using List.reverseRecOn with
  | nil => exact husable
  | append_singleton names n ih =>
    obtain ⟨hfront, hlast⟩ := List.forall_mem_append.1 hnames
    obtain ⟨hn, hshort⟩ := List.forall_mem_singleton.1 hlast
    have habs : (extend p names).isAbsolute = true :=
      isAbsolute_extend hp fun m hm => (hfront m hm).1
    rw [extend_append] at hrefusal ⊢
    refine (Path.isUsable_join_iff habs hn).2 ⟨ih hfront ?_, hshort, hrefusal⟩
    exact Path.refusal?_of_join habs (Path.isAbsolute_of_not_mem hn) hrefusal

theorem isDirectory_origin (hbase : base.isAbsolute = true) (h : t.isDirectory base = true) :
    t.isDirectory (origin base) = true := by
  obtain ⟨⟨⟨hrefusal, -, hshort⟩, -⟩, -⟩ := FileTree.isDirectory_iff.1 h
  have hroot : (Path.mk "/").IsUsable := by
    unfold Path.IsUsable
    decide
  refine FileTree.isDirectory_of_same hbase (isAbsolute_origin base) (same_origin hbase) ?_ h
  refine isUsable_extend rfl hroot (fun n hn => ⟨slash_not_mem_origin n hn, ?_⟩)
    (refusal?_origin hbase hrefusal)
  obtain ⟨piece, hpiece, rfl⟩ := List.mem_map.1 hn
  rw [String.toList_ofList]
  refine hshort piece ?_
  have hmem : piece ∈ base.stem.splitOn '/' := by
    rw [splitOn_stem hbase]
    exact List.mem_cons_of_mem _ hpiece
  rcases base.pieces_eq_stem with h | h
  · rwa [h]
  · rw [h]
    exact List.mem_append_left _ hmem

end NinjaGen.Glob
