import NinjaGen.Glob.Walk
import NinjaGen.Proofs.FileTree.Apart

/-!
# Patterns and a directory that goes

A pattern is matched by walking the tree. Without a directory the walk finds what it found before,
less what it reached through that directory; so the files elsewhere that match stay the same.

* `Glob.exists_extend_of_mem_walk`: what a walk finds continues the path where it starts.
* `Glob.walk_remove` is a walk when a directory has been removed, and `Glob.matchedFiles_remove`
  the matches of a pattern then.
* `Glob.Avoids` says that a pattern has no match in a directory, as one that leads elsewhere by
  names (`Glob.avoids_of_names`); then nothing changes (`Glob.entryFiles_remove`).
-/

namespace NinjaGen.Glob

/-! ## Names in patterns -/

theorem exists_ranges_of_class? {cs rest : List Char} {part : Part}
    (h : class? cs = some (part, rest)) :
    ∃ ranges, part = .within ranges ∨ part = .without ranges := by
  unfold class? at h
  split at h
  all_goals
    obtain ⟨⟨body, rest'⟩, -, heq⟩ := Option.map_eq_some_iff.1 h
    obtain ⟨rfl, -⟩ := Prod.mk.inj heq
  · exact ⟨_, .inr rfl⟩
  · exact ⟨_, .inl rfl⟩

/-- A pattern in which every character stands for itself is that text. -/
theorem eq_of_text? {cs text : List Char} {p : Pattern} (h : Pattern.parse cs = .ok p)
    (htext : p.text? = some text) : text = cs := by
  fun_induction Pattern.parse cs generalizing p text with
  | case1 =>
    cases h
    simpa [Pattern.text?] using htext.symm
  | case2 r ih =>
    obtain ⟨q, -, rfl⟩ := map_eq_ok_iff.1 h
    cases htext
  | case3 => cases h
  | case4 => cases h
  | case5 r _ _ ih =>
    obtain ⟨q, -, rfl⟩ := map_eq_ok_iff.1 h
    cases htext
  | case6 r part rest hclass ih =>
    obtain ⟨q, -, rfl⟩ := map_eq_ok_iff.1 h
    obtain ⟨ranges, rfl | rfl⟩ := exists_ranges_of_class? hclass
    all_goals cases htext
  | case7 => cases h
  | case8 c r _ _ _ _ _ ih =>
    obtain ⟨q, hq, rfl⟩ := map_eq_ok_iff.1 h
    obtain ⟨rest, hrest, rfl⟩ := Option.map_eq_some_iff.1 htext
    rw [ih hq hrest]

/-- Whether a segment leads only to names with a property where all names of entries have it. -/
def Segment.Takes (P : String → Prop) : Segment → Prop
  | .name text => P (String.ofList text)
  | .pattern parts => parts.head? = some (.exactly '.') → P "." ∧ P ".."
  | .anyDirectories => True

/-- Whether the names among segments have no slash. -/
def Plain (segs : List Segment) : Prop := ∀ s ∈ segs, s.Takes fun n => '/' ∉ n.toList

/-- Whether segments lead only down. -/
def Descends (segs : List Segment) : Prop :=
  ∀ s ∈ segs, s.Takes fun n => (Component.normal n).IsStep

theorem Plain.tail {s : Segment} {rest : List Segment} (h : Plain (s :: rest)) : Plain rest :=
  (List.forall_mem_cons.1 h).2

theorem plain_of_parse {pieces : List (List Char)} {segs : List Segment}
    (hpieces : ∀ piece ∈ pieces, '/' ∉ piece) (h : pieces.mapM Segment.parse = .ok segs) :
    Plain segs := by
  intro s hs
  obtain ⟨piece, hpiece, hparse⟩ := exists_of_mem_of_map_ok (mapM_eq_ok_iff.1 h) hs
  unfold Segment.parse at hparse
  split at hparse
  · cases hparse
    trivial
  · obtain ⟨p, hp, hsegment⟩ := bind_eq_ok_iff.1 hparse
    split at hsegment
    next hname =>
      cases hsegment
      rw [Segment.Takes, String.toList_ofList, eq_of_text? hp hname]
      exact hpieces piece hpiece
    next =>
      cases hsegment
      exact fun _ => ⟨by decide, by decide⟩

/-- The pieces of a pattern are texts between its slashes. -/
theorem slash_not_mem_of_mem_piecesBelowRoot {pattern : Path} {piece : List Char}
    (h : piece ∈ piecesBelowRoot pattern) : '/' ∉ piece := by
  suffices hmem : piece ∈ pattern.pieces from Path.slash_not_mem_of_mem_splitOn hmem
  unfold piecesBelowRoot at h
  split at h
  · cases h
  next pieces _ heq =>
    rw [heq]
    split at h
    · exact List.mem_cons_of_mem _ (List.dropLast_subset _ h)
    · exact List.mem_cons_of_mem _ h
  · exact h

/-! ## Paths continued by names -/

section Extending

variable {p : Path} {l : Location} {names : List String}

theorem isAbsolute_extend (hp : p.isAbsolute = true) (hnames : ∀ n ∈ names, '/' ∉ n.toList) :
    (extend p names).isAbsolute = true := by
  induction names generalizing p with
  | nil => exact hp
  | cons n names ih =>
    obtain ⟨hn, hnames⟩ := List.forall_mem_cons.1 hnames
    exact ih (Path.isAbsolute_join hp hn) hnames

theorem components_extend (hnames : ∀ n ∈ names, (Component.normal n).IsStep) :
    (extend p names).components = p.components ++ names.map .normal := by
  induction names generalizing p with
  | nil => simp [extend]
  | cons n names ih =>
    obtain ⟨hn, hnames⟩ := List.forall_mem_cons.1 hnames
    have hrest : (extend (p.join ⟨n⟩) names).components = _ := ih hnames
    rw [Path.components_join_normal hn] at hrest
    simpa [extend] using hrest

theorem enters_extend_of_enters (hp : p.isAbsolute = true) (hnames : ∀ n ∈ names, '/' ∉ n.toList)
    (h : p.Enters l) : (extend p names).Enters l := by
  induction names generalizing p with
  | nil => exact h
  | cons n names ih =>
    obtain ⟨hn, hnames⟩ := List.forall_mem_cons.1 hnames
    exact ih (Path.isAbsolute_join hp hn) hnames ((Path.enters_join hp hn).2 (.inl h))

theorem location_join_of_isStep {n : String} (hn : (Component.normal n).IsStep) :
    (p.join ⟨n⟩).location = p.location ++ [n] := by
  rw [Path.location, Path.components_join_normal hn, List.foldl_append]
  rfl

/-- A path continued by names enters what lies on the way of the names. -/
theorem enters_extend (hp : p.isAbsolute = true) (hnames : ∀ n ∈ names, (Component.normal n).IsStep)
    (h : ¬ p.Enters l) : (extend p names).Enters l ↔ l <+: p.location ++ names := by
  induction names generalizing p with
  | nil =>
    rw [List.append_nil]
    exact iff_of_false h (mt Path.enters_of_location h)
  | cons n names ih =>
    obtain ⟨hn, hnames⟩ := List.forall_mem_cons.1 hnames
    have hslash : '/' ∉ n.toList := hn.1
    have hlocation : (p.join ⟨n⟩).location = p.location ++ [n] := location_join_of_isStep hn
    have habs := Path.isAbsolute_join hp hslash
    have happend : p.location ++ n :: names = p.location ++ [n] ++ names := by simp
    by_cases hnext : (p.join ⟨n⟩).Enters l
    · have hafter : (extend (p.join ⟨n⟩) names).Enters l :=
        enters_extend_of_enters habs (fun m hm => (hnames m hm).1) hnext
      refine iff_of_true hafter ?_
      rw [happend, ← hlocation]
      exact (((Path.enters_join hp hslash).1 hnext).resolve_left h).trans (List.prefix_append _ _)
    · rw [happend, ← hlocation]
      exact ih habs hnames hnext

end Extending

/-! ## Walks -/

section Walks

variable {t : FileTree} {p q : Path} {l : Location} {segs : List Segment}

theorem isStep_of_mem_childNames (ht : t.IsProper) {n : String} (h : n ∈ childNames t p) :
    (Component.normal n).IsStep := by
  unfold childNames at h
  split at h
  · split at h
    · obtain ⟨⟨names, e⟩, hmem, hn⟩ := List.mem_filterMap.1 h
      split at hn
      next name heq =>
        cases hn
        obtain rfl : names = [n] := heq
        exact ht.isStep hmem List.mem_cons_self
      next => cases hn
    · cases h
  · cases h

theorem isStep_of_mem_descendantNames (ht : t.IsProper) {names : List String}
    (h : names ∈ descendantNames t p) {n : String} (hn : n ∈ names) :
    (Component.normal n).IsStep := by
  unfold descendantNames at h
  split at h
  · split at h
    · obtain ⟨⟨names, e⟩, hmem, rfl⟩ := List.mem_map.1 h
      exact ht.isStep hmem hn
    · cases h
  · cases h

/-- What holds of names of entries, and of `.` and `..` where a pattern stands for these, holds of
all names that it stands for. -/
theorem of_mem_matchedNames {P : String → Prop} (hP : ∀ n, (Component.normal n).IsStep → P n)
    (ht : t.IsProper) {pattern : Pattern} (hpattern : (Segment.pattern pattern).Takes P)
    {n : String} (h : n ∈ matchedNames t p pattern) : P n := by
  unfold matchedNames at h
  dsimp only at h
  rcases List.mem_append.1 (List.mem_filter.1 h).1 with h | h
  · exact hP n (isStep_of_mem_childNames ht h)
  · split at h
    · split at h
      next hdot =>
        simp only [List.mem_cons, List.not_mem_nil, or_false] at h
        rcases h with rfl | rfl
        · exact (hpattern hdot).1
        · exact (hpattern hdot).2
      next => cases h
    · cases h

theorem slash_not_mem_of_mem_matchedNames (ht : t.IsProper) {pattern : Pattern} {n : String}
    (h : n ∈ matchedNames t p pattern) : '/' ∉ n.toList :=
  of_mem_matchedNames (P := fun n => '/' ∉ n.toList) (fun _ hn => hn.1) ht
    (fun _ => ⟨by decide, by decide⟩) h

/-- **What a walk finds continues the path where it starts by names**, and these are as the segments
and the entries of the tree have them. -/
theorem exists_extend_of_mem_walk {P : String → Prop} (hP : ∀ n, (Component.normal n).IsStep → P n)
    (ht : t.IsProper) (hsegs : ∀ s ∈ segs, s.Takes P) (h : q ∈ walk t p segs) :
    ∃ names, (∀ n ∈ names, P n) ∧ q = extend p names := by
  have hbelow : ∀ {p : Path} {names : List String}, names ∈ descendantNames t p →
      ∀ n ∈ names, P n :=
    fun hnames n hn => hP n (isStep_of_mem_descendantNames ht hnames hn)
  fun_induction walk t p segs with
  | case1 p =>
    obtain rfl := List.mem_singleton.1 h
    exact ⟨[], nofun, rfl⟩
  | case2 p text rest next found hfound ih =>
    obtain ⟨hname, hrest⟩ := List.forall_mem_cons.1 hsegs
    obtain ⟨names, hnames, rfl⟩ := ih hrest h
    exact ⟨String.ofList text :: names, List.forall_mem_cons.2 ⟨hname, hnames⟩, rfl⟩
  | case3 => cases h
  | case4 p pattern rest ih =>
    obtain ⟨hpattern, hrest⟩ := List.forall_mem_cons.1 hsegs
    obtain ⟨n, hn, hq⟩ := List.mem_flatMap.1 h
    obtain ⟨names, hnames, rfl⟩ := ih n hrest hq
    exact ⟨n :: names,
      List.forall_mem_cons.2 ⟨of_mem_matchedNames hP ht hpattern hn, hnames⟩, rfl⟩
  | case5 p =>
    obtain ⟨names, hnames, rfl⟩ := List.mem_map.1 (List.mem_filter.1 h).1
    exact ⟨names, hbelow hnames, rfl⟩
  | case6 p rest ih => exact ih (List.forall_mem_cons.1 hsegs).2 h
  | case7 p segment rest _ ih =>
    obtain ⟨-, -, hrest⟩ := List.forall_mem_cons.1 hsegs |>.imp id List.forall_mem_cons.1
    obtain ⟨front, hfront, hq⟩ := List.mem_flatMap.1 h
    obtain ⟨names, hnames, rfl⟩ := ih front hrest hq
    exact ⟨front ++ names,
      List.forall_mem_append.2 ⟨hbelow (List.mem_filter.1 hfront).1, hnames⟩,
      by simp [extend, List.foldl_append]⟩

/-- A walk that starts below a location finds nothing elsewhere. -/
theorem filter_walk_of_enters (ht : t.IsProper) (hsegs : Plain segs) (hp : p.isAbsolute = true)
    (h : p.Enters l) : (walk t p segs).filter (fun q => ¬ q.Enters l) = [] := by
  rw [List.filter_eq_nil_iff]
  intro q hq
  obtain ⟨names, hnames, rfl⟩ := exists_extend_of_mem_walk (fun _ hn => hn.1) ht hsegs hq
  simpa using enters_extend_of_enters hp hnames h

/-- A walk that starts apart from a location and leads only down does not come to it. -/
theorem not_enters_of_mem_walk (ht : t.IsProper) (hsegs : Descends segs) (hp : p.isAbsolute = true)
    (h : ¬ p.Enters l) (hapart : ¬ p.location <+: l) (hq : q ∈ walk t p segs) : ¬ q.Enters l := by
  obtain ⟨names, hnames, rfl⟩ := exists_extend_of_mem_walk (fun _ hn => hn) ht hsegs hq
  rw [enters_extend hp hnames h]
  intro hbelow
  rcases List.prefix_or_prefix_of_prefix hbelow (List.prefix_append p.location names) with
    habove | habove
  · exact h (Path.enters_of_location habove)
  · exact hapart habove

/-- A walk goes by names to where these lead. -/
theorem mem_walk_of_names {names : List (List Char)} (h : q ∈ walk t p (names.map .name ++ segs)) :
    q ∈ walk t (extend p (names.map String.ofList)) segs := by
  induction names generalizing p with
  | nil => exact h
  | cons name names ih =>
    rw [List.map_cons, List.cons_append, walk] at h
    exact ih (List.mem_ite_nil_right.1 h).2

/-! ## Walks without a directory -/

theorem childNames_remove (ht : t.IsProper) (hp : p.isAbsolute = true) (h : ¬ p.Enters l) :
    childNames (t.remove l) p =
      (childNames t p).filter fun n => ¬ (p.join ⟨n⟩).Enters l := by
  have hkept : ∀ n ∈ childNames t p,
      (!l.isPrefixOf (p.location ++ [n])) = decide (¬ (p.join ⟨n⟩).Enters l) := by
    intro n hn
    have hstep := isStep_of_mem_childNames ht hn
    have henters := Path.enters_join (l := l) hp hstep.1
    rw [Bool.eq_iff_iff]
    simp only [Bool.not_eq_true', Bool.eq_false_iff, decide_eq_true_eq, ne_eq,
      List.isPrefixOf_iff_prefix]
    rw [← location_join_of_isStep hstep]
    exact not_congr (henters.trans (or_iff_right h)).symm
  unfold childNames at hkept ⊢
  rw [FileTree.locate_remove h, FileTree.isDirectory_remove h]
  split
  next m hm =>
    obtain ⟨-, rfl⟩ := FileTree.locate_eq_ok_iff.1 hm
    split
    next hdir =>
      rw [FileTree.childNames_remove]
      simp only [hm, hdir, if_true] at hkept
      exact List.filter_congr hkept
    next => rfl
  next => rfl

theorem descendantNames_remove (ht : t.IsProper) (hp : p.isAbsolute = true) (h : ¬ p.Enters l) :
    descendantNames (t.remove l) p =
      (descendantNames t p).filter fun names => ¬ (extend p names).Enters l := by
  have hkept : ∀ names ∈ descendantNames t p,
      (!l.isPrefixOf (p.location ++ names)) = decide (¬ (extend p names).Enters l) := by
    intro names hnames
    have henters := enters_extend hp (fun n hn => isStep_of_mem_descendantNames ht hnames hn) h
    rw [Bool.eq_iff_iff]
    simp only [Bool.not_eq_true', Bool.eq_false_iff, decide_eq_true_eq, ne_eq,
      List.isPrefixOf_iff_prefix]
    exact not_congr henters.symm
  unfold descendantNames at hkept ⊢
  rw [FileTree.locate_remove h, FileTree.isDirectory_remove h]
  split
  next m hm =>
    obtain ⟨-, rfl⟩ := FileTree.locate_eq_ok_iff.1 hm
    split
    next hdir =>
      simp only [hm, hdir, if_true] at hkept
      rw [FileTree.descendants_remove, ← List.filter_congr hkept, List.filter_map]
      rfl
    next => rfl
  next => rfl

theorem matchedNames_remove (ht : t.IsProper) (hp : p.isAbsolute = true) (h : ¬ p.Enters l)
    (pattern : Pattern) :
    matchedNames (t.remove l) p pattern =
      (matchedNames t p pattern).filter fun n => ¬ (p.join ⟨n⟩).Enters l := by
  have hspecial : ∀ special : List String, (∀ n ∈ special, n = "." ∨ n = "..") →
      special.filter (fun n => ¬ (p.join ⟨n⟩).Enters l) = special := by
    refine fun special hall => List.filter_eq_self.2 fun n hn => decide_eq_true ?_
    refine Path.not_enters_join_of_special hp h ?_
    rcases hall n hn with rfl | rfl
    · exact .inl rfl
    · exact .inr rfl
  unfold matchedNames
  dsimp only
  rw [childNames_remove ht hp h, FileTree.isDirectory_remove h, List.filter_comm]
  congr 1
  rw [List.filter_append]
  congr 1
  refine (hspecial _ fun n hn => ?_).symm
  split at hn
  · split at hn
    · simpa using hn
    · cases hn
  · cases hn

/-- Of what is reached from items, only what is kept counts, and that comes from the items kept. -/
theorem filter_flatMap_of_kept {α β : Type} {items : List α} {f g : α → List β} {kept : α → Bool}
    {wanted : β → Bool} (hkept : ∀ x ∈ items, kept x = true → g x = (f x).filter wanted)
    (hgone : ∀ x ∈ items, kept x = false → (f x).filter wanted = []) :
    (items.filter kept).flatMap g = (items.flatMap f).filter wanted := by
  induction items with
  | nil => rfl
  | cons x items ih =>
    obtain ⟨hx, hitems⟩ := List.forall_mem_cons.1 hkept
    obtain ⟨hx', hitems'⟩ := List.forall_mem_cons.1 hgone
    rw [List.flatMap_cons, List.filter_append, ← ih hitems hitems', List.filter_cons]
    cases hk : kept x with
    | true => rw [if_pos rfl, List.flatMap_cons, hx hk]
    | false => rw [if_neg (by simp), hx' hk, List.nil_append]

/-- Whether a walk goes on by a name depends on nothing in a directory that it does not enter. -/
theorem found_remove {text : List Char} {next : Path} (hp : ¬ p.Enters l) (h : ¬ next.Enters l) :
    (if text = ['.'] ∨ text = ['.', '.'] then (t.remove l).isDirectory p
      else (t.remove l).isThere next) =
      if text = ['.'] ∨ text = ['.', '.'] then t.isDirectory p else t.isThere next := by
  rw [FileTree.isDirectory_remove hp, FileTree.isThere_remove h]

/-- A walk ends at a name that leads into what has been removed. -/
theorem walk_name_remove_of_enters {text : List Char} (hp : p.isAbsolute = true) (h : ¬ p.Enters l)
    (henters : (p.join ⟨String.ofList text⟩).Enters l) :
    walk (t.remove l) p (.name text :: segs) = [] := by
  have hordinary : ¬ (text = ['.'] ∨ text = ['.', '.']) := fun hspecial => by
    refine Path.not_enters_join_of_special hp h ?_ henters
    rwa [String.toList_ofList]
  rw [walk, if_neg hordinary,
    FileTree.isThere_remove_of_enters (Path.ne_nil_of_not_enters h) henters]
  rfl

/-- **Without a directory a walk finds what it found, less what it reached through the
directory.** -/
theorem walk_remove (ht : t.IsProper) (hsegs : Plain segs) (hp : p.isAbsolute = true)
    (h : ¬ p.Enters l) :
    walk (t.remove l) p segs = (walk t p segs).filter fun q => ¬ q.Enters l := by
  have habs : ∀ {p : Path} {wanted : List String → Bool} {names : List String},
      p.isAbsolute = true → names ∈ (descendantNames t p).filter wanted →
        (extend p names).isAbsolute = true :=
    fun hp hnames => isAbsolute_extend hp fun n hn =>
      (isStep_of_mem_descendantNames ht (List.mem_filter.1 hnames).1 hn).1
  fun_induction walk t p segs with
  | case1 p => simp [walk, h]
  | case2 p text rest next found hfound ih =>
    have hslash : '/' ∉ (String.ofList text).toList := hsegs _ List.mem_cons_self
    have hnext : next.isAbsolute = true := Path.isAbsolute_join hp hslash
    by_cases henters : next.Enters l
    · rw [filter_walk_of_enters ht hsegs.tail hnext henters]
      exact walk_name_remove_of_enters hp h henters
    · rw [← ih hsegs.tail hnext henters, walk, found_remove h henters]
      exact if_pos hfound
  | case3 p text rest next found hfound =>
    rw [List.filter_nil]
    by_cases henters : next.Enters l
    · exact walk_name_remove_of_enters hp h henters
    · rw [walk, found_remove h henters]
      exact if_neg hfound
  | case4 p pattern rest ih =>
    rw [walk, matchedNames_remove ht hp h]
    refine filter_flatMap_of_kept (fun n hn hk => ?_) fun n hn hk => ?_
    · exact ih n hsegs.tail (Path.isAbsolute_join hp (slash_not_mem_of_mem_matchedNames ht hn))
        (of_decide_eq_true hk)
    · exact filter_walk_of_enters ht hsegs.tail
        (Path.isAbsolute_join hp (slash_not_mem_of_mem_matchedNames ht hn)) (by simpa using hk)
  | case5 p =>
    rw [walk, descendantNames_remove ht hp h, List.filter_map, List.filter_map, List.filter_map,
      List.filter_filter, List.filter_filter]
    congr 1
    refine List.filter_congr fun names _ => ?_
    by_cases henters : (extend p names).Enters l
    · simp [henters]
    · simp [henters, FileTree.isDirectory_remove henters]
  | case6 p rest ih =>
    rw [walk]
    exact ih hsegs.tail hp h
  | case7 p segment rest hsegment ih =>
    rw [walk, descendantNames_remove ht hp h, List.filter_comm]
    · refine filter_flatMap_of_kept (fun names hnames hk => ?_) fun names hnames hk => ?_
      · exact ih names hsegs.tail.tail (habs hp hnames) (of_decide_eq_true hk)
      · exact filter_walk_of_enters ht hsegs.tail.tail (habs hp hnames) (by simpa using hk)
    · exact hsegment

end Walks

/-! ## Matches without a directory -/

section Matches

variable {t : FileTree} {l : Location} {base : Path}

/-- **The files elsewhere that a pattern matches are the same without a directory**, and so is what
is wrong with the pattern. -/
theorem matchedFiles_remove (ht : t.IsProper) (hl : l ≠ []) (pattern : Path) :
    matchedFiles (t.remove l) pattern =
      (matchedFiles t pattern).map fun ps => ps.filter fun q => ¬ q.Enters l := by
  unfold matchedFiles
  cases hsegs : (piecesBelowRoot pattern).mapM Segment.parse with
  | error e => rfl
  | ok segs =>
    have hplain : Plain segs :=
      plain_of_parse (fun _ hpiece => slash_not_mem_of_mem_piecesBelowRoot hpiece) hsegs
    have hroot : ¬ (Path.mk "/").Enters l := fun ⟨k, hk, hprefix⟩ => by
      have hplaces : ∀ k ∈ (Path.mk "/").location :: (Path.mk "/").passed, k = [] := by decide
      rw [hplaces k hk] at hprefix
      exact hl (List.prefix_nil.1 hprefix)
    simp only [bind, Except.bind, pure, Except.pure]
    cases wantsDirectory pattern with
    | true => rfl
    | false =>
      rw [walk_remove ht hplain rfl hroot]
      simp only [Bool.false_eq_true, if_false, Except.map, List.filter_filter]
      congr 1
      refine List.filter_congr fun q _ => ?_
      by_cases hq : q.Enters l
      · simp [hq]
      · simp [hq, FileTree.isFile_remove hq]

/-- Whether a pattern matches no file in a directory. -/
def Avoids (t : FileTree) (l : Location) (pattern : Path) : Prop :=
  ∀ found, matchedFiles t pattern = .ok found → ∀ p ∈ found, ¬ p.Enters l

/-- **A pattern that begins with the names of a directory apart from `l`, and leads only down from
there, has no match in `l`.** -/
theorem avoids_of_names (ht : t.IsProper) {pattern : Path} {names : List (List Char)}
    {segs : List Segment}
    (hparse : (piecesBelowRoot pattern).mapM Segment.parse = .ok (names.map .name ++ segs))
    (hsegs : Descends segs) (hout : ¬ (extend ⟨"/"⟩ (names.map String.ofList)).Enters l)
    (hapart : ¬ (extend ⟨"/"⟩ (names.map String.ofList)).location <+: l) : Avoids t l pattern := by
  intro found hfound q hq
  have hplain : Plain (names.map .name ++ segs) :=
    plain_of_parse (fun _ hpiece => slash_not_mem_of_mem_piecesBelowRoot hpiece) hparse
  have habs : (extend ⟨"/"⟩ (names.map String.ofList)).isAbsolute = true := by
    refine isAbsolute_extend rfl fun n hn => ?_
    obtain ⟨name, hname, rfl⟩ := List.mem_map.1 hn
    exact hplain _ (List.mem_append_left _ (List.mem_map_of_mem hname))
  unfold matchedFiles at hfound
  rw [hparse] at hfound
  obtain ⟨_, heq, hfound⟩ := bind_eq_ok_iff.1 hfound
  cases heq
  split at hfound
  · cases hfound
    cases hq
  · cases hfound
    exact not_enters_of_mem_walk ht hsegs habs hout hapart
      (mem_walk_of_names (List.mem_filter.1 hq).1)

theorem matchedFiles_remove_of_avoids (ht : t.IsProper) (hl : l ≠ []) {pattern : Path}
    (h : Avoids t l pattern) : matchedFiles (t.remove l) pattern = matchedFiles t pattern := by
  rw [matchedFiles_remove ht hl]
  cases hfound : matchedFiles t pattern with
  | error e => rfl
  | ok found =>
    have hkept : found.filter (fun q => ¬ q.Enters l) = found :=
      List.filter_eq_self.2 fun q hq => decide_eq_true (h found hfound q hq)
    rw [Except.map, hkept]

theorem entryFiles_remove (ht : t.IsProper) (hl : l ≠ []) {entry : String}
    (h : isPattern entry = true → Avoids t l (base.join ⟨entry⟩)) :
    entryFiles (t.remove l) base entry = entryFiles t base entry := by
  unfold entryFiles
  split
  next hpattern =>
    unfold patternFiles
    rw [matchedFiles_remove_of_avoids ht hl (h hpattern)]
  next => rfl

/-- Sources stay the same without a directory in which no pattern among them has a match. -/
theorem filesFrom_remove (ht : t.IsProper) (hl : l ≠ []) {entries : List String}
    (h : ∀ entry ∈ entries, isPattern entry = true → Avoids t l (base.join ⟨entry⟩))
    (found : List Path) :
    filesFrom (t.remove l) base found entries = filesFrom t base found entries := by
  induction entries generalizing found with
  | nil => rfl
  | cons entry r ih =>
    obtain ⟨hentry, hr⟩ := List.forall_mem_cons.1 h
    rw [filesFrom, filesFrom, entryFiles_remove ht hl hentry]
    congr 1
    funext ps
    exact ih hr (addNew found ps)

end Matches

end NinjaGen.Glob
