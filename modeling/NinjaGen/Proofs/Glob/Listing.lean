import NinjaGen.Glob.Walk
import NinjaGen.Proofs.Path.Order
import NinjaGen.Traverse
import Mathlib.Data.List.Forall2

/-!
# What a list of sources stands for

Each entry of a list of sources stands for some paths, and the list for all of them in a row, less
those that are there before in some spelling.

* `Glob.unseen_eq` says which paths are unseen, `Glob.unseen_append` those of two lists in a row.
* `Glob.files_eq_ok_iff`: a list stands for what its entries do, each path once.
* `Glob.IsMatch` and `Glob.StandsFor` say what an entry stands for, and `Glob.Expands` in which
  order.
* `Glob.files_spec` puts this together.
-/

namespace NinjaGen.Glob

variable {t : FileTree} {base p q : Path} {entry : String} {entries : List String}
  {ps qs more result : List Path} {seen : List (List Component)}

/-! ## Paths that are there once -/

/-- The unseen paths are those whose components have not been seen, the first of each spelling. -/
theorem unseen_eq (seen : List (List Component)) (ps : List Path) :
    unseen seen ps = (ps.filter fun p => p.components ∉ seen).eraseDupsBy Path.same := by
  induction ps generalizing seen with
  | nil => rfl
  | cons p r ih =>
    rw [unseen]
    by_cases hseen : p.components ∈ seen
    · rw [if_pos hseen, List.filter_cons_of_neg (by simpa using hseen), ih]
    · rw [if_neg hseen, List.filter_cons_of_pos (by simpa using hseen), List.eraseDupsBy_cons, ih,
        List.filter_filter]
      congr 2
      refine List.filter_congr fun q _ => ?_
      simp [Path.same, not_or]

theorem unseen_nil (ps : List Path) : unseen [] ps = ps.eraseDupsBy Path.same := by
  simp [unseen_eq]

/-- It does not matter how often, or in which order, something has been seen. -/
theorem unseen_congr {seen' : List (List Component)} (h : ∀ c, c ∈ seen ↔ c ∈ seen')
    (ps : List Path) : unseen seen ps = unseen seen' ps := by
  rw [unseen_eq, unseen_eq]
  congr 1
  exact List.filter_congr fun p _ => by simp [h]

/-- The unseen paths of two lists in a row. -/
theorem unseen_append (seen : List (List Component)) (ps qs : List Path) :
    unseen seen (ps ++ qs) =
      unseen seen ps ++ unseen (ps.map (·.components) ++ seen) qs := by
  induction ps generalizing seen with
  | nil => rfl
  | cons p r ih =>
    rw [List.cons_append, unseen, unseen]
    split
    next hseen =>
      rw [ih]
      refine congrArg _ (unseen_congr (fun c => ?_) qs)
      simp only [List.map_cons, List.cons_append, List.mem_cons, List.mem_append]
      exact ⟨.inr, fun h => h.elim (fun heq => .inr (heq ▸ hseen)) id⟩
    next =>
      rw [ih, List.cons_append]
      refine congrArg _ (congrArg _ (unseen_congr (fun c => ?_) qs))
      simp only [List.map_cons, List.cons_append, List.mem_cons, List.mem_append]
      exact or_left_comm

theorem mem_of_mem_unseen (h : p ∈ unseen seen more) : p ∈ more ∧ p.components ∉ seen := by
  induction more generalizing seen with
  | nil => cases h
  | cons q r ih =>
    rw [unseen] at h
    split at h
    · exact ⟨List.mem_cons_of_mem _ (ih h).1, (ih h).2⟩
    next hq =>
      rcases List.mem_cons.1 h with rfl | h
      · exact ⟨List.mem_cons_self, hq⟩
      · obtain ⟨hp, hseen⟩ := ih h
        exact ⟨List.mem_cons_of_mem _ hp, fun hc => hseen (List.mem_cons_of_mem _ hc)⟩

/-- Nothing is left out that is not there in some spelling. -/
theorem exists_mem_unseen (h : q ∈ more) :
    q.components ∈ seen ∨ ∃ p ∈ unseen seen more, p.same q = true := by
  fun_induction unseen seen more with
  | case1 => cases h
  | case2 seen p r components hseen ih =>
    rcases List.mem_cons.1 h with rfl | h
    · exact .inl hseen
    · exact ih h
  | case3 seen p r components hseen ih =>
    rcases List.mem_cons.1 h with rfl | h
    · exact .inr ⟨q, List.mem_cons_self, q.same_refl⟩
    · rcases ih h with hseen | ⟨p', hp', hsame⟩
      · rcases List.mem_cons.1 hseen with heq | hseen
        · exact .inr ⟨p, List.mem_cons_self, Path.same_iff.2 heq.symm⟩
        · exact .inl hseen
      · exact .inr ⟨p', List.mem_cons_of_mem _ hp', hsame⟩

/-- No path is there twice, however it is spelled. -/
theorem pairwise_unseen (seen : List (List Component)) (ps : List Path) :
    (unseen seen ps).Pairwise fun p q => p.same q = false := by
  induction ps generalizing seen with
  | nil => exact List.Pairwise.nil
  | cons p r ih =>
    rw [unseen]
    split
    · exact ih seen
    · refine List.pairwise_cons.2 ⟨fun q hq => ?_, ih _⟩
      rw [Bool.eq_false_iff, ne_eq, Path.same_iff]
      exact fun heq => (mem_of_mem_unseen hq).2 (heq ▸ List.mem_cons_self)

theorem unseen_sublist (seen : List (List Component)) (ps : List Path) :
    (unseen seen ps).Sublist ps := by
  induction ps generalizing seen with
  | nil => exact List.Sublist.refl _
  | cons p r ih =>
    rw [unseen]
    split
    · exact (ih _).cons p
    · exact (ih _).cons_cons p

/-- What is new to paths that are there once. -/
theorem addNew_unseen (ps qs : List Path) :
    addNew (unseen [] ps) qs = unseen [] (ps ++ qs) := by
  rw [addNew, unseen_append]
  refine congrArg _ (unseen_congr (fun c => ?_) qs)
  rw [List.append_nil, List.mem_map, List.mem_map]
  constructor
  · rintro ⟨p, hp, rfl⟩
    exact ⟨p, (mem_of_mem_unseen hp).1, rfl⟩
  · rintro ⟨q, hq, rfl⟩
    obtain ⟨p, hp, hsame⟩ := (exists_mem_unseen hq).resolve_left List.not_mem_nil
    exact ⟨p, hp, Path.same_iff.1 hsame⟩

/-! ## Entries -/

/-- A pattern without files is worth a warning, but no failure. -/
theorem outcome_entryFiles (t : FileTree) (base : Path) (entry : String) :
    (entryFiles t base entry).outcome =
      if isPattern entry then (patternFiles t base entry).mapError (.invalidPattern entry)
      else .ok [⟨entry⟩] := by
  unfold entryFiles
  split
  · split
    next h => rw [h]; rfl
    next h => rw [h]; rfl
    next h => rw [h]; rfl
  · rfl

/-- Whether a pattern matches a file that is `p`, seen from `base`. -/
def IsMatch (t : FileTree) (base : Path) (pattern : String) (p : Path) : Prop :=
  ∃ files, matchedFiles t (base.join ⟨pattern⟩) = .ok files ∧
    ∃ file ∈ files, file.relativeTo base = p

/-- Whether an entry of a list of sources stands for a path. -/
def StandsFor (t : FileTree) (base : Path) (entry : String) (p : Path) : Prop :=
  ∃ ps, (entryFiles t base entry).outcome = .ok ps ∧ p ∈ ps

theorem mem_patternFiles_iff (h : patternFiles t base entry = .ok ps) :
    p ∈ ps ↔ IsMatch t base entry p := by
  obtain ⟨files, hfiles, rfl⟩ := map_eq_ok_iff.1 h
  simp [IsMatch, hfiles]

theorem pairwise_of_patternFiles (h : patternFiles t base entry = .ok ps) :
    ps.Pairwise fun p q => p.le q = true := by
  obtain ⟨files, -, rfl⟩ := map_eq_ok_iff.1 h
  exact Path.pairwise_sort _

/-- **An entry stands for the files that it matches or for itself.** -/
theorem standsFor_iff :
    StandsFor t base entry p ↔ (isPattern entry = false ∧ p = ⟨entry⟩) ∨
      (isPattern entry = true ∧ IsMatch t base entry p) := by
  unfold StandsFor
  rw [outcome_entryFiles]
  cases isPattern entry with
  | false => simp
  | true =>
    simp only [if_true, mapError_eq_ok_iff, true_and, reduceCtorEq, false_and, false_or]
    constructor
    · rintro ⟨ps, hps, hp⟩
      exact (mem_patternFiles_iff hps).1 hp
    · rintro ⟨files, hfiles, hp⟩
      have hps : patternFiles t base entry = .ok _ := map_eq_ok_iff.2 ⟨files, hfiles, rfl⟩
      exact ⟨_, hps, (mem_patternFiles_iff hps).2 ⟨files, hfiles, hp⟩⟩

/-- **The paths for which an entry of a list of sources stands, in their order**: a plain path
stands for itself, and a pattern for the files that it matches, as they are seen from `base` and
sorted. -/
def Expands (t : FileTree) (base : Path) (entry : String) (ps : List Path) : Prop :=
  if isPattern entry then
    ∃ files, matchedFiles t (base.join ⟨entry⟩) = .ok files ∧
      (∀ file ∈ files, t.isFile file = true) ∧
      ps.Perm (files.map (·.relativeTo base)) ∧ ps.Pairwise fun p q => p.le q = true
  else ps = [⟨entry⟩]

theorem isFile_of_mem_matchedFiles {pattern : Path} (h : matchedFiles t pattern = .ok ps)
    (hp : p ∈ ps) : t.isFile p = true := by
  unfold matchedFiles at h
  obtain ⟨segments, -, h⟩ := bind_eq_ok_iff.1 h
  split at h
  · cases h
    cases hp
  · cases h
    exact (List.mem_filter.1 hp).2

theorem expands_of_entryFiles (h : (entryFiles t base entry).outcome = .ok ps) :
    Expands t base entry ps := by
  rw [outcome_entryFiles] at h
  unfold Expands
  split
  next hpattern =>
    rw [if_pos hpattern, mapError_eq_ok_iff, patternFiles, map_eq_ok_iff] at h
    obtain ⟨files, hfiles, rfl⟩ := h
    exact ⟨files, hfiles, fun file => isFile_of_mem_matchedFiles hfiles, Path.sort_perm _,
      Path.pairwise_sort _⟩
  next hplain =>
    rw [if_neg hplain] at h
    exact (Except.ok.inj h).symm

/-- An entry fails only if it is a pattern that cannot be read. -/
theorem exists_entryFiles_iff : (∃ ps, (entryFiles t base entry).outcome = .ok ps) ↔
    (isPattern entry = true → ∃ files, matchedFiles t (base.join ⟨entry⟩) = .ok files) := by
  rw [outcome_entryFiles]
  cases isPattern entry with
  | false => simp
  | true =>
    simp only [if_true, mapError_eq_ok_iff, patternFiles, map_eq_ok_iff, true_imp_iff]
    constructor
    · rintro ⟨_, files, hfiles, -⟩
      exact ⟨files, hfiles⟩
    · rintro ⟨files, hfiles⟩
      exact ⟨_, files, hfiles, rfl⟩

/-! ## Lists of entries -/

/-- Entries after others stand for what they do, as far as that is new. -/
theorem outcome_filesFrom_eq_ok_iff :
    (filesFrom t base (unseen [] ps) entries).outcome = .ok result ↔
      ∃ expansions : List (List Path),
        entries.map (fun entry => (entryFiles t base entry).outcome) = expansions.map .ok ∧
          result = unseen [] (ps ++ expansions.flatten) := by
  induction entries generalizing ps with
  | nil =>
    constructor
    · intro h
      exact ⟨[], rfl, by rw [List.flatten_nil, List.append_nil]; exact (Except.ok.inj h).symm⟩
    · rintro ⟨expansions, hmap, rfl⟩
      obtain rfl := List.map_eq_nil_iff.1 hmap.symm
      rw [List.flatten_nil, List.append_nil]
      rfl
  | cons entry r ih =>
    rw [filesFrom, Logged.outcome_bind]
    constructor
    · intro h
      obtain ⟨qs, hqs, hrest⟩ := bind_eq_ok_iff.1 h
      rw [addNew_unseen, ih] at hrest
      obtain ⟨expansions, hmap, rfl⟩ := hrest
      exact ⟨qs :: expansions, by rw [List.map_cons, List.map_cons, hqs, hmap],
        by rw [List.flatten_cons, List.append_assoc]⟩
    · rintro ⟨expansions, hmap, rfl⟩
      cases expansions with
      | nil => cases hmap
      | cons qs expansions =>
        obtain ⟨hqs, hmap⟩ := List.cons.inj hmap
        refine bind_eq_ok_iff.2 ⟨qs, hqs, ?_⟩
        rw [addNew_unseen, ih]
        exact ⟨expansions, hmap, by rw [List.flatten_cons, List.append_assoc]⟩

/-- **A list of sources stands for what its entries do, in a row and each path once.** -/
theorem files_eq_ok_iff :
    (files t base entries).outcome = .ok result ↔
      ∃ expansions : List (List Path),
        entries.map (fun entry => (entryFiles t base entry).outcome) = expansions.map .ok ∧
          result = unseen [] expansions.flatten := by
  show (filesFrom t base (unseen [] []) entries).outcome = .ok result ↔ _
  exact outcome_filesFrom_eq_ok_iff

theorem exists_files_iff : (∃ result, (files t base entries).outcome = .ok result) ↔
    ∀ entry ∈ entries, isPattern entry = true →
      ∃ found, matchedFiles t (base.join ⟨entry⟩) = .ok found := by
  simp only [← exists_entryFiles_iff]
  constructor
  · rintro ⟨result, h⟩ entry hentry
    obtain ⟨expansions, hmap, -⟩ := files_eq_ok_iff.1 h
    obtain ⟨ps, -, hps⟩ := exists_ok_of_mem_of_map_ok hmap hentry
    exact ⟨ps, hps⟩
  · intro h
    choose! expansion hexpansion using h
    refine ⟨_, files_eq_ok_iff.2 ⟨entries.map expansion, ?_, rfl⟩⟩
    rw [List.map_map]
    exact List.map_congr_left hexpansion

/-- Nothing that an entry stands for is missed, but for its spelling. -/
theorem exists_mem_of_files (h : (files t base entries).outcome = .ok result)
    (hentry : entry ∈ entries) (hq : StandsFor t base entry q) : ∃ p ∈ result, p.same q = true := by
  obtain ⟨expansions, hmap, rfl⟩ := files_eq_ok_iff.1 h
  obtain ⟨ps, hps, hq⟩ := hq
  obtain ⟨ps', hps', heq⟩ := exists_ok_of_mem_of_map_ok hmap hentry
  obtain rfl := Except.ok.inj (hps.symm.trans heq)
  exact (exists_mem_unseen (List.mem_flatten_of_mem hps' hq)).resolve_left List.not_mem_nil

/-- Nothing is there that no entry stands for. -/
theorem standsFor_of_mem_files (h : (files t base entries).outcome = .ok result)
    (hp : p ∈ result) : ∃ entry ∈ entries, StandsFor t base entry p := by
  obtain ⟨expansions, hmap, rfl⟩ := files_eq_ok_iff.1 h
  obtain ⟨ps, hps, hp⟩ := List.mem_flatten.1 (mem_of_mem_unseen hp).1
  obtain ⟨entry, hentry, heq⟩ := exists_of_mem_of_map_ok hmap hps
  exact ⟨entry, hentry, ps, heq, hp⟩

/-- **What a list of sources stands for.** A list can be expanded when all patterns in it can be
read. Then it stands for what its entries do, in a row, less every path that has been there before
in some spelling: each path has the place, and the spelling, in which it comes first, and what is
appended to the list comes behind. -/
theorem files_spec (t : FileTree) (base : Path) (entries : List String) :
    ((∃ result, (files t base entries).outcome = .ok result) ↔
      ∀ entry ∈ entries, isPattern entry = true →
        ∃ found, matchedFiles t (base.join ⟨entry⟩) = .ok found) ∧
    ∀ result, (files t base entries).outcome = .ok result →
      (∃ expansions, List.Forall₂ (Expands t base) entries expansions ∧
        result = expansions.flatten.eraseDupsBy Path.same ∧
        ∀ before p after, expansions.flatten = before ++ p :: after →
          (∀ q ∈ before, q.same p = false) →
            before.eraseDupsBy Path.same ++ [p] <+: result) ∧
      result.Pairwise (fun p q => p.same q = false) ∧
      ∀ more all, (files t base (entries ++ more)).outcome = .ok all → result <+: all := by
  refine ⟨exists_files_iff, fun result h => ?_⟩
  obtain ⟨expansions, hmap, rfl⟩ := files_eq_ok_iff.1 h
  refine ⟨⟨expansions, ?_, unseen_nil _, fun before p after hsplit hnew => ?_⟩,
    pairwise_unseen _ _, fun more all hall => ?_⟩
  · rw [← List.forall₂_eq_eq_eq, List.forall₂_map_left_iff, List.forall₂_map_right_iff] at hmap
    exact hmap.imp fun entry ps => expands_of_entryFiles
  · have hfirst : p.components ∉ before.map (·.components) ++ [] := by
      rw [List.append_nil, List.mem_map]
      rintro ⟨q, hq, heq⟩
      exact Bool.eq_false_iff.1 (hnew q hq) (Path.same_iff.2 heq)
    rw [hsplit, unseen_append, unseen, if_neg hfirst, unseen_nil before,
      List.prefix_append_right_inj]
    exact ⟨_, rfl⟩
  · obtain ⟨expansions', hmap', rfl⟩ := files_eq_ok_iff.1 hall
    obtain ⟨front, rest, rfl, hfront, -⟩ :=
      List.map_eq_append_iff.1 (hmap'.symm.trans List.map_append)
    have heq : front = expansions :=
      List.map_injective_iff.2 (fun _ _ => Except.ok.inj) (hfront.trans hmap)
    rw [heq, List.flatten_append, unseen_append]
    exact List.prefix_append _ _

/-- What a pattern finds again keeps the place and the spelling that it has already, and a file that
is not there counts as well. -/
theorem files_spec_overlapping :
    let t := (((FileTree.empty.put ["proj"] .directory).put ["proj", "a.c"] (.file "")).put
      ["proj", "src"] .directory).put ["proj", "src", "b.c"] (.file "")
    let base : Path := ⟨"/proj"⟩
    let entries := ["src//b.c", "z.c", "src/*.c", "*.c"]
    let result : List Path := [⟨"src//b.c"⟩, ⟨"z.c"⟩, ⟨"a.c"⟩]
    (files t base entries).outcome = .ok result ∧
      result.Pairwise (fun p q => p.same q = false) ∧
      ∀ more all, (files t base (entries ++ more)).outcome = .ok all → result <+: all := by
  intro t base entries result
  have hresult : (files t base entries).outcome = .ok result := by decide +kernel
  obtain ⟨-, hspec⟩ := files_spec t base entries
  obtain ⟨-, hpairwise, hmore⟩ := hspec result hresult
  exact ⟨hresult, hpairwise, hmore⟩

end NinjaGen.Glob
