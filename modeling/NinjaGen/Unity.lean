import NinjaGen.Language

/-!
# Unity sources

A unity source includes several sources of one language, which are then compiled as one. The
sources of a target are divided among unity sources in *batches*.

* `chunks` cuts a list into pieces of one size, the last of which may be shorter; nothing is lost
  (`flatten_chunks`), no piece is empty (`ne_nil_of_mem_chunks`), and none is longer
  (`length_le_of_mem_chunks`).
* `UnityBatch` is the share of one unity source, `UnityBatch.fileName` names the source.
* `batches` divides sources: language by language, in their order, numbered from zero for each
  language.
-/

namespace NinjaGen

/-! ## Cutting a list into pieces -/

/-- The list in pieces of `size` members, the last of which may have fewer. Pieces of no members
are taken to have one. -/
def chunks {α : Type} (size : Nat) (xs : List α) : List (List α) :=
  match xs with
  | [] => []
  | x :: r => (x :: r.take (size - 1)) :: chunks size (r.drop (size - 1))
termination_by xs.length
decreasing_by simp only [List.length_drop, List.length_cons]; omega

theorem flatten_chunks {α : Type} (size : Nat) (xs : List α) : (chunks size xs).flatten = xs := by
  fun_induction chunks size xs with
  | case1 => rfl
  | case2 x r ih => simp [ih]

theorem ne_nil_of_mem_chunks {α : Type} {size : Nat} {ys : List α} (xs : List α) :
    ys ∈ chunks size xs → ys ≠ [] := by
  fun_induction chunks size xs with
  | case1 => simp
  | case2 x r ih =>
    intro h
    rcases List.mem_cons.1 h with rfl | h
    · simp
    · exact ih h

theorem length_le_of_mem_chunks {α : Type} {size : Nat} {ys : List α} (xs : List α) :
    ys ∈ chunks size xs → ys.length ≤ max size 1 := by
  fun_induction chunks size xs with
  | case1 => simp
  | case2 x r ih =>
    intro h
    rcases List.mem_cons.1 h with rfl | h
    · simp only [List.length_cons, List.length_take]; omega
    · exact ih h

/-! ## Batches -/

/-- The share of one unity source. -/
structure UnityBatch where
  lang : Language
  /-- The number of the batch among those of its language. -/
  index : Nat
  members : List Path
  deriving DecidableEq, Repr

namespace UnityBatch

/-- The name of the unity source. -/
def fileName (b : UnityBatch) : String :=
  "unity_" ++ b.lang.ident ++ "_" ++ toString b.index ++ "." ++ b.lang.unityExtension

/-- The path of the unity source in a directory. -/
def pathIn (b : UnityBatch) (dir : Path) : Path := dir.join ⟨b.fileName⟩

end UnityBatch

/-- The paths of the sources in a language. -/
def pathsOf (l : Language) (sources : List SourceFile) : List Path :=
  (sources.filter (·.lang = l)).map (·.path)

/-- The batches of one language, numbered from zero. -/
def batchesOf (capacity : Nat) (sources : List SourceFile) (l : Language) : List UnityBatch :=
  (chunks capacity (pathsOf l sources)).mapIdx fun i members => ⟨l, i, members⟩

/-- Sources divided into batches of at most `capacity` members. -/
def batches (capacity : Nat) (sources : List SourceFile) : List UnityBatch :=
  Language.all.flatMap (batchesOf capacity sources)

/-- The batches of a language hold its sources in their order. -/
theorem flatMap_members_batchesOf (capacity : Nat) (sources : List SourceFile) (l : Language) :
    (batchesOf capacity sources l).flatMap (·.members) = pathsOf l sources := by
  have key : ∀ (xss : List (List Path)) (f : Nat → Nat),
      (xss.mapIdx fun i m => (⟨l, f i, m⟩ : UnityBatch)).flatMap (·.members) = xss.flatten := by
    intro xss
    induction xss with
    | nil => intro f; rfl
    | cons xs xss ih =>
      intro f
      simp only [List.mapIdx_cons, List.flatMap_cons, List.flatten_cons]
      rw [ih fun i => f (i + 1)]
  exact (key _ id).trans (flatten_chunks _ _)

/-- The batches hold the sources language by language. -/
theorem flatMap_members_batches (capacity : Nat) (sources : List SourceFile) :
    (batches capacity sources).flatMap (·.members) =
      Language.all.flatMap fun l => pathsOf l sources := by
  rw [batches, List.flatMap_assoc]
  exact congrArg (List.flatMap · Language.all)
    (funext fun l => flatMap_members_batchesOf capacity sources l)

theorem mem_pathsOf {s : SourceFile} {sources : List SourceFile} (h : s ∈ sources) :
    s.path ∈ pathsOf s.lang sources :=
  List.mem_map_of_mem (List.mem_filter.2 ⟨h, decide_eq_true rfl⟩)

/-- Every source is in a batch. -/
theorem exists_mem_batches {s : SourceFile} {sources : List SourceFile} (h : s ∈ sources)
    (capacity : Nat) : ∃ b ∈ batches capacity sources, s.path ∈ b.members := by
  rw [← List.mem_flatMap, flatMap_members_batches]
  exact List.mem_flatMap.2 ⟨s.lang, Language.mem_all _, mem_pathsOf h⟩

theorem ne_nil_of_mem_batches {capacity : Nat} {sources : List SourceFile} {b : UnityBatch}
    (hb : b ∈ batches capacity sources) : b.members ≠ [] := by
  obtain ⟨l, -, hbl⟩ := List.mem_flatMap.1 hb
  obtain ⟨i, hi, rfl⟩ := List.mem_mapIdx.1 hbl
  exact ne_nil_of_mem_chunks _ (List.getElem_mem hi)

/-- The members of a batch are sources in its language. -/
theorem exists_source_of_mem_members {capacity : Nat} {sources : List SourceFile} {b : UnityBatch}
    (hb : b ∈ batches capacity sources) {m : Path} (hm : m ∈ b.members) :
    ∃ s ∈ sources, s.path = m ∧ s.lang = b.lang := by
  obtain ⟨l, -, hbl⟩ := List.mem_flatMap.1 hb
  have hlang : b.lang = l := by
    obtain ⟨i, hi, rfl⟩ := List.mem_mapIdx.1 hbl
    rfl
  have hpath : m ∈ pathsOf l sources := by
    rw [← flatMap_members_batchesOf capacity]
    exact List.mem_flatMap.2 ⟨b, hbl, hm⟩
  obtain ⟨s, hs, rfl⟩ := List.mem_map.1 hpath
  obtain ⟨hs, hl⟩ := List.mem_filter.1 hs
  exact ⟨s, hs, rfl, (of_decide_eq_true hl).trans hlang.symm⟩

end NinjaGen
