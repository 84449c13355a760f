import Mathlib.Algebra.Order.Floor.Div
import NinjaGen.Proofs.Plan.BuildRoot

/-!
# How sources are batched

The batches of a target hold its sources language by language, each language in its own order and in
batches that are full but for the last one. That leaves no choice: there is one list of batches that
does so.

* `eq_chunks_iff`: the pieces of a list are determined by their lengths; `length_chunks` counts
  them.
* `UnityBatch.fileName_eq_iff`: the name of a unity source tells its language and its number, and
  `UnityBatch.ofPath?_pathIn` that it is a source of its language in every directory.
* `IsBatching` says how sources are batched, and `isBatching_iff` that `batches` does so and
  nothing else does.
-/

namespace NinjaGen

/-! ## Pieces of one size -/

section Chunks

variable {α : Type} {size : Nat} {xs : List α}

theorem chunks_cons (size : Nat) (x : α) (r : List α) :
    chunks size (x :: r) = (x :: r.take (size - 1)) :: chunks size (r.drop (size - 1)) := by
  rw [chunks]

/-- Every piece but the last has as many members as it may have. -/
theorem length_of_mem_dropLast_chunks {ys : List α} (xs : List α) :
    ys ∈ (chunks size xs).dropLast → ys.length = max size 1 := by
  fun_induction chunks size xs with
  | case1 => simp
  | case2 x r ih =>
    intro h
    cases hrest : r.drop (size - 1) with
    | nil =>
      rw [hrest, chunks] at h
      cases h
    | cons y s =>
      have hlong : (r.drop (size - 1)).length ≠ 0 := by simp [hrest]
      rw [List.length_drop] at hlong
      obtain ⟨z, zs, hz⟩ : ∃ z zs, chunks size (r.drop (size - 1)) = z :: zs := by
        rw [hrest, chunks_cons]
        exact ⟨_, _, rfl⟩
      rw [hz, List.dropLast_cons_cons] at h
      rcases List.mem_cons.1 h with rfl | h
      · rw [List.length_cons, List.length_take]
        omega
      · exact ih (hz ▸ h)

/-- **The pieces of a list are determined by their lengths**: each is full but for the last, which
is not empty. -/
theorem eq_chunks_iff {css : List (List α)} :
    css = chunks size xs ↔
      css.flatten = xs ∧ (∀ ys ∈ css, ys ≠ [] ∧ ys.length ≤ max size 1) ∧
        ∀ ys ∈ css.dropLast, ys.length = max size 1 := by
  constructor
  · rintro rfl
    exact ⟨flatten_chunks size xs, fun ys hys => ⟨ne_nil_of_mem_chunks xs hys,
      length_le_of_mem_chunks xs hys⟩, fun ys => length_of_mem_dropLast_chunks xs⟩
  · rintro ⟨rfl, hsize, hfull⟩
    induction css with
    | nil => rw [List.flatten_nil, chunks]
    | cons ys css ih =>
      obtain ⟨⟨hne, hle⟩, hrest⟩ := List.forall_mem_cons.1 hsize
      obtain ⟨y, r, rfl⟩ := List.exists_cons_of_ne_nil hne
      rw [List.length_cons] at hle
      rw [List.flatten_cons, List.cons_append, chunks_cons]
      cases css with
      | nil =>
        have hr : r.length ≤ size - 1 := by omega
        rw [List.flatten_nil, List.append_nil, List.take_of_length_le hr,
          List.drop_of_length_le hr, chunks]
      | cons zs css =>
        rw [List.dropLast_cons_cons, List.forall_mem_cons] at hfull
        have hr : r.length = size - 1 := by
          have := hfull.1
          rw [List.length_cons] at this
          omega
        rw [List.take_left' hr, List.drop_left' hr, ← ih hrest hfull.2]

/-- There are as many pieces as are needed. -/
theorem length_chunks (size : Nat) (xs : List α) :
    (chunks size xs).length = xs.length ⌈/⌉ max size 1 := by
  fun_induction chunks size xs with
  | case1 => rw [List.length_nil, List.length_nil, zero_ceilDiv]
  | case2 x r ih =>
    have hpos : 0 < max size 1 := by omega
    rw [List.length_cons, ih, List.length_drop, List.length_cons, Nat.ceilDiv_eq_add_pred_div,
      Nat.ceilDiv_eq_add_pred_div, ← Nat.add_div_right _ hpos]
    by_cases h : size - 1 ≤ r.length
    · congr 1
      omega
    · rw [Nat.div_eq_of_lt_le (k := 1) (by omega) (by omega),
        Nat.div_eq_of_lt_le (k := 1) (by omega) (by omega)]

end Chunks

/-! ## The names of unity sources -/

namespace UnityBatch

/-- The digits of a number tell the number. -/
theorem toDigits_inj {m n : Nat} (h : Nat.toDigits 10 m = Nat.toDigits 10 n) : m = n := by
  rw [← @Nat.ofDigitChars_ten_toDigits m, h, Nat.ofDigitChars_ten_toDigits]

theorem toList_fileName (b : UnityBatch) :
    b.fileName.toList =
      ("unity_" ++ b.lang.ident ++ "_").toList ++ Nat.toDigits 10 b.index ++
        '.' :: b.lang.unityExtension.toList := by
  simp [fileName]

/-- **The name of a unity source tells its language and its number.** -/
theorem fileName_eq_iff {b d : UnityBatch} :
    b.fileName = d.fileName ↔ b.lang = d.lang ∧ b.index = d.index := by
  constructor
  · intro h
    have htext := congrArg String.toList h
    rw [toList_fileName, toList_fileName] at htext
    have hlang : b.lang = d.lang := by
      cases hb : b.lang <;> cases hd : d.lang
      all_goals simp [hb, hd, Language.ident] at htext ⊢
    rw [hlang, List.append_left_inj, List.append_right_inj] at htext
    exact ⟨hlang, toDigits_inj htext⟩
  · rintro ⟨hlang, hindex⟩
    rw [fileName, fileName, hlang, hindex]

/-- A dot in front of a text without dots, behind something, is where the extension starts. -/
theorem extensionOf?_append {stem ext : List Char} (hstem : stem ≠ []) (hext : '.' ∉ ext) :
    Path.extensionOf? (stem ++ '.' :: ext) = some ext := by
  have htake : (stem ++ '.' :: ext).reverse.takeWhile (· ≠ '.') = ext.reverse := by
    rw [List.reverse_append, List.reverse_cons, List.append_assoc, List.takeWhile_append_of_pos]
    · simp
    · intro c hc
      refine decide_eq_true fun h => hext ?_
      rwa [← h, ← List.mem_reverse]
  have hlength : (stem ++ '.' :: ext).length - ext.length = (stem ++ ['.']).length := by
    simp only [List.length_append, List.length_cons, List.length_nil]
    omega
  have hfront : (stem ++ '.' :: ext).take (stem ++ ['.']).length = stem ++ ['.'] := by
    rw [List.append_cons stem '.' ext, List.take_left]
  unfold Path.extensionOf?
  rw [htake, List.reverse_reverse]
  dsimp only
  rw [hlength, hfront, if_neg]
  simp [hstem]

/-- **A unity source is a source of its language**, in whatever directory it is. -/
theorem ofPath?_pathIn (b : UnityBatch) (dir : Path) :
    SourceFile.ofPath? (b.pathIn dir) = some ⟨b.pathIn dir, b.lang⟩ := by
  have hextension : Path.extensionOf? b.fileName.toList = some b.lang.unityExtension.toList := by
    rw [toList_fileName]
    apply extensionOf?_append
    · simp
    · cases b.lang <;> decide
  rw [SourceFile.ofPath?_eq_some_iff]
  refine ⟨rfl, ?_⟩
  rw [Language.ofPath?, Path.extension?, pathIn, Path.fileName?_join b.isStep_fileName,
    Option.bind_some, hextension, Option.map_some, Option.bind_some, String.ofList_toList,
    Language.ofExtension?_unityExtension]

end UnityBatch

/-! ## Batches -/

/-- Whether batches hold sources as they should: language by language, in order, and as many in one
batch as it can hold. A batch that can hold nothing is taken to hold one. -/
structure IsBatching (capacity : Nat) (sources : List SourceFile) (bs : List UnityBatch) :
    Prop where
  /-- The batches of C sources come first and those of C++ sources after them. -/
  languages : bs = bs.filter (·.lang = .c) ++ bs.filter (·.lang = .cxx)
  /-- The batches of a language hold its sources in their order. -/
  members : ∀ l, (bs.filter (·.lang = l)).flatMap (·.members) =
    (sources.filter (·.lang = l)).map (·.path)
  /-- They are numbered from zero, and there are as many as are needed. -/
  indices : ∀ l, (bs.filter (·.lang = l)).map (·.index) =
    List.range ((sources.filter (·.lang = l)).length ⌈/⌉ max capacity 1)
  size : ∀ b ∈ bs, b.members ≠ [] ∧ b.members.length ≤ max capacity 1
  /-- Every batch but the last of its language is full. -/
  full : ∀ l, ∀ b ∈ (bs.filter (·.lang = l)).dropLast, b.members.length = max capacity 1
  /-- No two batches have their unity source under the same name. -/
  names : (bs.map (·.fileName)).Nodup
  /-- Every unity source is classified in the language of its batch. -/
  classified : ∀ b ∈ bs, ∀ dir, SourceFile.ofPath? (b.pathIn dir) = some ⟨b.pathIn dir, b.lang⟩

variable {capacity : Nat} {sources : List SourceFile} {bs : List UnityBatch}

theorem batches_eq (capacity : Nat) (sources : List SourceFile) :
    batches capacity sources = batchesOf capacity sources .c ++ batchesOf capacity sources .cxx := by
  simp [batches, Language.all]

theorem lang_of_mem_batchesOf {l : Language} {b : UnityBatch}
    (hb : b ∈ batchesOf capacity sources l) : b.lang = l := by
  obtain ⟨i, hi, rfl⟩ := List.mem_mapIdx.1 hb
  rfl

/-- The batches of a language among all batches. -/
theorem filter_batches (capacity : Nat) (sources : List SourceFile) (l : Language) :
    (batches capacity sources).filter (·.lang = l) = batchesOf capacity sources l := by
  have hsame : ∀ m, (batchesOf capacity sources m).filter (·.lang = m) =
      batchesOf capacity sources m := by
    intro m
    rw [List.filter_eq_self]
    exact fun b hb => decide_eq_true (lang_of_mem_batchesOf hb)
  have hother : ∀ m, m ≠ l → (batchesOf capacity sources m).filter (·.lang = l) = [] := by
    intro m hm
    rw [List.filter_eq_nil_iff]
    intro b hb
    rw [lang_of_mem_batchesOf hb]
    simpa using hm
  rw [batches_eq, List.filter_append]
  cases l with
  | c => rw [hsame, hother .cxx (by decide), List.append_nil]
  | cxx => rw [hsame, hother .c (by decide), List.nil_append]

/-- The batches of a language are determined by their members and their numbers. -/
theorem eq_batchesOf_iff {l : Language} :
    bs = batchesOf capacity sources l ↔
      (∀ b ∈ bs, b.lang = l) ∧ bs.map (·.members) = chunks capacity (pathsOf l sources) ∧
        bs.map (·.index) = List.range bs.length := by
  constructor
  · rintro rfl
    refine ⟨fun b hb => lang_of_mem_batchesOf hb, ?_, ?_⟩
    · apply List.ext_getElem
      · simp [batchesOf]
      · intro i hi hi'
        simp [batchesOf]
    · apply List.ext_getElem
      · simp
      · intro i hi hi'
        simp [batchesOf]
  · rintro ⟨hlang, hmembers, hindex⟩
    rw [batchesOf, ← hmembers, eq_comm, List.mapIdx_eq_iff]
    intro i
    cases hb : bs[i]? with
    | none => simp [hb]
    | some b =>
      have hi : i < bs.length := (List.getElem?_eq_some_iff.1 hb).1
      have hnumber := congrArg (·[i]?) hindex
      have hlang := hlang b (List.mem_of_getElem? hb)
      simp only [List.getElem?_map, hb, Option.map_some, List.getElem?_range hi,
        Option.some.injEq] at hnumber ⊢
      rw [← hlang, ← hnumber]

theorem length_batchesOf (capacity : Nat) (sources : List SourceFile) (l : Language) :
    (batchesOf capacity sources l).length =
      (sources.filter (·.lang = l)).length ⌈/⌉ max capacity 1 := by
  rw [batchesOf, List.length_mapIdx, length_chunks, pathsOf, List.length_map]

/-- **Batches that are numbered within their language have unity sources of different names.** -/
theorem nodup_fileName (hlanguages : bs = bs.filter (·.lang = .c) ++ bs.filter (·.lang = .cxx))
    (hindices : ∀ l, ((bs.filter (·.lang = l)).map (·.index)).Nodup) :
    (bs.map (·.fileName)).Nodup := by
  have hone : ∀ l, ((bs.filter (·.lang = l)).map (·.fileName)).Nodup := by
    intro l
    have hindex := hindices l
    rw [List.Nodup, List.pairwise_map] at hindex ⊢
    apply hindex.imp
    intro b d hne heq
    exact hne (UnityBatch.fileName_eq_iff.1 heq).2
  rw [hlanguages, List.map_append, List.nodup_append]
  refine ⟨hone .c, hone .cxx, ?_⟩
  intro name hname other hother heq
  obtain ⟨b, hb, rfl⟩ := List.mem_map.1 hname
  obtain ⟨d, hd, rfl⟩ := List.mem_map.1 hother
  have hc : b.lang = .c := of_decide_eq_true (List.mem_filter.1 hb).2
  have hcxx : d.lang = .cxx := of_decide_eq_true (List.mem_filter.1 hd).2
  have hlang := (UnityBatch.fileName_eq_iff.1 heq).1
  rw [hc, hcxx] at hlang
  cases hlang

theorem isBatching_batches (capacity : Nat) (sources : List SourceFile) :
    IsBatching capacity sources (batches capacity sources) := by
  have hlanguages : batches capacity sources =
      (batches capacity sources).filter (·.lang = .c) ++
        (batches capacity sources).filter (·.lang = .cxx) := by
    rw [filter_batches, filter_batches, batches_eq]
  have hindices : ∀ l, (batchesOf capacity sources l).map (·.index) =
      List.range ((sources.filter (·.lang = l)).length ⌈/⌉ max capacity 1) := by
    intro l
    rw [← length_batchesOf]
    exact (eq_batchesOf_iff.1 rfl).2.2
  have hmembers : ∀ l, (batchesOf capacity sources l).map (·.members) =
      chunks capacity (pathsOf l sources) := fun l => (eq_batchesOf_iff.1 rfl).2.1
  refine
    { languages := hlanguages
      members := fun l => ?_
      indices := fun l => ?_
      size := fun b hb => ?_
      full := fun l b hb => ?_
      names := nodup_fileName hlanguages fun l => ?_
      classified := fun b _ => b.ofPath?_pathIn }
  · rw [filter_batches, flatMap_members_batchesOf]
    rfl
  · rw [filter_batches, hindices]
  · obtain ⟨l, -, hbl⟩ := List.mem_flatMap.1 hb
    have hmem : b.members ∈ chunks capacity (pathsOf l sources) :=
      hmembers l ▸ List.mem_map_of_mem hbl
    exact ⟨ne_nil_of_mem_chunks _ hmem, length_le_of_mem_chunks _ hmem⟩
  · rw [filter_batches] at hb
    apply length_of_mem_dropLast_chunks (pathsOf l sources)
    rw [← hmembers, ← List.map_dropLast]
    exact List.mem_map_of_mem hb
  · rw [filter_batches, hindices]
    exact List.nodup_range

/-- **How sources are batched.** The batches of C sources come first and those of C++ sources after
them; the batches of a language hold its sources in their order, each as many as it can hold but the
last, which is not empty; they are numbered from zero; and each has a unity source of its language
under a name of its own. This is so of the batches of a target, and of no other list. -/
theorem isBatching_iff : IsBatching capacity sources bs ↔ bs = batches capacity sources := by
  constructor
  · intro h
    have hof : ∀ l, bs.filter (·.lang = l) = batchesOf capacity sources l := by
      intro l
      rw [eq_batchesOf_iff, eq_chunks_iff, ← List.map_dropLast, List.forall_mem_map,
        List.forall_mem_map]
      refine ⟨fun b hb => of_decide_eq_true (List.mem_filter.1 hb).2, ⟨?_, fun b hb => ?_, ?_⟩, ?_⟩
      · rw [← List.flatMap_def]
        exact h.members l
      · exact h.size b (List.mem_filter.1 hb).1
      · exact h.full l
      · have hindices := h.indices l
        have hlength := congrArg List.length hindices
        rw [List.length_map, List.length_range] at hlength
        rw [hindices, hlength]
    rw [h.languages, hof, hof, batches_eq]
  · rintro rfl
    exact isBatching_batches capacity sources

/-- Three C sources and a C++ source in between, two of them to a batch. -/
example :
    (batches 2 [⟨⟨"a.c"⟩, .c⟩, ⟨⟨"b.cc"⟩, .cxx⟩, ⟨⟨"c.c"⟩, .c⟩, ⟨⟨"d.c"⟩, .c⟩]).map
        (fun b => (b.fileName, b.members.map (·.text))) =
      [("unity_c_0.c", ["a.c", "c.c"]), ("unity_c_1.c", ["d.c"]),
        ("unity_cxx_0.cpp", ["b.cc"])] := by
  decide +kernel

end NinjaGen
