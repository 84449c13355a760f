/-!
# Bindings

Values by name, in the order of the names. A name has at most one value.

* `Bindings.get?` looks a name up; two bindings that give every name the same value are equal
  (`Bindings.ext_get?`).
* `Bindings.set` binds one name (`get?_set`), `Bindings.extend` takes over the bindings of another
  (`get?_extend`), and `Bindings.ofList` binds pairs one after another, so that the last one wins.
-/

namespace NinjaGen

namespace Bindings

/-- The first entry of a name. -/
def lookup (name : String) : List (String × String) → Option String
  | [] => none
  | (n, v) :: r => if n = name then some v else lookup name r

/-- The entries with `name` bound to `value`, at its place among the names. -/
def insert (name value : String) : List (String × String) → List (String × String)
  | [] => [(name, value)]
  | (n, v) :: r =>
    if name < n then (name, value) :: (n, v) :: r
    else if n = name then (name, value) :: r
    else (n, v) :: insert name value r

/-- The names go up from entry to entry. -/
def Sorted (entries : List (String × String)) : Prop := entries.Pairwise fun a b => a.1 < b.1

theorem mem_insert {name value : String} {e : String × String} {entries : List (String × String)}
    (h : e ∈ insert name value entries) : e = (name, value) ∨ e ∈ entries := by
  induction entries with
  | nil => simpa [insert] using h
  | cons a r ih =>
    obtain ⟨n, v⟩ := a
    simp only [insert] at h
    split at h
    · simpa using h
    · split at h
      · rcases List.mem_cons.1 h with h | h
        · exact .inl h
        · exact .inr (List.mem_cons_of_mem _ h)
      · rcases List.mem_cons.1 h with h | h
        · exact .inr (h ▸ List.mem_cons_self)
        · exact (ih h).imp_right (List.mem_cons_of_mem _)

theorem sorted_insert {entries : List (String × String)} (h : Sorted entries)
    (name value : String) : Sorted (insert name value entries) := by
  induction entries with
  | nil => simp [insert, Sorted]
  | cons a r ih =>
    obtain ⟨n, v⟩ := a
    have hr := List.pairwise_cons.1 h
    simp only [insert]
    split
    next hlt =>
      refine List.pairwise_cons.2 ⟨fun b hb => ?_, h⟩
      rcases List.mem_cons.1 hb with rfl | hb
      · exact hlt
      · exact String.lt_trans hlt (hr.1 b hb)
    next hlt =>
      split
      next heq =>
        subst heq
        exact List.pairwise_cons.2 ⟨hr.1, hr.2⟩
      next hne =>
        refine List.pairwise_cons.2 ⟨fun b hb => ?_, ih hr.2⟩
        rcases mem_insert hb with rfl | hb
        · exact Decidable.byContradiction fun hgt =>
            hne (String.le_antisymm (String.not_lt.1 hlt) (String.not_lt.1 hgt))
        · exact hr.1 b hb

theorem lookup_insert (name value other : String) (entries : List (String × String)) :
    lookup other (insert name value entries) =
      if name = other then some value else lookup other entries := by
  induction entries with
  | nil => simp [insert, lookup]
  | cons a r ih =>
    obtain ⟨n, v⟩ := a
    simp only [insert]
    split
    · simp [lookup]
    · split
      next heq => subst heq; by_cases h : n = other <;> simp [lookup, h]
      next hne =>
        by_cases h : n = other
        · subst h; simp [lookup, Ne.symm hne]
        · simp [lookup, h, ih]

theorem lookup_eq_none_of_lt {name : String} {entries : List (String × String)}
    (h : ∀ e ∈ entries, name < e.1) : lookup name entries = none := by
  induction entries with
  | nil => rfl
  | cons a r ih =>
    have ha : a.1 ≠ name := fun heq => String.lt_irrefl name (heq ▸ h a List.mem_cons_self)
    simp [lookup, ha, ih fun e he => h e (List.mem_cons_of_mem _ he)]

/-- Sorted entries are determined by the values they give to names. -/
theorem eq_of_lookup_eq {es fs : List (String × String)} (hes : Sorted es) (hfs : Sorted fs)
    (h : ∀ name, lookup name es = lookup name fs) : es = fs := by
  induction es generalizing fs with
  | nil =>
    cases fs with
    | nil => rfl
    | cons b fs => simpa [lookup] using h b.1
  | cons a es ih =>
    have ha := List.pairwise_cons.1 hes
    cases fs with
    | nil => simpa [lookup] using h a.1
    | cons b fs =>
      have hb := List.pairwise_cons.1 hfs
      have hab : a.1 = b.1 := by
        refine String.le_antisymm (String.not_lt.1 fun hlt => ?_) (String.not_lt.1 fun hlt => ?_)
        · have hall : ∀ e ∈ a :: es, b.1 < e.1 := fun e he => by
            rcases List.mem_cons.1 he with rfl | he
            · exact hlt
            · exact String.lt_trans hlt (ha.1 e he)
          have := h b.1
          rw [lookup_eq_none_of_lt hall] at this
          simp [lookup] at this
        · have hall : ∀ e ∈ b :: fs, a.1 < e.1 := fun e he => by
            rcases List.mem_cons.1 he with rfl | he
            · exact hlt
            · exact String.lt_trans hlt (hb.1 e he)
          have := h a.1
          rw [lookup_eq_none_of_lt hall] at this
          simp [lookup] at this
      have hval : a.2 = b.2 := by simpa [lookup, hab] using h a.1
      have htail : es = fs := by
        refine ih ha.2 hb.2 fun name => ?_
        by_cases hn : a.1 = name
        · rw [← hn, lookup_eq_none_of_lt ha.1, hab, lookup_eq_none_of_lt hb.1]
        · have := h name
          simpa [lookup, hn, hab ▸ hn] using this
      rw [htail, Prod.ext hab hval]

end Bindings

/-- Values by name. -/
structure Bindings where
  /-- The names with their values, in the order of the names. -/
  toList : List (String × String)
  sorted : Bindings.Sorted toList
  deriving DecidableEq

namespace Bindings

/-- No name has a value. -/
def empty : Bindings := ⟨[], List.Pairwise.nil⟩

instance : Inhabited Bindings := ⟨empty⟩

/-- The value of a name. -/
def get? (b : Bindings) (name : String) : Option String := lookup name b.toList

/-- The number of names with a value. -/
def size (b : Bindings) : Nat := b.toList.length

/-- The bindings with `name` bound to `value`. -/
def set (b : Bindings) (name value : String) : Bindings :=
  ⟨insert name value b.toList, sorted_insert b.sorted name value⟩

/-- The bindings after the pairs have been bound one after another. -/
def setAll (b : Bindings) (pairs : List (String × String)) : Bindings :=
  pairs.foldl (fun b p => b.set p.1 p.2) b

/-- The bindings that pairs describe; of two pairs with one name the later counts. -/
def ofList (pairs : List (String × String)) : Bindings := empty.setAll pairs

/-- The bindings with those of `other` taken over. -/
def extend (b other : Bindings) : Bindings := b.setAll other.toList

theorem ext_get? {b c : Bindings} (h : ∀ name, b.get? name = c.get? name) : b = c := by
  obtain ⟨es, hes⟩ := b
  obtain ⟨fs, hfs⟩ := c
  obtain rfl : es = fs := eq_of_lookup_eq hes hfs h
  rfl

@[simp] theorem get?_empty (name : String) : empty.get? name = none := rfl

theorem get?_set (b : Bindings) (name value other : String) :
    (b.set name value).get? other = if name = other then some value else b.get? other :=
  lookup_insert name value other b.toList

theorem get?_setAll (b : Bindings) (pairs : List (String × String)) (name : String) :
    (b.setAll pairs).get? name = (lookup name pairs.reverse).or (b.get? name) := by
  have lookup_append : ∀ es fs : List (String × String),
      lookup name (es ++ fs) = (lookup name es).or (lookup name fs) := by
    intro es fs
    induction es with
    | nil => simp [lookup]
    | cons a es ih => by_cases h : a.1 = name <;> simp [lookup, h, ih]
  induction pairs generalizing b with
  | nil => simp [setAll, lookup]
  | cons p r ih =>
    have hstep := ih (b.set p.1 p.2)
    simp only [setAll, List.foldl_cons] at hstep ⊢
    rw [hstep, get?_set, List.reverse_cons, lookup_append]
    by_cases h : p.1 = name <;> simp [lookup, h]

theorem lookup_reverse {entries : List (String × String)} (h : Sorted entries) (name : String) :
    lookup name entries.reverse = lookup name entries := by
  have key : ∀ es : List (String × String), (es.map Prod.fst).Nodup →
      ∀ v, lookup name es = some v ↔ (name, v) ∈ es := by
    intro es
    induction es with
    | nil => simp [lookup]
    | cons a es ih =>
      intro hnd v
      obtain ⟨n, w⟩ := a
      simp only [List.map_cons, List.nodup_cons] at hnd
      by_cases hn : n = name
      · subst hn
        have hmem : (n, v) ∉ es := fun hm => hnd.1 (List.mem_map.2 ⟨(n, v), hm, rfl⟩)
        simp [lookup, hmem, eq_comm]
      · simp [lookup, hn, ih hnd.2, Ne.symm hn]
  have hnd : (entries.map Prod.fst).Nodup := by
    rw [List.Nodup, List.pairwise_map]
    exact List.Pairwise.imp (fun {a b : String × String} (hlt : a.1 < b.1) (heq : a.1 = b.1) =>
      String.lt_irrefl b.1 (heq ▸ hlt)) h
  apply Option.ext
  intro v
  have hrev : (entries.reverse.map Prod.fst).Nodup := by
    rw [List.map_reverse]
    exact (List.reverse_perm _).nodup_iff.2 hnd
  rw [key _ hrev, key _ hnd, List.mem_reverse]

theorem get?_extend (b other : Bindings) (name : String) :
    (b.extend other).get? name = (other.get? name).or (b.get? name) := by
  rw [extend, get?_setAll, lookup_reverse other.sorted]
  rfl

end Bindings

end NinjaGen
