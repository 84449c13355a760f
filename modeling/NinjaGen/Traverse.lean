/-!
# One item after another

The items of a list are worked on with `mapM`, one after another, and the first failure ends the
work.

* Of two pieces of work in a row, both succeed or the first failure counts (`bind_eq_ok_iff`,
  `bind_eq_error_iff`).
* The work succeeds when it does on every item (`mapM_eq_ok_iff`, `mapM_eq_ok_iff_map`).
* Otherwise it fails as it does on the first item on which it fails (`mapM_eq_error_iff`).
-/

namespace NinjaGen

variable {α β ε : Type} {f : α → Except ε β}

theorem mapM_cons_of_ok {x : α} {y : β} (h : f x = .ok y) (r : List α) :
    (x :: r).mapM f = (r.mapM f).map (y :: ·) := by
  rw [List.mapM_cons, h]
  rfl

theorem mapM_cons_of_error {x : α} {e : ε} (h : f x = .error e) (r : List α) :
    (x :: r).mapM f = .error e := by
  rw [List.mapM_cons, h]
  rfl

theorem bind_eq_ok_iff {γ : Type} {x : Except ε β} {g : β → Except ε γ} {z : γ} :
    (x >>= g) = .ok z ↔ ∃ y, x = .ok y ∧ g y = .ok z := by
  cases x <;> simp [bind, Except.bind]

theorem bind_eq_error_iff {γ : Type} {x : Except ε β} {g : β → Except ε γ} {e : ε} :
    (x >>= g) = .error e ↔ x = .error e ∨ ∃ y, x = .ok y ∧ g y = .error e := by
  cases x <;> simp [bind, Except.bind]

/-- What follows and never fails does not decide. -/
theorem exists_bind_eq_ok_iff {γ : Type} {x : Except ε β} {g : β → Except ε γ}
    (h : ∀ y, ∃ z, g y = .ok z) : (∃ z, (x >>= g) = .ok z) ↔ ∃ y, x = .ok y := by
  simp only [bind_eq_ok_iff]
  constructor
  · rintro ⟨_, y, hy, -⟩
    exact ⟨y, hy⟩
  · rintro ⟨y, hy⟩
    obtain ⟨z, hz⟩ := h y
    exact ⟨z, y, hy, hz⟩

theorem isOk_iff {x : Except ε β} : x.isOk = true ↔ ∃ y, x = .ok y := by
  cases x <;> simp [Except.isOk, Except.toBool]

theorem exists_error_iff {x : Except ε β} : (∃ e, x = .error e) ↔ ¬ ∃ y, x = .ok y := by
  cases x <;> simp

theorem map_eq_ok_iff {γ : Type} {x : Except ε β} {g : β → γ} {z : γ} :
    x.map g = .ok z ↔ ∃ y, x = .ok y ∧ g y = z := by
  cases x <;> simp [Except.map]

theorem map_eq_error_iff {γ : Type} {x : Except ε β} {g : β → γ} {e : ε} :
    x.map g = .error e ↔ x = .error e := by
  cases x <;> simp [Except.map]

theorem map_map {γ δ : Type} (x : Except ε β) (g : β → γ) (k : γ → δ) :
    (x.map g).map k = x.map (k ∘ g) := by
  cases x <;> rfl

theorem map_eq_map_iff {γ δ : Type} {x : Except ε β} {y : Except ε δ} {g : β → γ} {k : δ → γ} :
    x.map g = y.map k ↔
      (∃ e, x = .error e ∧ y = .error e) ∨ ∃ a c, x = .ok a ∧ y = .ok c ∧ g a = k c := by
  cases x <;> cases y <;> simp [Except.map, eq_comm]

theorem mapError_eq_ok_iff {δ : Type} {x : Except ε β} {g : ε → δ} {y : β} :
    x.mapError g = .ok y ↔ x = .ok y := by
  cases x with
  | error e => constructor <;> intro h <;> cases h
  | ok z => constructor <;> intro h <;> cases h <;> rfl

theorem mapError_eq_error_iff {δ : Type} {x : Except ε β} {g : ε → δ} {d : δ} :
    x.mapError g = .error d ↔ ∃ e, x = .error e ∧ d = g e := by
  cases x with
  | error e =>
    have hmap : (Except.error e : Except ε β).mapError g = .error (g e) := rfl
    rw [hmap]
    simp [eq_comm]
  | ok y => exact iff_of_false nofun nofun

theorem mapM_eq_ok_iff {xs : List α} {ys : List β} :
    xs.mapM f = .ok ys ↔ xs.map f = ys.map .ok := by
  induction xs generalizing ys with
  | nil => cases ys <;> simp [pure, Except.pure]
  | cons x r ih =>
    cases hx : f x with
    | error e =>
      rw [mapM_cons_of_error hx]
      cases ys <;> simp [hx]
    | ok y =>
      rw [mapM_cons_of_ok hx, map_eq_ok_iff]
      cases ys with
      | nil => simp
      | cons z zs =>
        simp only [List.cons.injEq, List.map_cons, hx, Except.ok.injEq, ih]
        exact ⟨fun ⟨_, hm, hy, hz⟩ => ⟨hy, hz ▸ hm⟩, fun ⟨hy, hm⟩ => ⟨zs, hm, hy, rfl⟩⟩

theorem exists_of_mem_of_map_ok {xs : List α} {ys : List β} (h : xs.map f = ys.map .ok) {y : β}
    (hy : y ∈ ys) : ∃ x ∈ xs, f x = .ok y := by
  have : .ok y ∈ xs.map f := h ▸ List.mem_map_of_mem hy
  exact List.mem_map.1 this

theorem exists_ok_of_mem_of_map_ok {xs : List α} {ys : List β} (h : xs.map f = ys.map .ok) {x : α}
    (hx : x ∈ xs) : ∃ y ∈ ys, f x = .ok y := by
  have : f x ∈ ys.map .ok := h ▸ List.mem_map_of_mem hx
  obtain ⟨y, hy, heq⟩ := List.mem_map.1 this
  exact ⟨y, hy, heq.symm⟩

/-- What comes from the results comes from the items. -/
theorem flatMap_eq_of_map_ok {γ : Type} {xs : List α} {ys : List β} (h : xs.map f = ys.map .ok)
    {g : β → List γ} {k : α → List γ} (hgk : ∀ x y, f x = .ok y → g y = k x) :
    ys.flatMap g = xs.flatMap k := by
  induction xs generalizing ys with
  | nil =>
    cases ys with
    | nil => rfl
    | cons => cases h
  | cons x r ih =>
    cases ys with
    | nil => cases h
    | cons y ys =>
      obtain ⟨hx, hr⟩ := List.cons.inj h
      rw [List.flatMap_cons, List.flatMap_cons, hgk x y hx, ih hr]

/-- Work that succeeds under a condition on each item. -/
theorem mapM_eq_ok_iff_map {P : α → Prop} {g : α → β} (h : ∀ x y, f x = .ok y ↔ P x ∧ y = g x)
    {xs : List α} {ys : List β} : xs.mapM f = .ok ys ↔ (∀ x ∈ xs, P x) ∧ ys = xs.map g := by
  rw [mapM_eq_ok_iff]
  induction xs generalizing ys with
  | nil => cases ys <;> simp
  | cons x r ih =>
    cases ys with
    | nil => simp
    | cons y ys =>
      simp only [List.map_cons, List.cons.injEq, h, ih, List.forall_mem_cons]
      exact and_and_and_comm

theorem mapM_eq_error_iff {xs : List α} {e : ε} :
    xs.mapM f = .error e ↔
      ∃ before x after, xs = before ++ x :: after ∧ (∀ y ∈ before, ∃ z, f y = .ok z) ∧
        f x = .error e := by
  induction xs with
  | nil => simp [pure, Except.pure]
  | cons x r ih =>
    simp only [List.cons_eq_append_iff]
    cases hx : f x with
    | error d =>
      rw [mapM_cons_of_error hx]
      constructor
      · intro h
        cases h
        exact ⟨[], x, r, .inl ⟨rfl, rfl⟩, nofun, hx⟩
      · rintro ⟨before, y, after, ⟨rfl, heq⟩ | ⟨before', rfl, -⟩, hok, hy⟩
        · obtain ⟨rfl, -⟩ := List.cons.inj heq
          rw [hx] at hy
          cases hy
          rfl
        · obtain ⟨z, hz⟩ := hok x List.mem_cons_self
          rw [hx] at hz
          cases hz
    | ok d =>
      rw [mapM_cons_of_ok hx, map_eq_error_iff, ih]
      constructor
      · rintro ⟨before, y, after, rfl, hok, hy⟩
        refine ⟨x :: before, y, after, .inr ⟨before, rfl, rfl⟩, fun w hw => ?_, hy⟩
        rcases List.mem_cons.1 hw with rfl | hw
        · exact ⟨d, hx⟩
        · exact hok w hw
      · rintro ⟨before, y, after, ⟨rfl, heq⟩ | ⟨before', rfl, rfl⟩, hok, hy⟩
        · obtain ⟨rfl, -⟩ := List.cons.inj heq
          rw [hx] at hy
          cases hy
        · exact ⟨before', y, after, rfl, fun w hw => hok w (List.mem_cons_of_mem _ hw), hy⟩

end NinjaGen
