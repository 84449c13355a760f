import NinjaGen.Path.Order
import Mathlib.Data.List.Basic

/-!
# Paths in order

Paths are put in order by their components, so two paths have one place in the order exactly when
they are spellings of one path (`Path.order_eq_iff`).

* Components are ordered by their kinds, and names by their characters; this is a total order
  (`Component.order_eq_compareLex`), and so is the order of lists of components.
* `Path.pairwise_sort`: paths that are sorted do not go back in the order.
* `Path.IsListing`: paths that go forward in the order. They are determined by what is among them
  (`Path.IsListing.eq_of_mem_iff`).
-/

namespace NinjaGen

namespace Component

/-- Components are ordered by their kinds, and within one kind by their texts. -/
theorem order_eq_compareLex : order = compareLex (compareOn rank) (compareOn text) := by
  funext a b
  cases a <;> cases b
  case normal.normal m n =>
    have hrank : compare 3 3 = .eq := rfl
    simp only [order, compareLex, compareOn, rank, text, hrank, Ordering.then]
  all_goals rfl

instance : Std.TransCmp order := order_eq_compareLex ▸ inferInstance

theorem eq_of_order_eq {a b : Component} (h : order a b = .eq) : a = b := by
  cases a <;> cases b
  case normal.normal m n =>
    have hnames : compare m n = .eq := h
    exact congrArg normal (Std.LawfulEqOrd.eq_of_compare hnames)
  all_goals first | rfl | cases h

instance : Std.LawfulEqCmp order := ⟨eq_of_order_eq⟩

end Component

namespace Path

variable {p q r : Path} {ps qs : List Path}

instance : Std.TransCmp order where
  eq_swap {p q} := by
    rw [order, order]
    exact Std.OrientedCmp.eq_swap
  isLE_trans {p q r} hpq hqr := by
    rw [order] at hpq hqr ⊢
    exact Std.TransCmp.isLE_trans hpq hqr

theorem same_comm (p q : Path) : p.same q = q.same p := by
  rw [Bool.eq_iff_iff, same_iff, same_iff, eq_comm]

/-- **Two paths have one place in the order when they are spellings of one path.** -/
theorem order_eq_iff : p.order q = .eq ↔ p.same q = true := by
  rw [same_iff]
  constructor
  · intro h
    have hcomponents : p.components.compareLex Component.order q.components = .eq := h
    exact Std.LawfulEqCmp.eq_of_compare hcomponents
  · intro h
    rw [order, h]
    exact compareLex_self q.components

theorem le_trans (hpq : p.le q = true) (hqr : q.le r = true) : p.le r = true := by
  rw [le] at hpq hqr ⊢
  exact Std.TransCmp.isLE_trans hpq hqr

theorem le_total (p q : Path) : (p.le q || q.le p) = true := by
  have hswap : p.order q = (q.order p).swap := Std.OrientedCmp.eq_swap
  rw [le, le, hswap]
  cases q.order p <;> rfl

theorem pairwise_sort (ps : List Path) : (sort ps).Pairwise fun p q => p.le q = true := by
  rw [sort]
  exact @List.pairwise_mergeSort Path le (fun _ _ _ => le_trans) le_total ps

theorem sort_perm (ps : List Path) : (sort ps).Perm ps := by
  rw [sort]
  exact List.mergeSort_perm ps le

/-! ## Paths that go forward -/

/-- Whether paths go forward in the order, so that none of them is there twice. -/
def IsListing (ps : List Path) : Prop := ps.Pairwise fun p q => p.order q = .lt

/-- Paths go forward when they do not go back and none is there twice. -/
theorem isListing_iff : IsListing ps ↔
    (ps.Pairwise fun p q => p.le q = true) ∧ ps.Pairwise fun p q => ¬ p.same q = true := by
  rw [IsListing, ← List.pairwise_and_iff]
  refine List.Pairwise.iff fun p q => ?_
  rw [← order_eq_iff, le]
  cases p.order q <;> simp

/-- **Paths that go forward are determined by what is among them.** -/
theorem IsListing.eq_of_mem_iff (hp : IsListing ps) (hq : IsListing qs)
    (h : ∀ p, p ∈ ps ↔ p ∈ qs) : ps = qs := by
  have hirrefl : ∀ {p q : Path}, p.order q = .lt → p ≠ q := by
    rintro p _ hlt rfl
    rw [order_eq_iff.2 p.same_refl] at hlt
    cases hlt
  have hperm : ps.Perm qs :=
    (List.perm_ext_iff_of_nodup (hp.imp hirrefl) (hq.imp hirrefl)).2 h
  refine hperm.eq_of_pairwise (fun p q _ _ hpq hqp => ?_) hp hq
  have hswap : q.order p = (p.order q).swap := Std.OrientedCmp.eq_swap
  rw [hswap, hpq] at hqp
  cases hqp

/-- Paths that go forward are what sorting makes of them in any order. -/
theorem sort_eq_of_perm (hq : IsListing qs) (h : qs.Perm ps) : sort ps = qs := by
  have hsort : IsListing (sort ps) := by
    rw [isListing_iff] at hq ⊢
    refine ⟨pairwise_sort ps, ((h.trans (sort_perm ps).symm).pairwise hq.2 ?_)⟩
    exact fun {p q} hne => by rwa [same_comm]
  exact hsort.eq_of_mem_iff hq fun p => by rw [mem_sort, h.mem_iff]

end Path

end NinjaGen
