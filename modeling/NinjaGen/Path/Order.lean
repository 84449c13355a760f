import NinjaGen.Path.Basic

/-!
# The order of paths

Paths are ordered by their components, one after another: the root first, then `.`, then `..`, and
names after that by their characters. So `a/x` comes before `a-b/x`, although `-` comes before
`/`.

* `Component.le` and `Path.le` are the orders; both are reflexive (`Component.le_refl`,
  `Path.le_refl`).
* `Path.sort` sorts by them and keeps the members (`Path.mem_sort`).
-/

namespace NinjaGen

namespace Component

/-- The place of a kind of component in the order. -/
def rank : Component → Nat
  | root => 0
  | current => 1
  | parent => 2
  | normal _ => 3

/-- The order of two components. -/
def order (a b : Component) : Ordering :=
  match a, b with
  | normal m, normal n => compare m n
  | a, b => compare a.rank b.rank

/-- `a` does not come after `b`. -/
def le (a b : Component) : Bool := (order a b).isLE

theorem order_self (a : Component) : order a a = .eq := by
  cases a <;> simp [order]

theorem le_refl (a : Component) : le a a = true := by simp [le, order_self]

end Component

namespace Path

/-- The order of two paths. -/
def order (p q : Path) : Ordering := p.components.compareLex Component.order q.components

/-- `p` does not come after `q`. -/
def le (p q : Path) : Bool := (p.order q).isLE

theorem compareLex_self (cs : List Component) : cs.compareLex Component.order cs = .eq := by
  induction cs with
  | nil => rfl
  | cons c cs ih => simp [List.compareLex_cons_cons, Component.order_self, ih]

theorem le_refl (p : Path) : p.le p = true := by simp [le, order, compareLex_self]

/-- The paths in order; paths of one place keep the order they have. -/
def sort (ps : List Path) : List Path := ps.mergeSort Path.le

@[simp] theorem mem_sort {p : Path} {ps : List Path} : p ∈ sort ps ↔ p ∈ ps := by
  simp [sort]

end Path

end NinjaGen
