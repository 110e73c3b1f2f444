import Mathlib.Data.Multiset.AddSub

/-!
# Trees of owners

A value that owns others is a tree: its label, and the trees of what it owns, in
order.  A tree is destroyed from the root, and what a node owns in the order it is
owned: `preorder`.  How deep a destructor has to recurse is `height`.

Both are defined together with the same for a list of trees, and so are the proofs about
them: one step for a node, one for the empty list and one for a list with a first tree.
-/

namespace Toolkit

/-- A label with the trees below it. -/
inductive Rose (α : Type) where
  | node (label : α) (children : List (Rose α))

namespace Rose

variable {α : Type}

/-- The label at the root. -/
def root : Rose α → α
  | node a _ => a

/-- The trees below the root. -/
def children : Rose α → List (Rose α)
  | node _ ts => ts

mutual

/-- All labels, the root first. -/
def preorder : Rose α → List α
  | node a ts => a :: preorders ts

/-- All labels of a list of trees. -/
def preorders : List (Rose α) → List α
  | [] => []
  | t :: ts => preorder t ++ preorders ts

end

mutual

/-- The number of levels. -/
def height : Rose α → ℕ
  | node _ ts => heights ts + 1

/-- The number of levels of the highest tree of a list. -/
def heights : List (Rose α) → ℕ
  | [] => 0
  | t :: ts => max (height t) (heights ts)

end

/-- The labels, with multiplicity. -/
def labels (t : Rose α) : Multiset α := t.preorder

/-- One more tree below the root. -/
theorem labels_cons (a : α) (t : Rose α) (ts : List (Rose α)) :
    (node a (t :: ts)).labels = t.labels + (node a ts).labels := by
  show ((a :: (preorder t ++ preorders ts) : List α) : Multiset α) =
    (preorder t : Multiset α) + ((a :: preorders ts : List α) : Multiset α)
  rw [Multiset.coe_add]
  exact Multiset.coe_eq_coe.mpr List.perm_middle.symm

end Rose

end Toolkit
