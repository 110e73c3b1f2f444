import StaticAlloc.Library.Spans
import Mathlib.Data.List.GetD

/-!
# Arrays of cells in a flat memory

A memory of cells of one size holds at each address at most one value.  Writing a
cell destroys every cell it overlaps, so that two arrays that share a byte cannot
both keep what was written to them: a statement about the contents of an array is
a statement about its place as well.

`Stores m s base xs` says that the cells of size `s` from `base` on hold the list
`xs`.  What happens to it follows the list: an array splits where its list does
(`Stores.append_iff`), a write behind it extends it (`Stores.write_end`), a
write to cells apart from it leaves it alone (`Stores.write_apart`), and it can be
copied onto itself (`Stores.copy`).

Cells of size zero all lie on top of each other.  They destroy nothing, and are
told apart by nothing either, which is why lemmas about them ask for a type whose
values are all equal.
-/

namespace Toolkit

variable {α : Type*}

/-- A memory of cells, by the address at which a cell starts. -/
def Cells (α : Type*) := ℕ → Option α

namespace Cells

variable {m : Cells α} {s base p q : ℕ} {a : α} {xs ys : List α}

/-- Copy `n` cells of size `s`; the two arrays may overlap.  What a cell of the
destination then holds is what the cell at the same place of the source held
before, and a cell that is only partly in the destination is destroyed. -/
def copy (m : Cells α) (s src dst n : ℕ) : Cells α := fun q =>
  if n = 0 then m q
  else if dst ≤ q ∧ q + s ≤ dst + n * s then m (src + (q - dst))
  else if q < dst + n * s ∧ dst < q + s then none
  else m q

/-- Write a cell of size `s`. -/
def write (m : Cells α) (s p : ℕ) (a : α) : Cells α := fun q =>
  if q = p then some a else if q < p + s ∧ p < q + s then none else m q

@[simp] theorem write_self : m.write s p a p = some a := if_pos rfl

theorem write_of_apart (hne : q ≠ p) (h : q + s ≤ p ∨ p + s ≤ q) : m.write s p a q = m q := by
  rw [write, if_neg hne, if_neg (by omega)]

/-- The array of cells of size `s` at `base` holds `xs`. -/
def Stores (m : Cells α) (s base : ℕ) (xs : List α) : Prop :=
  ∀ k x, xs[k]? = some x → m (base + k * s) = some x

theorem Stores.nil : m.Stores s base [] := by
  intro k x h
  exact absurd h (by simp)

theorem Stores.get (h : m.Stores s base xs) {k : ℕ} (hk : k < xs.length) :
    m (base + k * s) = some xs[k] :=
  h k _ (List.getElem?_eq_getElem hk)

/-- Reading the cells one after the other. -/
theorem Stores.map_range (h : m.Stores s base xs) {n : ℕ} (hn : n = xs.length) :
    ((List.range n).map fun k => m (base + k * s)) = xs.map some := by
  refine List.ext_getElem ?_ fun k h₁ h₂ => ?_
  · rw [List.length_map, List.length_map, List.length_range, hn]
  · rw [List.length_map] at h₂
    simp only [List.getElem_map, List.getElem_range]
    exact h.get h₂

/-- An array splits where its list does. -/
theorem Stores.append_iff :
    m.Stores s base (xs ++ ys) ↔ m.Stores s base xs ∧ m.Stores s (base + xs.length * s) ys := by
  constructor
  · intro h
    refine ⟨fun k x hk => h k x ?_, fun k x hk => ?_⟩
    · rw [List.getElem?_append_left (List.getElem?_eq_some_iff.mp hk).1]
      exact hk
    · rw [Nat.add_assoc, ← Nat.add_mul]
      refine h (xs.length + k) x ?_
      rw [List.getElem?_append_right (Nat.le_add_right _ _), Nat.add_sub_cancel_left]
      exact hk
  · rintro ⟨hxs, hys⟩ k x hk
    rcases Nat.lt_or_ge k xs.length with hlt | hge
    · rw [List.getElem?_append_left hlt] at hk
      exact hxs k x hk
    · rw [List.getElem?_append_right hge] at hk
      have := hys _ x hk
      rwa [Nat.add_assoc, ← Nat.add_mul, Nat.add_sub_cancel' hge] at this

theorem Stores.take (h : m.Stores s base xs) (n : ℕ) : m.Stores s base (xs.take n) := by
  rw [← List.take_append_drop n xs, Stores.append_iff] at h
  exact h.1

theorem Stores.drop (h : m.Stores s base xs) {n : ℕ} (hn : n ≤ xs.length) :
    m.Stores s (base + n * s) (xs.drop n) := by
  rw [← List.take_append_drop n xs, Stores.append_iff, List.length_take, min_eq_left hn] at h
  exact h.2

/-- Write the elements of a list, one behind the other. -/
def writeArray (s : ℕ) : Cells α → ℕ → List α → Cells α
  | m, _, [] => m
  | m, p, a :: as => writeArray s (m.write s p a) (p + s) as

/-- No element ends behind the array. -/
theorem end_le {k : ℕ} {x : α} (h : xs[k]? = some x) : k * s + s ≤ xs.length * s := by
  rw [← Nat.succ_mul]
  exact Nat.mul_le_mul_right s (List.getElem?_eq_some_iff.mp h).1

/-- A write apart from the array leaves it alone. -/
theorem Stores.write_apart (hs : s = 0 → Subsingleton α) (h : m.Stores s base xs)
    (hapart : q + s ≤ base ∨ base + xs.length * s ≤ q ∨ s = 0) :
    (m.write s q a).Stores s base xs := by
  intro k x hk
  have hmul : k * s + s ≤ xs.length * s := end_le hk
  by_cases hq : base + k * s = q
  · have hz : s = 0 := by
      rcases hapart with h | h | h
      · omega
      · omega
      · exact h
    have := hs hz
    rw [hq, write_self, Subsingleton.elim a x]
  · rw [write_of_apart hq]
    · exact h k x hk
    · rcases hapart with hq' | hq' | rfl
      · omega
      · omega
      · rw [Nat.mul_zero] at hq ⊢
        omega

/-- A write right behind the array makes it longer. -/
theorem Stores.write_end (hs : s = 0 → Subsingleton α) (h : m.Stores s base xs) :
    (m.write s (base + xs.length * s) a).Stores s base (xs ++ [a]) := by
  rw [Stores.append_iff]
  refine ⟨h.write_apart hs (Or.inr (Or.inl le_rfl)), fun k x hk => ?_⟩
  obtain ⟨hk', hx⟩ := List.getElem?_eq_some_iff.mp hk
  obtain rfl : k = 0 := by
    rw [List.length_singleton] at hk'
    omega
  rw [Nat.zero_mul, Nat.add_zero, write_self]
  exact congrArg some hx

theorem Stores.writeArray_apart (hs : s = 0 → Subsingleton α) {as : List α}
    (h : m.Stores s base xs)
    (hapart : q + as.length * s ≤ base ∨ base + xs.length * s ≤ q ∨ s = 0) :
    (writeArray s m q as).Stores s base xs := by
  induction as generalizing m q with
  | nil => exact h
  | cons a as ih =>
    rw [List.length_cons, Nat.add_mul, Nat.one_mul] at hapart
    exact ih (h.write_apart hs (by omega)) (by omega)

theorem Stores.writeArray_end (hs : s = 0 → Subsingleton α) {as : List α}
    (h : m.Stores s base xs) :
    (writeArray s m (base + xs.length * s) as).Stores s base (xs ++ as) := by
  induction as generalizing m xs with
  | nil => rwa [List.append_nil]
  | cons a as ih =>
    have := ih (h.write_end (a := a) hs)
    rwa [List.length_append, List.length_singleton, Nat.add_mul, Nat.one_mul, ← Nat.add_assoc,
      List.append_assoc] at this

/-- What was copied is at the destination. -/
theorem Stores.copy {src dst : ℕ} (h : m.Stores s src xs) :
    (m.copy s src dst xs.length).Stores s dst xs := by
  intro k x hk
  have hlt : k < xs.length := (List.getElem?_eq_some_iff.mp hk).1
  have hmul : k * s + s ≤ xs.length * s := end_le hk
  rw [Cells.copy, if_neg (by omega), if_pos (by omega), Nat.add_sub_cancel_left]
  exact h k x hk

/-- An array in front of the destination is left alone.  Cells of size zero all lie
on top of each other, so there the copy has to be onto itself. -/
theorem Stores.copy_behind {src dst n : ℕ} (hs : s = 0 → src = dst) (h : m.Stores s base xs)
    (hdst : base + xs.length * s ≤ dst) : (m.copy s src dst n).Stores s base xs := by
  intro k x hk
  have hmul : k * s + s ≤ xs.length * s := end_le hk
  have hread := h k x hk
  rw [Cells.copy]
  split
  · exact hread
  · rcases Nat.eq_zero_or_pos s with hz | hpos
    · have hsrc := hs hz
      subst hz
      split
      · rw [hsrc, show dst + (base + k * 0 - dst) = base + k * 0 by omega]
        exact hread
      · rw [if_neg (by omega)]
        exact hread
    · rw [if_neg (by omega), if_neg (by omega)]
      exact hread

end Cells

end Toolkit
