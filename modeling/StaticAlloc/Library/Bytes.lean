import StaticAlloc.Library.Spans
import Mathlib.Data.Set.Function

/-!
# Copying and filling in a memory of bytes

A memory of bytes gives every address a byte; what a byte is does not matter.
`copy` writes a range of bytes as they were before the call, so that the two ranges
may overlap.  What it does is two facts, one for the bytes it writes
(`copy_same`) and one for all others (`copy_eqOn`); and so for `fill`, which writes one
byte all over a range, `store`, which writes it once, and `put`, which writes the bytes
of a list.
-/

namespace Toolkit

variable {β : Type*}

/-- A memory of bytes, by address. -/
def Bytes (β : Type*) := ℕ → β

namespace Bytes

variable {m m' : Bytes β} {src dst n : ℕ} {A : Set ℕ}

/-- Copy `n` bytes; all of them are read before any is written. -/
def copy (m : Bytes β) (src dst n : ℕ) : Bytes β := fun q =>
  if dst ≤ q ∧ q < dst + n then m (src + (q - dst)) else m q

/-- Write one byte `n` times. -/
def fill (m : Bytes β) (dst n : ℕ) (b : β) : Bytes β := fun q =>
  if dst ≤ q ∧ q < dst + n then b else m q

/-- Store one byte. -/
def store (m : Bytes β) (p : ℕ) (b : β) : Bytes β := fun q => if q = p then b else m q

/-- Store the bytes of a list. -/
def put (m : Bytes β) (dst : ℕ) (l : List β) : Bytes β := fun q =>
  if dst ≤ q then l[q - dst]?.getD (m q) else m q

/-- The `n` bytes from an address on. -/
def get (m : Bytes β) (src n : ℕ) : List β := (List.range n).map fun k => m (src + k)

/-- The `n` bytes at `dst` in the second memory are those at `src` in the first. -/
def Same (m m' : Bytes β) (src dst n : ℕ) : Prop := ∀ k, k < n → m' (dst + k) = m (src + k)

theorem copy_same : Same m (m.copy src dst n) src dst n := by
  intro k hk
  rw [copy, if_pos ⟨Nat.le_add_right _ _, Nat.add_lt_add_left hk _⟩, Nat.add_sub_cancel_left]

theorem copy_eqOn (h : Disjoint A (Span.mk dst n).addresses) : Set.EqOn (m.copy src dst n) m A := by
  intro q hq
  exact if_neg fun hmem => Set.disjoint_left.mp h hq (Span.mem_addresses.mpr hmem)

theorem fill_at {b : β} {k : ℕ} (hk : k < n) : m.fill dst n b (dst + k) = b :=
  if_pos ⟨Nat.le_add_right _ _, Nat.add_lt_add_left hk _⟩

theorem fill_eqOn {b : β} (h : Disjoint A (Span.mk dst n).addresses) :
    Set.EqOn (m.fill dst n b) m A := by
  intro q hq
  exact if_neg fun hmem => Set.disjoint_left.mp h hq (Span.mem_addresses.mpr hmem)

theorem store_eqOn {p : ℕ} {b : β} (h : p ∉ A) : Set.EqOn (m.store p b) m A := by
  intro q hq
  exact if_neg fun heq : q = p => h (heq ▸ hq)

theorem put_at {l : List β} {k : ℕ} {b : β} (h : l[k]? = some b) : m.put dst l (dst + k) = b := by
  rw [put, if_pos (Nat.le_add_right _ _), Nat.add_sub_cancel_left, h]
  rfl

theorem put_eqOn {l : List β} (h : Disjoint A (Span.mk dst l.length).addresses) :
    Set.EqOn (m.put dst l) m A := by
  intro q hq
  rw [put]
  split
  · rename_i hle
    have hout : l[q - dst]? = none := by
      rw [List.getElem?_eq_none_iff]
      by_contra hlt
      have hmem : dst ≤ q ∧ q < dst + l.length := by omega
      exact Set.disjoint_left.mp h hq (Span.mem_addresses.mpr hmem)
    rw [hout]
    rfl
  · rfl

@[simp] theorem put_nil : m.put dst [] = m := by
  funext q
  simp [put]

theorem put_at_none {l : List β} {k : ℕ} (h : l[k]? = none) :
    m.put dst l (dst + k) = m (dst + k) := by
  rw [put, if_pos (Nat.le_add_right _ _), Nat.add_sub_cancel_left, h]
  rfl

@[simp] theorem get_length : (m.get src n).length = n := by
  rw [get, List.length_map, List.length_range]

theorem get_at {k : ℕ} (hk : k < n) : (m.get src n)[k]? = some (m (src + k)) := by
  rw [get, List.getElem?_map, List.getElem?_range hk]
  rfl

/-- The bytes of a range that does not change. -/
theorem get_congr (h : Set.EqOn m' m (Span.mk src n).addresses) : m'.get src n = m.get src n := by
  refine List.map_congr_left fun k hk => ?_
  have hlt := List.mem_range.mp hk
  exact h (Span.mem_addresses.mpr ⟨Nat.le_add_right _ _, Nat.add_lt_add_left hlt _⟩)

/-- The bytes of a range that has one byte all over. -/
theorem get_eq_replicate {b : β} (h : ∀ k < n, m (src + k) = b) :
    m.get src n = List.replicate n b := by
  rw [get, List.map_congr_left fun k hk => h k (List.mem_range.mp hk), List.map_const',
    List.length_range]

/-- Storing a byte of a range. -/
theorem get_store {k : ℕ} {b : β} : (m.store (src + k) b).get src n = (m.get src n).set k b := by
  refine List.ext_getElem? fun q => ?_
  rw [List.getElem?_set, get_length]
  by_cases hq : q < n
  · rw [get_at hq, store]
    by_cases hkq : k = q
    · rw [if_pos (by rw [hkq]), if_pos hkq, if_pos (hkq ▸ hq)]
    · rw [if_neg (by omega), if_neg hkq, get_at hq]
  · have hlen : ∀ m : Bytes β, (m.get src n)[q]? = none := fun m =>
      List.getElem?_eq_none_iff.mpr (by rw [get_length]; omega)
    rw [hlen, hlen]
    split
    · exact (if_neg (by omega)).symm
    · rfl

/-- A copy stores the bytes that were read. -/
theorem copy_eq_put : m.copy src dst n = m.put dst (m.get src n) := by
  funext q
  rw [copy, put]
  by_cases hle : dst ≤ q
  · rw [if_pos hle]
    by_cases hlt : q - dst < n
    · rw [if_pos ⟨hle, by omega⟩, get_at hlt]
      rfl
    · rw [if_neg fun h => hlt (by omega), List.getElem?_eq_none_iff.mpr (by rw [get_length]; omega)]
      rfl
  · rw [if_neg hle, if_neg fun h => hle h.1]

theorem Same.refl : Same m m src src n := fun _ _ => rfl

end Bytes

end Toolkit
