import StaticAlloc.Core.Memory

/-!
# Shrinking a block where it is

All five arenas implement `Allocator::shrink` by the same function,
`shrink_in_place`.  When the address of the block is not a multiple of the new
alignment, it moves the bytes forward to the next multiple, if they still fit in the
old block there, and refuses otherwise.  The two branches of its `if` end in the
pointer of the shrunk block, but the value of the `if` is discarded by a semicolon,
and the function returns the pointer it was given.

`ShrinkContract` is the contract of the trait.  `shrink_contract_iff` says when it is
kept: when the block need not be moved, or cannot be.  Whenever the bytes are moved,
what is returned is not aligned.
-/

namespace StaticAlloc
namespace AllocatorApi

open Toolkit

variable {w : ℕ} {β : Type}

/-- `AllocError`. -/
inductive AllocError where
  | mk

/-- `size.checked_sub(offset).is_none_or(|n| n < len)`. -/
def tooFar (size offset len : ℕ) : Bool :=
  match checkedSub size offset with
  | none => true
  | some n => decide (n < len)

/-- `shrink_in_place`: the memory afterwards, and the slice returned. -/
def shrinkInPlace (b : Build) (m : Bytes β) (ptr : ℕ) (oldLayout newLayout : Layout w) :
    Except Stop (Bytes β × Except AllocError Span) := do
  debugAssert b (newLayout.size ≤ oldLayout.size) "new_layout.size() <= old_layout.size()"
  let len := newLayout.size
  let offset := alignOffset ptr newLayout.align
  if 0 < offset then
    if tooFar oldLayout.size offset len then
      return (m, .error .mk)
    let dst := ptr + offset
    let m ← ptrCopy ⟨ptr, oldLayout.size⟩ m ptr dst len
    -- the branch ends in `dst`, and its value is discarded
    return (m, .ok ⟨ptr, len⟩)
  else
    return (m, .ok ⟨ptr, len⟩)

/-- `Allocator::shrink` for `BumpView`. -/
def BumpView.shrink (b : Build) (m : Bytes β) (ptr : ℕ) (oldLayout newLayout : Layout w) :
    Except Stop (Bytes β × Except AllocError Span) :=
  shrinkInPlace b m ptr oldLayout newLayout

/-- `Allocator::shrink` for `unsync::BumpSlice`. -/
def UnsyncBumpSlice.shrink (b : Build) (m : Bytes β) (ptr : ℕ)
    (oldLayout newLayout : Layout w) : Except Stop (Bytes β × Except AllocError Span) :=
  shrinkInPlace b m ptr oldLayout newLayout

/-- The arenas that implement `Allocator`. -/
inductive Arena where
  | bump
  | bumpSlice
  | bumpView
  | unsyncBump
  | unsyncBumpSlice
  deriving DecidableEq

/-- `Allocator::shrink`: the other three arenas forward to one of the two. -/
def Arena.shrink (b : Build) (m : Bytes β) (ptr : ℕ) (oldLayout newLayout : Layout w) :
    Arena → Except Stop (Bytes β × Except AllocError Span)
  | .bumpView | .bump | .bumpSlice => BumpView.shrink b m ptr oldLayout newLayout
  | .unsyncBumpSlice | .unsyncBump => UnsyncBumpSlice.shrink b m ptr oldLayout newLayout

/-! ## The contract -/

/-- What `Ok` promises: a block of the new size inside the old one, aligned, with
the first bytes the old block held; nothing outside the old block has changed. -/
structure Shrunk (m m' : Bytes β) (ptr : ℕ) (oldLayout newLayout : Layout w) (s : Span) :
    Prop where
  size : s.size = newLayout.size
  inside : InRegion ⟨ptr, oldLayout.size⟩ s.start s.size
  aligned : newLayout.align ∣ s.start
  contents : Bytes.Same m m' ptr s.start newLayout.size
  frame : Set.EqOn m' m (Span.mk ptr oldLayout.size).addressesᶜ

/-- The call refused and changed no byte, or it kept what `Ok` promises. -/
def ShrinkContract (m : Bytes β) (ptr : ℕ) (oldLayout newLayout : Layout w)
    (r : Except Stop (Bytes β × Except AllocError Span)) : Prop :=
  r = .ok (m, .error .mk) ∨
    ∃ m' s, r = .ok (m', .ok s) ∧ Shrunk m m' ptr oldLayout newLayout s

variable {b : Build} {m : Bytes β} {ptr : ℕ} {oldLayout newLayout : Layout w}

theorem tooFar_iff {size offset len : ℕ} : tooFar size offset len = true ↔ size < offset + len := by
  rw [tooFar, checkedSub]
  split
  · rename_i h
    split at h
    · exact absurd h (by simp)
    · simp only [true_iff]
      omega
  · rename_i n h
    split at h
    · obtain rfl := Option.some.inj h
      rw [decide_eq_true_iff]
      omega
    · exact absurd h (by simp)

/-- What `shrink_in_place` does with a block whose size does not grow. -/
theorem shrinkInPlace_eq (hle : newLayout.size ≤ oldLayout.size) :
    shrinkInPlace b m ptr oldLayout newLayout = .ok (
      if newLayout.align ∣ ptr then (m, .ok ⟨ptr, newLayout.size⟩)
      else if oldLayout.size < padding ptr newLayout.align + newLayout.size then
        (m, .error .mk)
      else (m.copy ptr (ptr + padding ptr newLayout.align) newLayout.size,
        .ok ⟨ptr, newLayout.size⟩)) := by
  have hoffset : newLayout.align ∣ ptr ↔ ¬ 0 < alignOffset ptr newLayout.align := by
    rw [alignOffset, Nat.pos_iff_ne_zero, not_not, padding_eq_zero_iff newLayout.align_pos]
  simp only [shrinkInPlace, debugAssert_true hle, ok_bind]
  by_cases hdvd : newLayout.align ∣ ptr
  · rw [if_pos hdvd, if_neg (hoffset.mp hdvd)]
    rfl
  · rw [if_neg hdvd, if_pos (not_not.mp (mt hoffset.mpr hdvd))]
    by_cases hfar : oldLayout.size < padding ptr newLayout.align + newLayout.size
    · have hfar' : tooFar oldLayout.size (alignOffset ptr newLayout.align) newLayout.size = true :=
        tooFar_iff.mpr hfar
      rw [if_pos hfar, if_pos hfar']
      rfl
    · have hfar' :
          ¬ tooFar oldLayout.size (alignOffset ptr newLayout.align) newLayout.size = true :=
        mt tooFar_iff.mp hfar
      have hsrc : InRegion ⟨ptr, oldLayout.size⟩ ptr newLayout.size :=
        ⟨le_rfl, Nat.add_le_add_left hle _⟩
      have hdst : InRegion ⟨ptr, oldLayout.size⟩ (ptr + alignOffset ptr newLayout.align)
          newLayout.size := by
        refine ⟨Nat.le_add_right _ _, ?_⟩
        show ptr + padding ptr newLayout.align + newLayout.size ≤ ptr + oldLayout.size
        omega
      rw [if_neg hfar, if_neg hfar', ptrCopy_ok hsrc hdst]
      rfl

theorem Arena.shrink_eq (arena : Arena) :
    arena.shrink b m ptr oldLayout newLayout = shrinkInPlace b m ptr oldLayout newLayout := by
  cases arena with
  | bump => rfl
  | bumpSlice => rfl
  | bumpView => rfl
  | unsyncBump => rfl
  | unsyncBumpSlice => rfl

/-- What is returned by a call that keeps the contract is aligned. -/
theorem ShrinkContract.aligned {m' : Bytes β} {s : Span}
    (h : ShrinkContract m ptr oldLayout newLayout (.ok (m', .ok s))) :
    newLayout.align ∣ s.start := by
  rcases h with h | ⟨m'', s', h, hshrunk⟩
  · exact absurd (ok_pair_inj h).2 (by simp)
  · obtain rfl := Except.ok.inj (ok_pair_inj h).2
    exact hshrunk.aligned

/-- **When `shrink` keeps its contract.**  For every arena, every block with any
contents at any address, and every new layout whose size is not larger: exactly when
the address is a multiple of the new alignment already, or the next multiple leaves
too little room in the block. -/
theorem shrink_contract_iff (arena : Arena) (hle : newLayout.size ≤ oldLayout.size) :
    ShrinkContract m ptr oldLayout newLayout (arena.shrink b m ptr oldLayout newLayout) ↔
      newLayout.align ∣ ptr ∨
        oldLayout.size < padding ptr newLayout.align + newLayout.size := by
  rw [arena.shrink_eq, shrinkInPlace_eq hle]
  by_cases hdvd : newLayout.align ∣ ptr
  · rw [if_pos hdvd]
    refine iff_of_true (Or.inr ⟨m, _, rfl, rfl, ?_, hdvd, ?_, ?_⟩) (Or.inl hdvd)
    · exact ⟨le_rfl, Nat.add_le_add_left hle _⟩
    · exact Bytes.Same.refl
    · exact Set.eqOn_refl _ _
  · rw [if_neg hdvd]
    by_cases hfar : oldLayout.size < padding ptr newLayout.align + newLayout.size
    · rw [if_pos hfar]
      exact iff_of_true (Or.inl rfl) (Or.inr hfar)
    · -- the bytes were moved, but the pointer returned is the one the caller passed
      rw [if_neg hfar]
      exact iff_of_false (fun h => hdvd h.aligned) (not_or.mpr ⟨hdvd, hfar⟩)

/-! ## A block at an odd address -/

/-- Eight bytes without an alignment. -/
def eight : Layout 64 := ⟨8, 1, ⟨0, rfl⟩, by decide⟩

/-- Two bytes, aligned to two. -/
def pair : Layout 64 := Ty.halfWord.toLayout

/-- A memory in which every byte holds its own address. -/
def addresses : Bytes ℕ := fun p => p

/-- A block of eight bytes at an odd address, shrunk to two bytes at an even one, is
returned at the odd address; its bytes are at the next. -/
theorem shrink_misaligned :
    Arena.bumpView.shrink .debug addresses 4097 eight pair =
        .ok (addresses.copy 4097 4098 2, .ok ⟨4097, 2⟩) ∧
      ¬ ShrinkContract addresses 4097 eight pair
        (Arena.bumpView.shrink .debug addresses 4097 eight pair) := by
  have heq : Arena.bumpView.shrink .debug addresses 4097 eight pair =
      .ok (addresses.copy 4097 4098 2, .ok ⟨4097, 2⟩) := by
    rw [Arena.shrink_eq, shrinkInPlace_eq (by decide), if_neg (by decide), if_neg (by decide)]
    rfl
  refine ⟨heq, fun h => ?_⟩
  rw [heq] at h
  exact absurd h.aligned (by decide)

/-- At an even address the same call keeps the contract. -/
theorem shrink_contract_iff_even : ShrinkContract addresses 4098 eight pair
    (Arena.unsyncBumpSlice.shrink .release addresses 4098 eight pair) :=
  (shrink_contract_iff .unsyncBumpSlice (by decide)).mpr (Or.inl (by decide))

end AllocatorApi
end StaticAlloc
