import StaticAlloc.Bump.Sync

/-!
# The unsynchronized arena

`unsync/bump.rs` keeps the same arena behind a plain cell.  A `BumpSlice` is a
header, one `usize` counting the bytes handed out, and the data right behind it;
a `Bump<T>` is the same header followed by the storage for one `T`, and may be
used as a `BumpSlice` only if its data starts where the slice expects it, which
is checked at compile time.  That check is a field of `Bump` here.

An allocation attempt is one function, `tryAllocAt`, since nothing can interrupt
it.  `tryAllocAt_eq` computes it: the block goes to its placement, exactly as in
the shared arena, it is refused when it would not end inside the data, and the
attempt fails with a mismatch when the expected level is not the current one.
-/

namespace StaticAlloc
namespace Unsync

open Toolkit
open Bump (Level Failure Allocation nonNullNew placement)

variable {w : ℕ}

/-- `BumpSlice::layout_from_size`. -/
def layoutFromSize (header : Ty w) (size : ℕ) : Option (Layout w) := do
  let dataTail ← Layout.fromSizeAlign w size 1
  let (layout, _) ← header.extend dataTail
  return layout.padToAlign.toLayout

/-- `BumpSlice::bump`: the index afterwards, and the level found on failure. -/
def bump (b : Build) (S : Storage w) (index expect consume : ℕ) :
    Except Stop (ℕ × Except ℕ Unit) := do
  debugAssert b (consume ≤ S.len) "consume <= self.capacity()"
  debugAssert b (expect ≤ consume) "expect <= consume"
  let prev := index
  if prev ≠ expect then
    return (index, .error prev)
  else
    return (consume, .ok ())

/-- `BumpSlice::try_alloc_at`. -/
def tryAllocAt (b : Build) (S : Storage w) (index : ℕ) (layout : Layout w)
    (expectConsumed : ℕ) : Except Stop (ℕ × Except Failure Allocation) := do
  assert (0 < layout.size) "layout.size() > 0"
  let length := S.len
  let alignment := layout.align
  let requested := layout.size
  assert (expectConsumed ≤ length) s!"{expectConsumed}/{length}"
  let available ← unwrap (checkedSub length expectConsumed)
  let ptrTo := wrappingAdd w S.base expectConsumed
  let offset := alignOffset ptrTo alignment
  if someGt requested (checkedSub available offset) then
    return (index, .error .exhausted)
  assert (offset < available) "offset < available"
  let atAligned ← unwrap (checkedAdd w expectConsumed offset)
  let newConsumed ← unwrap (checkedAdd w atAligned requested)
  assert (newConsumed ≤ length) "new_consumed <= length"
  assert (atAligned < length) "at_aligned < length"
  match ← bump b S index expectConsumed newConsumed with
  | (index, .error observed) => return (index, .error (.mismatch observed))
  | (index, .ok ()) =>
    let aligned := S.base + atAligned
    return (index, .ok ⟨← unwrap (nonNullNew aligned), newConsumed⟩)

/-- What `unreachable!` in `BumpSlice::try_alloc` panics with. -/
def concurrentlyModified : String :=
  "internal error: entered unreachable code: Count in Cell concurrently modified, this UB"

/-- `BumpSlice::try_alloc`. -/
def tryAlloc (b : Build) (S : Storage w) (index : ℕ) (layout : Layout w) :
    Except Stop (ℕ × Except Level Allocation) := do
  let consumed := index
  match ← tryAllocAt b S index layout consumed with
  | (index, .ok alloc) => return (index, .ok alloc)
  | (index, .error .exhausted) => return (index, .error consumed)
  | (_, .error (.mismatch _)) => .error (.panic concurrentlyModified)

/-- `BumpSlice::alloc`. -/
def alloc (b : Build) (S : Storage w) (index : ℕ) (layout : Layout w) :
    Except Stop (ℕ × Option ℕ) := do
  match ← tryAlloc b S index layout with
  | (index, .ok alloc) => return (index, some alloc.ptr)
  | (index, .error _) => return (index, none)

/-- `BumpSlice::alloc_at`. -/
def allocAt (b : Build) (S : Storage w) (index : ℕ) (layout : Layout w) (level : Level) :
    Except Stop (ℕ × Except Failure ℕ) := do
  match ← tryAllocAt b S index layout level with
  | (index, .ok alloc) => return (index, .ok alloc.ptr)
  | (index, .error failure) => return (index, .error failure)

/-- `BumpSlice::get`. -/
def get (b : Build) (S : Storage w) (index : ℕ) (V : Ty w) :
    Except Stop (ℕ × Option Allocation) := do
  match ← tryAlloc b S index V.toLayout with
  | (index, .ok alloc) => return (index, some alloc)
  | (index, .error _) => return (index, none)

/-- `BumpSlice::get_at`. -/
def getAt (b : Build) (S : Storage w) (index : ℕ) (V : Ty w) (level : Level) :
    Except Stop (ℕ × Except Failure Allocation) :=
  tryAllocAt b S index V.toLayout level

/-- `BumpSlice::bump_box`: the address of the box on success. -/
def bumpBox (b : Build) (S : Storage w) (index : ℕ) (T : Ty w) :
    Except Stop (ℕ × Except Failure ℕ) := do
  let level := index
  match ← getAt b S index T level with
  | (index, .error failure) => return (index, .error failure)
  | (index, .ok allocation) => return (index, .ok allocation.ptr)

/-- `BumpSlice::bump_array`: the array on success. -/
def bumpArray (b : Build) (S : Storage w) (index : ℕ) (T : Ty w) (n : ℕ) :
    Except Stop (ℕ × Except Failure RawSlice) := do
  match Layout.array T n with
  | none => return (index, .error .exhausted)
  | some layout =>
    match ← alloc b S index layout with
    | (index, none) => return (index, .error .exhausted)
    | (index, some raw) => return (index, .ok ⟨raw, n⟩)

/-! ## What an attempt does -/

variable {b : Build} {S : Storage w} {index e : ℕ} {l : Layout w}

/-- **What an attempt does.**  For a request of non-zero size and a level inside
the data no assertion fires; the index moves to the end of the block if the block
fits and the level is the current one, and stays otherwise. -/
theorem tryAllocAt_eq (hs : 0 < l.size) (he : e ≤ S.len) :
    tryAllocAt b S index l e = .ok (
      if placement S l e + l.size ≤ S.len then
        if index = e then
          (placement S l e + l.size,
            .ok ⟨S.base + placement S l e, placement S l e + l.size⟩)
        else (index, .error (.mismatch index))
      else (index, .error .exhausted)) := by
  have hfits := S.fits
  have hpos := S.nonnull
  simp only [tryAllocAt, assert_true hs, assert_true he, checkedSub_of_le he, unwrap_some,
    ok_bind, Bump.alignOffset_wrappingAdd, someGt_checkedSub]
  by_cases hfit : placement S l e + l.size ≤ S.len
  · rw [if_pos hfit]
    rw [placement] at hfit ⊢
    generalize padding (S.base + e) l.align = p at hfit ⊢
    have hlt : e + p < S.len := by omega
    have hle : e ≤ e + p + l.size := by omega
    have hnull : S.base + (e + p) ≠ 0 := by omega
    rw [if_neg (by omega), assert_true (by omega), checkedAdd_of_lt (by omega), unwrap_some]
    simp only [ok_bind]
    rw [checkedAdd_of_lt (by omega), unwrap_some]
    simp only [ok_bind, assert_true hfit, assert_true hlt, bump, debugAssert_true hfit,
      debugAssert_true hle]
    by_cases hi : index = e
    · rw [if_neg (not_not_intro hi), if_pos hi]
      simp only [pure_eq_ok, ok_bind, nonNullNew, if_neg hnull, unwrap_some]
    · rw [if_pos hi, if_neg hi]
      rfl
  · rw [if_neg hfit]
    rw [placement] at hfit
    rw [if_pos (by omega)]
    rfl

/-- A zero-size request stops at the first assertion. -/
theorem tryAllocAt_of_size_eq_zero (hs : l.size = 0) :
    tryAllocAt b S index l e = .error (.panic "layout.size() > 0") := by
  rw [tryAllocAt, assert_false (by omega)]
  rfl

theorem tryAlloc_of_size_eq_zero (hs : l.size = 0) :
    tryAlloc b S index l = .error (.panic "layout.size() > 0") := by
  rw [tryAlloc, tryAllocAt_of_size_eq_zero hs]
  rfl

theorem alloc_of_size_eq_zero (hs : l.size = 0) :
    alloc b S index l = .error (.panic "layout.size() > 0") := by
  rw [alloc, tryAlloc_of_size_eq_zero hs]
  rfl

theorem get_of_size_eq_zero {V : Ty w} (hs : V.size = 0) :
    get b S index V = .error (.panic "layout.size() > 0") := by
  rw [get, tryAlloc_of_size_eq_zero hs]
  rfl

theorem bumpArray_of_size_eq_zero {T : Ty w} {n : ℕ} (hs : T.size * n = 0) :
    bumpArray b S index T n = .error (.panic "layout.size() > 0") := by
  have harr : T.size * n + T.align ≤ 2 ^ (w - 1) := by
    rw [hs, Nat.zero_add]
    exact T.align_le
  rw [bumpArray, Layout.array_of_le harr]
  simp only [alloc_of_size_eq_zero (l := ⟨T.size * n, T.align, T.align_pow, harr⟩) hs]
  rfl

/-- A level from outside the data stops at the second. -/
theorem tryAllocAt_of_lt (hs : 0 < l.size) (he : S.len < e) :
    tryAllocAt b S index l e = .error (.panic s!"{e}/{S.len}") := by
  simp only [tryAllocAt, assert_true hs, assert_false (show ¬ e ≤ S.len by omega), ok_bind,
    error_bind]

/-- What `try_alloc` does: it asks for the current level, so there is no mismatch. -/
theorem tryAlloc_eq (hs : 0 < l.size) (hi : index ≤ S.len) :
    tryAlloc b S index l = .ok (
      if placement S l index + l.size ≤ S.len then
        (placement S l index + l.size,
          .ok ⟨S.base + placement S l index, placement S l index + l.size⟩)
      else (index, .error index)) := by
  rw [tryAlloc, tryAllocAt_eq hs hi]
  by_cases hfit : placement S l index + l.size ≤ S.len
  · simp only [if_pos hfit, if_true]
    rfl
  · simp only [if_neg hfit]
    rfl

/-- What `alloc` does. -/
theorem alloc_eq (hs : 0 < l.size) (hi : index ≤ S.len) :
    alloc b S index l = .ok (
      if placement S l index + l.size ≤ S.len then
        (placement S l index + l.size, some (S.base + placement S l index))
      else (index, none)) := by
  rw [alloc, tryAlloc_eq hs hi]
  by_cases hfit : placement S l index + l.size ≤ S.len
  · rw [if_pos hfit, if_pos hfit]
    rfl
  · rw [if_neg hfit, if_neg hfit]
    rfl

/-- What `bump_array` does for an array with a layout. -/
theorem bumpArray_eq {T : Ty w} {n : ℕ} (harr : Layout.array T n = some l) (hs : 0 < l.size)
    (hi : index ≤ S.len) :
    bumpArray b S index T n = .ok (
      if placement S l index + l.size ≤ S.len then
        (placement S l index + l.size, .ok ⟨S.base + placement S l index, n⟩)
      else (index, .error .exhausted)) := by
  rw [bumpArray, harr]
  simp only [alloc_eq hs hi]
  by_cases hfit : placement S l index + l.size ≤ S.len
  · rw [if_pos hfit, if_pos hfit]
    rfl
  · rw [if_neg hfit, if_neg hfit]
    rfl

/-- **What `bump_box` does.**  From an index inside the data, a box for a type of
non-zero size is found at the placement, if it fits. -/
theorem bumpBox_eq {T : Ty w} (hs : 0 < T.size) (hi : index ≤ S.len) :
    bumpBox b S index T = .ok (
      if placement S T.toLayout index + T.size ≤ S.len then
        (placement S T.toLayout index + T.size, .ok (S.base + placement S T.toLayout index))
      else (index, .error .exhausted)) := by
  simp only [bumpBox, getAt, tryAllocAt_eq hs hi, ok_bind, if_true]
  by_cases hfit : placement S T.toLayout index + T.size ≤ S.len
  · rw [if_pos hfit, if_pos hfit]
    rfl
  · rw [if_neg hfit, if_neg hfit]
    rfl

/-- The index stays inside the data. -/
theorem bumpBox_le {T : Ty w} (hs : 0 < T.size) (hi : index ≤ S.len) :
    ∃ index' r, bumpBox b S index T = .ok (index', r) ∧ index' ≤ S.len := by
  rw [bumpBox_eq hs hi]
  by_cases hfit : placement S T.toLayout index + T.size ≤ S.len
  · rw [if_pos hfit]
    exact ⟨_, _, rfl, hfit⟩
  · rw [if_neg hfit]
    exact ⟨_, _, rfl, hi⟩

theorem bumpBox_of_size_eq_zero {T : Ty w} (hs : T.size = 0) :
    bumpBox b S index T = .error (.panic "layout.size() > 0") := by
  simp only [bumpBox, getAt, tryAllocAt_of_size_eq_zero hs, error_bind]

/-! ## An arena with the storage for one `T` -/

/-- `offset_of!(Bump<T>, _data)`, under `repr(C)`: behind the header, at the
alignment of `T`. -/
def offsetOfData (header T : Ty w) : ℕ := roundUp header.size T.align

/-- A `Bump<T>` in memory, of a type that dereferences to a `BumpSlice`. -/
structure Bump (header T : Ty w) where
  addr : ℕ
  nonnull : 0 < addr
  /-- The alignment of the struct is the larger one of its fields'. -/
  aligned : max header.align T.align ∣ addr
  fits : addr + offsetOfData header T + T.size ≤ 2 ^ w
  /-- `EnsureDerefIsApplicable::<T>::ASSERT`. -/
  applicable : offsetOfData header T = header.size

namespace Bump

variable {header T : Ty w}

/-- `Deref for Bump<T>`: the data of the `BumpSlice`. -/
def storage (B : Bump header T) : Storage w where
  base := B.addr + header.size
  len := T.size
  nonnull := Nat.add_pos_left B.nonnull _
  fits := by
    have := B.fits
    rwa [B.applicable] at this

/-- Every type whose alignment is at most that of the header passes the
compile-time check. -/
theorem applicable_of_align_le (h : T.align ≤ header.align) :
    offsetOfData header T = header.size :=
  roundUp_eq_self T.align_pos ((Layout.align_dvd_of_le h).trans header.stride)

/-- **A fresh arena has room for its `T`.**  The data is aligned for `T`, and
exactly as large. -/
theorem placement_zero (B : Bump header T) : placement B.storage T.toLayout 0 = 0 := by
  have hheader : T.align ∣ header.size := by
    rw [← B.applicable]
    exact dvd_roundUp T.align_pos
  have hbase : T.align ∣ B.addr + header.size :=
    Nat.dvd_add (Layout.align_dvd_max.trans B.aligned) hheader
  rw [placement, Nat.zero_add, Nat.add_zero]
  exact (padding_eq_zero_iff T.align_pos).mpr hbase

end Bump

end Unsync
end StaticAlloc
