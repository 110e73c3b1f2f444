import StaticAlloc.Core.Usize
import StaticAlloc.Library.Spans

/-!
# Layouts, types and memory regions

`core::alloc::Layout` guarantees two things of every value: the alignment is a
power of two, and the size, rounded up to the alignment, does not exceed
`isize::MAX`.  Both are fields here, so that a layout the language would refuse
cannot be written down, and the constructors that may fail are the source's:
`from_size_align`, `array` and `extend`.

A Rust type enters the model through its layout alone; what distinguishes the
layout of a type is that its size is a multiple of its alignment (`Ty.stride`).

Addresses are natural numbers.  `align_offset` on a byte pointer is the padding
to the next multiple; on a pointer to a zero-sized type it is `0` or
`usize::MAX`, since no number of steps of length zero moves the pointer.
-/

namespace StaticAlloc

open Toolkit

/-- `core::alloc::Layout`. -/
structure Layout (w : ℕ) where
  size : ℕ
  align : ℕ
  /-- The alignment is a power of two. -/
  align_pow : align.isPowerOfTwo
  /-- The size rounded up to the alignment is at most `isize::MAX`. -/
  bounded : size + align ≤ 2 ^ (w - 1)
  deriving DecidableEq

/-- The layout of a sized Rust type. -/
structure Ty (w : ℕ) extends Layout w where
  /-- The size of a type is a multiple of its alignment. -/
  stride : align ∣ size
  deriving DecidableEq

/-- The layout of an arena's header, which holds one `usize`. -/
structure Header (w : ℕ) extends Ty w where
  size_pos : 0 < size

variable {w : ℕ}

namespace Layout

variable (l : Layout w)

theorem align_pos : 0 < l.align := Nat.pos_of_isPowerOfTwo l.align_pow

theorem size_lt : l.size < 2 ^ (w - 1) := by
  have := l.align_pos
  have := l.bounded
  omega

/-- The size of a layout is a `usize`. -/
theorem size_lt_word : l.size < 2 ^ w :=
  lt_of_lt_of_le l.size_lt (Nat.pow_le_pow_right Nat.two_pos (Nat.sub_le w 1))

theorem align_le : l.align ≤ 2 ^ (w - 1) := by
  have := l.bounded
  omega

theorem align_dvd_half : l.align ∣ 2 ^ (w - 1) := by
  obtain ⟨k, hk⟩ := l.align_pow
  have hle : 2 ^ k ≤ 2 ^ (w - 1) := hk ▸ l.align_le
  rw [hk]
  exact Nat.pow_dvd_pow 2 ((Nat.pow_le_pow_iff_right (by decide)).mp hle)

/-- An alignment divides the size of the address space, so aligning commutes
with wrapping. -/
theorem align_dvd : l.align ∣ 2 ^ w := l.align_dvd_half.trans (Nat.pow_dvd_pow 2 (by omega))

/-- Of two alignments the smaller divides the larger. -/
theorem align_dvd_of_le {l l' : Layout w} (h : l.align ≤ l'.align) : l.align ∣ l'.align := by
  obtain ⟨k, hk⟩ := l.align_pow
  obtain ⟨k', hk'⟩ := l'.align_pow
  rw [hk, hk'] at h ⊢
  exact Nat.pow_dvd_pow 2 ((Nat.pow_le_pow_iff_right (by decide)).mp h)

/-- What is aligned for two layouts is aligned for the second. -/
theorem align_dvd_max {l l' : Layout w} : l'.align ∣ max l.align l'.align := by
  rcases le_total l.align l'.align with h | h
  · rw [max_eq_right h]
  · rw [max_eq_left h]
    exact align_dvd_of_le h

/-- `Layout::from_size_align`. -/
def fromSizeAlign (w size align : ℕ) : Option (Layout w) :=
  if h : align.isPowerOfTwo ∧ size + align ≤ 2 ^ (w - 1) then
    some ⟨size, align, h.1, h.2⟩
  else none

/-- `Layout::array::<T>(n)`. -/
def array (T : Ty w) (n : ℕ) : Option (Layout w) :=
  if h : T.size * n + T.align ≤ 2 ^ (w - 1) then
    some ⟨T.size * n, T.align, T.align_pow, h⟩
  else none

/-- `Layout::for_value::<[T]>(&[])`: the layout of an empty slice. -/
def forEmptySlice (T : Ty w) : Layout w where
  size := 0
  align := T.align
  align_pow := T.align_pow
  bounded := by
    have := T.align_le
    omega

/-- `Layout::extend`: the layout of a record followed by one more field, and
the offset of that field. -/
def extend (l next : Layout w) : Option (Layout w × ℕ) :=
  let offset := l.size + padding l.size next.align
  (fromSizeAlign w (offset + next.size) (max l.align next.align)).map (·, offset)

/-- The offsets that `extend` gives to further fields of a record, one after the other. -/
def fieldOffsets (l : Layout w) : List (Layout w) → Option (List ℕ)
  | [] => some []
  | next :: fields => do
    let (l', offset) ← extend l next
    let offsets ← fieldOffsets l' fields
    return offset :: offsets

/-- `Layout::pad_to_align`: the layout of a type with this layout's fields. -/
def padToAlign (l : Layout w) : Ty w where
  size := roundUp l.size l.align
  align := l.align
  align_pow := l.align_pow
  bounded := by
    have hle := roundUp_le l.align_pos (Nat.le_sub_of_add_le l.bounded)
      (Nat.dvd_sub (l.align_dvd_half) (Nat.dvd_refl _))
    have := l.align_le
    omega
  stride := dvd_roundUp l.align_pos

theorem fromSizeAlign_some {size align : ℕ} {l : Layout w}
    (h : fromSizeAlign w size align = some l) : l.size = size ∧ l.align = align := by
  unfold fromSizeAlign at h
  split at h
  · rw [← Option.some.inj h]
    exact ⟨rfl, rfl⟩
  · exact absurd h (by simp)

/-- A record contains the fields it had, and the new one behind them. -/
theorem extend_some {l next l' : Layout w} {offset : ℕ} (h : extend l next = some (l', offset)) :
    l.size ≤ offset ∧ next.align ∣ offset ∧ l'.size = offset + next.size ∧ l.align ≤ l'.align ∧
      next.align ≤ l'.align := by
  obtain ⟨l'', hl'', hpair⟩ := Option.map_eq_some_iff.mp h
  obtain ⟨rfl, rfl⟩ := Prod.mk.inj hpair
  obtain ⟨hsize, halign⟩ := fromSizeAlign_some hl''
  refine ⟨le_roundUp, dvd_roundUp next.align_pos, hsize, ?_, ?_⟩
  · rw [halign]
    exact le_max_left _ _
  · rw [halign]
    exact le_max_right _ _

theorem extend_offset {l next l' : Layout w} {offset : ℕ} (h : extend l next = some (l', offset)) :
    offset = roundUp l.size next.align := by
  obtain ⟨l'', -, hpair⟩ := Option.map_eq_some_iff.mp h
  exact (Prod.mk.inj hpair).2.symm

theorem array_of_le {T : Ty w} {n : ℕ} (h : T.size * n + T.align ≤ 2 ^ (w - 1)) :
    array T n = some ⟨T.size * n, T.align, T.align_pow, h⟩ := dif_pos h

theorem array_some {T : Ty w} {n : ℕ} {l : Layout w} (h : array T n = some l) :
    l.size = T.size * n ∧ l.align = T.align := by
  unfold array at h
  split at h
  · rw [← Option.some.inj h]
    exact ⟨rfl, rfl⟩
  · exact absurd h (by simp)

end Layout

namespace Ty

/-- The type `()`. -/
def unit (w : ℕ) : Ty w where
  size := 0
  align := 1
  align_pow := Nat.isPowerOfTwo_one
  bounded := by
    have := Nat.two_pow_pos (w - 1)
    omega
  stride := ⟨0, rfl⟩

@[simp] theorem unit_size : (unit w).size = 0 := rfl

/-- The type `[T; n]`, if the language accepts it. -/
def array (T : Ty w) (n : ℕ) (h : T.size * n + T.align ≤ 2 ^ (w - 1)) : Ty w where
  size := T.size * n
  align := T.align
  align_pow := T.align_pow
  bounded := h
  stride := T.stride.mul_right n

end Ty

/-- The offsets of the members of a `#[repr(C)]` struct. -/
def Layout.reprC (members : List (Layout w)) : Option (List ℕ) :=
  (Ty.unit w).toLayout.fieldOffsets members

/-- `align_offset` of a pointer to bytes. -/
def alignOffset (addr align : ℕ) : ℕ := padding addr align

/-- `align_offset` of a pointer to `()`: the answer counts elements, and no
number of zero-sized elements moves the pointer. -/
def alignOffsetUnit (w addr align : ℕ) : ℕ := if addr % align = 0 then 0 else usizeMax w

/-- A slice pointer: an address and a number of elements. -/
structure RawSlice where
  ptr : ℕ
  len : ℕ
  deriving DecidableEq

/-- The memory behind an arena: a region that is not null and does not wrap
around the address space. -/
structure Storage (w : ℕ) where
  base : ℕ
  len : ℕ
  nonnull : 0 < base
  fits : base + len ≤ 2 ^ w

/-- The addresses of the region. -/
def Storage.span (S : Storage w) : Span := ⟨S.base, S.len⟩

/-! ## A 64-bit target -/

theorem Layout.isPowerOfTwo_eight : (8 : ℕ).isPowerOfTwo := ⟨3, rfl⟩

/-- The layout of `u16`. -/
def Ty.halfWord : Ty 64 where
  size := 2
  align := 2
  align_pow := ⟨1, rfl⟩
  bounded := by decide
  stride := ⟨1, rfl⟩

/-- The layout of `usize`. -/
def Ty.word : Ty 64 where
  size := 8
  align := 8
  align_pow := Layout.isPowerOfTwo_eight
  bounded := by decide
  stride := ⟨1, rfl⟩

theorem Ty.word_pos : 0 < Ty.word.size := by decide

/-- A header on this target. -/
def Header.word : Header 64 := ⟨Ty.word, Ty.word_pos⟩

/-- The layout of two `usize`. -/
def Ty.twoWords : Ty 64 where
  size := 16
  align := 8
  align_pow := Layout.isPowerOfTwo_eight
  bounded := by decide
  stride := ⟨2, rfl⟩

theorem Ty.twoWords_pos : 0 < Ty.twoWords.size := by decide

/-- Address 4096 is not null. -/
theorem page_pos : 0 < 4096 := by decide

end StaticAlloc
