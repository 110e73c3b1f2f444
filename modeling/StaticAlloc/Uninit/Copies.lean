import StaticAlloc.Bump.Local
import StaticAlloc.Library.Cells
import StaticAlloc.Uninit.View

/-!
# Slices that go through an `Uninit`

A slice that is copied into an allocation, or handed out as an `Uninit` and taken
back, is for a while only an address and a number of bytes.  The number of its
elements is not kept; it is computed again from the bytes, by the cast to a slice
view and by `capacity`.

For elements with bytes that is a division without remainder.  For elements
without bytes nothing can be computed, and the source has two answers: an empty
slice where it substitutes `Uninit::empty`, and `usize::MAX` elements where it
casts.  So a copy of a slice of such elements has none (`copySlice_exact_iff`), and
the round trip makes as many as can be counted (`roundTrip_iff`).

An allocator returns a block with a layout, which has at least the size that was
asked for.  All of the block becomes the slice, so a block with room for another
element makes the copy longer than the original.
-/

namespace StaticAlloc

open Toolkit
open AllocTraits (NonZeroLayout Allocation)

variable {w : ℕ} {α : Type} {T : Ty w}

/-- A reference to a slice `[T]`: what the language promises of it. -/
structure SliceRef (T : Ty w) extends RawSlice where
  nonnull : 0 < ptr
  aligned : T.align ∣ ptr
  /-- No slice has more than `isize::MAX` bytes. -/
  bounded : T.size * len + T.align ≤ 2 ^ (w - 1)

/-- What is in the cells of a slice. -/
def RawSlice.elements (T : Ty w) (m : Cells α) (s : RawSlice) : List (Option α) :=
  (List.range s.len).map fun k => m (s.ptr + k * T.size)

namespace SliceRef

/-- `Layout::for_value`. -/
def layout (s : SliceRef T) : Layout w := (Ty.array T s.len s.bounded).toLayout

theorem size_lt (s : SliceRef T) : s.len * T.size < 2 ^ w := by
  rw [Nat.mul_comm]
  exact s.layout.size_lt_word

end SliceRef

namespace UninitSlice

/-- `Uninit::into_mut`: the slice pointer, turned into a reference. -/
def intoMut (s : UninitSlice T) : RawSlice := ⟨s.ptr, s.sliceLen⟩

/-- `Uninit::into_maybe_uninit_slice`. -/
def intoMaybeUninitSlice (s : UninitSlice T) : RawSlice := ⟨s.ptr, s.capacity⟩

end UninitSlice

/-! ## Copies -/

/-- An allocator, as `LocalAlloc` asks for it: a block is aligned, and of at least the
size that was requested. -/
structure LocalAlloc (w : ℕ) where
  alloc : NonZeroLayout w → Option (Allocation w)
  nonnull : ∀ {layout a}, alloc layout = some a → 0 < a.ptr
  aligned : ∀ {layout a}, alloc layout = some a → layout.align ∣ a.ptr
  large : ∀ {layout a}, alloc layout = some a → layout.size ≤ a.layout.size

namespace LocalAllocLeakExt

/-- `LocalAllocLeakExt::alloc_layout`. -/
def allocLayout (A : LocalAlloc w) (layout : NonZeroLayout w) :
    Option (UninitView (Ty.unit w)) :=
  match h : A.alloc layout with
  | none => none
  | some alloc => some (UninitView.fromMemory alloc.ptr alloc.layout.size (A.nonnull h)
      alloc.layout.size_lt_word)

/-- `LeakedAllocation::cast_slice`. -/
def castSlice (U : Ty w) (allocation : UninitView T) : Option (UninitSlice U) :=
  (allocation.castSlice U).toOption

/-- `LocalAllocLeakExt::copy_slice`: the memory afterwards, and the copy. -/
def copySlice (A : LocalAlloc w) (m : Cells α) (slice : SliceRef T) :
    Except Stop (Cells α × Option RawSlice) := do
  let uninit ← match NonZeroLayout.fromLayout slice.layout with
    | none => .ok (some (UninitSlice.empty T))
    | some layout =>
      match allocLayout A layout with
      | none => .ok none
      | some allocation => do
        let rightType ← unwrap (castSlice T allocation)
        .ok (some rightType)
  match uninit with
  | none => .ok (m, none)
  | some uninit => .ok (m.copy T.size slice.ptr uninit.ptr slice.len, some uninit.intoMut)

/-- The type `u8`. -/
def u8 (hw : 2 ≤ w) : Ty w where
  size := 1
  align := 1
  align_pow := Nat.isPowerOfTwo_one
  bounded := by
    have hle : 2 ^ 1 ≤ 2 ^ (w - 1) := Nat.pow_le_pow_right Nat.two_pos (by omega)
    omega
  stride := ⟨1, rfl⟩

/-- `LocalAllocLeakExt::copy_str`: a string is the slice of its bytes. -/
def copyStr {hw : 2 ≤ w} (A : LocalAlloc w) (m : Cells UInt8) (st : SliceRef (u8 hw)) :
    Except Stop (Cells UInt8 × Option RawSlice) :=
  copySlice A m st

/-! ## What becomes of the number of elements -/

variable {A : LocalAlloc w} {m : Cells α} {s : SliceRef T}

theorem allocLayout_none {layout : NonZeroLayout w} (h : A.alloc layout = none) :
    allocLayout A layout = none := by
  rw [allocLayout]
  split
  · rfl
  · rename_i h'
    exact absurd (h.symm.trans h') (by simp)

theorem allocLayout_some {layout : NonZeroLayout w} {a : Allocation w}
    (h : A.alloc layout = some a) :
    ∃ v, allocLayout A layout = some v ∧ v.span = ⟨a.ptr, a.layout.size⟩ := by
  rw [allocLayout]
  split
  · rename_i h'
    exact absurd (h.symm.trans h') (by simp)
  · rename_i a' h'
    obtain rfl := Option.some.inj (h.symm.trans h')
    exact ⟨_, rfl, rfl⟩

/-- Nothing is allocated for a slice without bytes, and the copy has no elements. -/
theorem copySlice_empty (h : ¬ 0 < s.layout.size) :
    copySlice A m s = .ok (m.copy T.size s.ptr T.align s.len, some ⟨T.align, 0⟩) := by
  have hnone : NonZeroLayout.fromLayout s.layout = none := dif_neg h
  rw [copySlice, hnone]
  rfl

/-- A copy that the allocator has no memory for. -/
theorem copySlice_none {h : 0 < s.layout.size} (halloc : A.alloc ⟨s.layout, h⟩ = none) :
    copySlice A m s = .ok (m, none) := by
  rw [copySlice, NonZeroLayout.fromLayout_of_pos h]
  simp only [allocLayout_none halloc]
  rfl

/-- A copy has as many elements as the block that was allocated has room for. -/
theorem copySlice_some {h : 0 < s.layout.size} {a : Allocation w}
    (halloc : A.alloc ⟨s.layout, h⟩ = some a) :
    copySlice A m s = .ok (m.copy T.size s.ptr a.ptr s.len,
      some ⟨a.ptr, a.layout.size / T.size⟩) := by
  obtain ⟨v, hv, hspan⟩ := allocLayout_some halloc
  have hptr : v.ptr = a.ptr := congrArg Span.start hspan
  have hlen : v.len = a.layout.size := congrArg Span.size hspan
  have hpos : 0 < T.size := Nat.pos_of_mul_pos_right h
  have halign : T.align ∣ v.ptr := by
    rw [hptr]
    exact A.aligned halloc
  obtain ⟨u, hu, huspan⟩ := UninitView.castSlice_ok (v := v) (U := T)
    (fits_iff.mpr ⟨halign, Nat.zero_le _⟩)
  have huptr : u.ptr = a.ptr := (congrArg Span.start huspan).trans hptr
  have hulen : u.sliceLen = a.layout.size / T.size := by
    rw [UninitSlice.castSlice_sliceLen hu, UninitSlice.capacity_of_size_pos hpos, ← hlen]
    exact congrArg (· / T.size) (congrArg Span.size huspan)
  rw [copySlice, NonZeroLayout.fromLayout_of_pos h]
  simp only [hv, castSlice, hu, Except.toOption, unwrap_some, ok_bind, UninitSlice.intoMut, huptr,
    hulen]

/-- What `copy_slice` should do: there is no copy, or it has the elements of the slice. -/
def CopiesExactly (A : LocalAlloc w) (m : Cells α) (s : SliceRef T) (items : List α) : Prop :=
  ∃ m' copy, copySlice A m s = .ok (m', copy) ∧
    ∀ c, copy = some c → c.len = s.len ∧ c.elements T m' = items.map some

/-- The block for the copy of a slice has no room for a further element. -/
def Exact (A : LocalAlloc w) (s : SliceRef T) : Prop :=
  ∀ (h : 0 < s.layout.size) (a : Allocation w), A.alloc ⟨s.layout, h⟩ = some a →
    a.layout.size < T.size * (s.len + 1)

/-- A copy is exact if the elements have bytes, or there are none, and the block for
it has no room for another one. -/
theorem copySlice_exact_iff {items : List α} (hlen : s.len = items.length)
    (hstores : m.Stores T.size s.ptr items) :
    CopiesExactly A m s items ↔ (T.size = 0 → s.len = 0) ∧ Exact A s := by
  by_cases h : 0 < s.layout.size
  · have hsize : 0 < T.size * s.len := h
    have hpos : 0 < T.size := Nat.pos_of_mul_pos_right hsize
    have hzero : T.size = 0 → s.len = 0 := fun hz => absurd hz hpos.ne'
    cases halloc : A.alloc ⟨s.layout, h⟩ with
    | none =>
      refine iff_of_true ⟨m, none, copySlice_none halloc, fun c hc => absurd hc (by simp)⟩
        ⟨hzero, fun h' a ha => ?_⟩
      exact absurd (halloc.symm.trans ha) (by simp)
    | some a =>
      have hlarge : T.size * s.len ≤ a.layout.size := A.large halloc
      have hle : s.len ≤ a.layout.size / T.size := by
        rw [Nat.le_div_iff_mul_le hpos, Nat.mul_comm]
        exact hlarge
      have hiff : a.layout.size / T.size = s.len ↔ a.layout.size < T.size * (s.len + 1) := by
        rw [Nat.mul_comm, ← Nat.div_lt_iff_lt_mul hpos]
        omega
      constructor
      · rintro ⟨m', copy, hcopy, hall⟩
        obtain ⟨-, rfl⟩ := ok_pair_inj ((copySlice_some halloc).symm.trans hcopy)
        refine ⟨hzero, fun h' a' ha' => ?_⟩
        obtain rfl := Option.some.inj (halloc.symm.trans ha')
        exact hiff.mp (hall _ rfl).1
      · rintro ⟨-, hexact⟩
        have hdiv := hiff.mpr (hexact h a halloc)
        refine ⟨_, _, copySlice_some halloc, fun c hc => ?_⟩
        obtain rfl := Option.some.inj hc
        refine ⟨hdiv, ?_⟩
        rw [hlen]
        exact hstores.copy.map_range (hdiv.trans hlen)
  · have hsize : T.size * s.len = 0 := Nat.eq_zero_of_not_pos h
    constructor
    · rintro ⟨m', copy, hcopy, hall⟩
      obtain ⟨-, rfl⟩ := ok_pair_inj ((copySlice_empty h).symm.trans hcopy)
      exact ⟨fun _ => (hall _ rfl).1.symm, fun h' => absurd h' h⟩
    · rintro ⟨hzero, -⟩
      have hnone : s.len = 0 := by
        rcases Nat.mul_eq_zero.mp hsize with hz | hz
        · exact hzero hz
        · exact hz
      refine ⟨_, _, copySlice_empty h, fun c hc => ?_⟩
      obtain rfl := Option.some.inj hc
      refine ⟨hnone.symm, ?_⟩
      rw [List.eq_nil_of_length_eq_zero (hlen.symm.trans hnone)]
      rfl

end LocalAllocLeakExt

/-! ## There and back -/

namespace UninitSlice

/-- A slice of `MaybeUninit<T>` as an `Uninit`, and back. -/
theorem roundTrip_eq (s : SliceRef T) :
    ∃ u, fromMaybeUninitSlice T s.ptr s.len s.nonnull s.size_lt = .ok u ∧
      u.intoMaybeUninitSlice = ⟨s.ptr, if T.size = 0 then usizeMax w else s.len⟩ := by
  obtain ⟨u, hu, hspan⟩ := UninitView.castSlice_ok (U := T)
    (v := UninitView.fromMemory s.ptr (s.len * T.size) s.nonnull s.size_lt)
    (fits_iff.mpr ⟨s.aligned, Nat.zero_le _⟩)
  have hptr : u.ptr = s.ptr := congrArg Span.start hspan
  have hlen : u.len = s.len * T.size := congrArg Span.size hspan
  refine ⟨u, by rw [fromMaybeUninitSlice, hu]; rfl, ?_⟩
  rw [intoMaybeUninitSlice, hptr]
  rcases Nat.eq_zero_or_pos T.size with hz | hpos
  · rw [capacity_of_size_eq_zero hz, if_pos hz]
  · rw [capacity_of_size_pos hpos, hlen, Nat.mul_div_cancel _ hpos, if_neg hpos.ne']

theorem roundTrip_iff (s : SliceRef T) :
    ∃ u, fromMaybeUninitSlice T s.ptr s.len s.nonnull s.size_lt = .ok u ∧
      (u.intoMaybeUninitSlice = s.toRawSlice ↔ 0 < T.size ∨ s.len = usizeMax w) := by
  obtain ⟨u, hu, hround⟩ := roundTrip_eq s
  refine ⟨u, hu, ?_⟩
  rw [hround]
  rcases Nat.eq_zero_or_pos T.size with hz | hpos
  · rw [if_pos hz, or_iff_right (by omega)]
    exact ⟨fun h => (congrArg RawSlice.len h).symm, fun h => by rw [← h]⟩
  · rw [if_neg hpos.ne']
    exact iff_of_true rfl (Or.inl hpos)

end UninitSlice

/-! ## All conversions -/

namespace LocalAllocLeakExt

/-- No cast of a copy fails. -/
theorem copySlice_returns (A : LocalAlloc w) (m : Cells α) (s : SliceRef T) :
    ∃ m' copy, copySlice A m s = .ok (m', copy) := by
  by_cases h : 0 < s.layout.size
  · cases halloc : A.alloc ⟨s.layout, h⟩ with
    | none => exact ⟨_, _, copySlice_none halloc⟩
    | some a => exact ⟨_, _, copySlice_some halloc⟩
  · exact ⟨_, _, copySlice_empty h⟩

/-- **When a slice survives a conversion.**  No cast fails.  A copy is exact if and
only if the elements have bytes, or there are none, and the block that the allocator
returns has no room for a further element; for the bytes of a string only the latter
matters.  A slice that is turned into an `Uninit` and back is the same slice if and
only if its elements have bytes, or there are `usize::MAX` of them. -/
theorem conversions_exact_iff (T : Ty w) :
    (∀ (A : LocalAlloc w) (m : Cells α) (s : SliceRef T) (items : List α),
      s.len = items.length → m.Stores T.size s.ptr items →
      (∃ m' copy, copySlice A m s = .ok (m', copy)) ∧
      (CopiesExactly A m s items ↔ (T.size = 0 → s.len = 0) ∧ Exact A s)) ∧
    (∀ (hw : 2 ≤ w) (A : LocalAlloc w) (m : Cells UInt8) (st : SliceRef (u8 hw)) (text : String),
      st.len = text.toUTF8.data.toList.length →
      m.Stores (u8 hw).size st.ptr text.toUTF8.data.toList →
      ((∃ m' copy, copyStr A m st = .ok (m', copy) ∧ ∀ c, copy = some c → c.len = st.len ∧
        c.elements (u8 hw) m' = text.toUTF8.data.toList.map some) ↔ Exact A st)) ∧
    ∀ s : SliceRef T, ∃ u,
      UninitSlice.fromMaybeUninitSlice T s.ptr s.len s.nonnull s.size_lt = .ok u ∧
      (u.intoMaybeUninitSlice = s.toRawSlice ↔ 0 < T.size ∨ s.len = usizeMax w) := by
  refine ⟨fun A m s items hlen hstores => ?_, fun hw A m st text hlen hstores => ?_,
    UninitSlice.roundTrip_iff⟩
  · exact ⟨copySlice_returns A m s, copySlice_exact_iff hlen hstores⟩
  · refine (copySlice_exact_iff hlen hstores).trans (and_iff_right fun hz => ?_)
    exact absurd hz (Nat.succ_ne_zero 0)

/-- An allocator that has sixteen bytes. -/
def sixteenBytes : LocalAlloc 64 where
  alloc layout := if layout.size ≤ 16 ∧ layout.align ∣ 8192 then
    some ⟨8192, ⟨Ty.twoWords.toLayout, Ty.twoWords_pos⟩⟩ else none
  nonnull {layout a} h := by
    split at h
    · rw [← Option.some.inj h]
      exact Nat.succ_pos _
    · exact absurd h (by simp)
  aligned {layout a} h := by
    split at h
    · rw [← Option.some.inj h]
      exact And.right ‹_›
    · exact absurd h (by simp)
  large {layout a} h := by
    split at h
    · rw [← Option.some.inj h]
      exact And.left ‹_›
    · exact absurd h (by simp)

/-- Two words are copied into the sixteen bytes. -/
theorem conversions_exact_iff_words :
    let s : SliceRef Ty.word := ⟨⟨4096, 2⟩, page_pos, by decide, by decide⟩
    let m : Cells ℕ := fun q => if q = 4096 then some 5 else if q = 4104 then some 6 else none
    CopiesExactly sixteenBytes m s [5, 6] := by
  intro s m
  have hstores : m.Stores Ty.word.size s.ptr [5, 6] := by
    intro k x hk
    have hlt : k < 2 := (List.getElem?_eq_some_iff.mp hk).1
    obtain rfl | rfl : k = 0 ∨ k = 1 := by omega
    · exact hk
    · exact hk
  have hexact : Exact sixteenBytes s := by
    intro h a ha
    have hroom : 16 ≤ 16 ∧ 8 ∣ 8192 := by decide
    obtain rfl := Option.some.inj ((if_pos hroom).symm.trans ha)
    decide
  exact (((conversions_exact_iff Ty.word).1 sixteenBytes m s [5, 6] rfl hstores).2).mpr
    ⟨fun hz => absurd hz (by decide), hexact⟩

/-- **Elements without bytes are lost or multiplied.**  The copy of two `()` is
empty, and two `()` turned into an `Uninit` and back are `usize::MAX`.  A single word
that is copied into sixteen bytes becomes two. -/
theorem conversions_not_exact :
    let units : SliceRef (Ty.unit 64) := ⟨⟨4096, 2⟩, page_pos, by decide, by decide⟩
    let word : SliceRef Ty.word := ⟨⟨4096, 1⟩, page_pos, by decide, by decide⟩
    (∀ (A : LocalAlloc 64) (m : Cells Unit), ∃ m', copySlice A m units = .ok (m', some ⟨1, 0⟩)) ∧
    (∃ u, UninitSlice.fromMaybeUninitSlice (Ty.unit 64) units.ptr units.len units.nonnull
      units.size_lt = .ok u ∧ u.intoMaybeUninitSlice = ⟨4096, 2 ^ 64 - 1⟩) ∧
    ∀ m : Cells ℕ, ∃ m', copySlice sixteenBytes m word = .ok (m', some ⟨8192, 2⟩) := by
  intro units word
  refine ⟨fun A m => ⟨_, copySlice_empty (by decide)⟩, ?_, fun m => ?_⟩
  · exact UninitSlice.roundTrip_eq units
  · have halloc : sixteenBytes.alloc ⟨word.layout, show 0 < 8 by decide⟩ =
        some ⟨8192, ⟨Ty.twoWords.toLayout, Ty.twoWords_pos⟩⟩ :=
      if_pos ⟨show 8 ≤ 16 by decide, show 8 ∣ 8192 by decide⟩
    exact ⟨_, copySlice_some halloc⟩

end LocalAllocLeakExt

end StaticAlloc
