import StaticAlloc.Library.Records
import StaticAlloc.Chain.Model
import StaticAlloc.Unsync.RoundTrip

/-!
# The layouts of the unsized arenas

The memory of a `BumpSlice` or of a `Link` is requested with a layout that the crate
computes from the capacity, and it is given back with the layout that the language
finds for the value, whose metadata is the capacity.  The crate computes with
`Layout::extend` and `Layout::pad_to_align`, and with padding only where it expects
some: a `Link` is not padded at the end.

`sizeRoundedUp`, `extendIn` and `padToAlignIn` are these computations as the standard
library does them, in words and with sums that are not checked; `extendIn_eq` and
`padToAlignIn_eq` say that no sum overflows.  What the language finds is the rule of
`record`, applied to the header and to as many bytes as the metadata says.

A `Bump<T>` is not allocated with a computed layout.  It is a record of its own, and
a pointer to it is cast to a `BumpSlice` of which the metadata is the size of `T`.
The check in front of the cast compares offsets, and `offsetOfData_eq_iff` says what
it finds out: whether the alignment of `T` divides the size of the header.  This is
the same as a comparison of alignments if the header is aligned to its size.
-/

namespace StaticAlloc
namespace Layout

open Toolkit

variable {w : ℕ} {b : Build} {l next : Layout w}

/-- The extent of a value with this layout. -/
def extent (l : Layout w) : Extent := ⟨l.size, l.align⟩

/-- `Layout::size_rounded_up_to_custom_align`: `(size + (align - 1)) & !(align - 1)`. -/
def sizeRoundedUp (b : Build) (l : Layout w) (align : ℕ) : Except Stop ℕ := do
  let upper ← addUsize b w l.size (align - 1)
  return roundDown upper align

/-- `Layout::extend`. -/
def extendIn (b : Build) (l next : Layout w) : Except Stop (Option (Layout w × ℕ)) := do
  let offset ← l.sizeRoundedUp b next.align
  let newSize ← addUsize b w offset next.size
  return (fromSizeAlign w newSize (max l.align next.align)).map (·, offset)

/-- `Layout::pad_to_align`. -/
def padToAlignIn (b : Build) (l : Layout w) : Except Stop (Layout w) := do
  let newSize ← l.sizeRoundedUp b l.align
  match fromSizeAlign w newSize l.align with
  | some padded => return padded
  | none => .error (.undefined "Layout::from_size_align_unchecked")

theorem two_mul_half (hw : 0 < w) : 2 * 2 ^ (w - 1) = 2 ^ w := by
  rw [← Nat.pow_succ', Nat.succ_eq_add_one, Nat.sub_add_cancel hw]

/-- A size rounded up stays within half of the address space. -/
theorem roundUp_size_le (l next : Layout w) : roundUp l.size next.align ≤ 2 ^ (w - 1) :=
  roundUp_le next.align_pos l.size_lt.le next.align_dvd_half

/-- Rounding up does not overflow. -/
theorem sizeRoundedUp_eq (b : Build) (l next : Layout w) :
    l.sizeRoundedUp b next.align = .ok (roundUp l.size next.align) := by
  have hsum : l.size + (next.align - 1) < 2 ^ w := by
    have hsize := l.size_lt
    have halign := next.align_le
    rcases Nat.eq_zero_or_pos w with rfl | hw
    · omega
    · have := two_mul_half hw
      omega
  rw [sizeRoundedUp, addUsize_of_lt hsum, ok_bind, roundDown_add_pred next.align_pos]
  rfl

/-- **`extend` does not overflow**, and is a layout error instead. -/
theorem extendIn_eq (b : Build) (l next : Layout w) : l.extendIn b next = .ok (l.extend next) := by
  have hsum : roundUp l.size next.align + next.size < 2 ^ w := by
    have hnext := next.size_lt
    have hround := roundUp_size_le l next
    rcases Nat.eq_zero_or_pos w with rfl | hw
    · have hzero : l.size = 0 := by
        have := l.size_lt
        omega
      rw [hzero, roundUp_eq_self next.align_pos (Nat.dvd_zero _), Nat.zero_add]
      exact hnext
    · have := two_mul_half hw
      omega
  rw [extendIn, sizeRoundedUp_eq, ok_bind, addUsize_of_lt hsum, ok_bind]
  rfl

/-- `pad_to_align` does not overflow, and finds a layout. -/
theorem padToAlignIn_eq (b : Build) (l : Layout w) :
    l.padToAlignIn b = .ok l.padToAlign.toLayout := by
  have hpad : fromSizeAlign w (roundUp l.size l.align) l.align = some l.padToAlign.toLayout :=
    dif_pos ⟨l.align_pow, l.padToAlign.bounded⟩
  rw [padToAlignIn, sizeRoundedUp_eq, ok_bind, hpad]
  rfl

theorem extent_strided (V : Ty w) : V.extent.Strided := ⟨V.align_pos, V.stride⟩

theorem padToAlign_extent (l : Layout w) : l.padToAlign.extent = l.extent.padded := rfl

theorem fromSizeAlign_eq_none_iff {size align : ℕ} (h : align.isPowerOfTwo) :
    fromSizeAlign w size align = none ↔ 2 ^ (w - 1) < size + align := by
  rw [fromSizeAlign]
  by_cases hle : size + align ≤ 2 ^ (w - 1)
  · rw [dif_pos ⟨h, hle⟩]
    exact iff_of_false (by simp) (Nat.not_lt.mpr hle)
  · rw [dif_neg fun hc => hle hc.2]
    exact iff_of_true rfl (Nat.lt_of_not_le hle)

/-- The larger of two alignments is one of them. -/
theorem max_align_pow (l next : Layout w) : (max l.align next.align).isPowerOfTwo := by
  rcases le_total l.align next.align with h | h
  · rw [max_eq_right h]
    exact next.align_pow
  · rw [max_eq_left h]
    exact l.align_pow

/-- What `extend` gives is the record with one more field. -/
theorem extend_extent {l' : Layout w} {offset : ℕ} (h : l.extend next = some (l', offset)) :
    l'.extent = l.extent.append next.extent := by
  obtain ⟨l'', hl'', hpair⟩ := Option.map_eq_some_iff.mp h
  obtain ⟨rfl, -⟩ := Prod.mk.inj hpair
  obtain ⟨hsize, halign⟩ := fromSizeAlign_some hl''
  rw [extent, hsize, halign]
  rfl

theorem extend_eq_none_iff :
    l.extend next = none ↔
      2 ^ (w - 1) < (l.extent.append next.extent).size + (l.extent.append next.extent).align :=
  Option.map_eq_none_iff.trans (fromSizeAlign_eq_none_iff (max_align_pow l next))

end Layout

namespace Chain

open Toolkit

variable {w : ℕ}

/-! ## Layouts from a capacity -/

/-- `BumpSlice::layout_from_size`, with the header as it is on the target. -/
def layoutFromSizeIn (b : Build) (header : Ty w) (size : ℕ) : Except Stop (Option (Layout w)) :=
  match Layout.fromSizeAlign w size 1 with
  | none => return none
  | some dataTail => do
    match ← header.extendIn b dataTail with
    | none => return none
    | some (layout, _) => return some (← layout.padToAlignIn b)

/-- `Link::layout_from_size`. -/
def linkLayoutIn (b : Build) (T : Target w) (size : ℕ) : Except Stop (Option (Layout w)) := do
  match ← layoutFromSizeIn b T.header size with
  | none => return none
  | some bump => return (← T.linkCell.extendIn b bump).map Prod.fst

/-- The extent of a `BumpSlice` of which the metadata is `n`. -/
def bumpExtent (header : Ty w) (n : ℕ) : Extent := record [header.extent, .bytes n]

/-- The extent of a `Link` of which the metadata is `n`: the cell, and behind it the
arena. -/
def linkExtent (T : Target w) (n : ℕ) : Extent :=
  record [T.linkCell.extent, bumpExtent T.header n]

/-- The computation gives the layout of the values with this extent, or an error if
they would be larger than `isize::MAX`; no sum overflows on the way. -/
def Computes (computation : Except Stop (Option (Layout w))) (e : Extent) : Prop :=
  ∃ layout, computation = .ok layout ∧ (∀ l, layout = some l → l.extent = e) ∧
    (layout = none ↔ 2 ^ (w - 1) ≤ e.size)

variable {b : Build} {T : Target w} {header : Ty w} {n : ℕ}

theorem layoutFromSizeIn_eq (b : Build) (header : Ty w) (n : ℕ) :
    layoutFromSizeIn b header n = .ok (Unsync.layoutFromSize header n) := by
  rw [layoutFromSizeIn, Unsync.layoutFromSize]
  cases hdata : Layout.fromSizeAlign w n 1 with
  | none => rfl
  | some dataTail =>
    simp only [Layout.extendIn_eq, ok_bind]
    cases hrec : header.extend dataTail with
    | none => simp [hrec]
    | some r => simp [hrec, Layout.padToAlignIn_eq]

theorem linkLayoutIn_eq (b : Build) (T : Target w) (n : ℕ) :
    linkLayoutIn b T n = .ok ((linkLayout T n).map Prod.fst) := by
  rw [linkLayoutIn, layoutFromSizeIn_eq, linkLayout]
  cases hbump : Unsync.layoutFromSize T.header n with
  | none => rfl
  | some bump =>
    simp only [ok_bind, Layout.extendIn_eq]
    rfl

/-- The header is padded for the bytes behind it. -/
theorem bumpExtent_eq (header : Ty w) (n : ℕ) :
    bumpExtent header n = ⟨roundUp (header.size + n) header.align, header.align⟩ :=
  record_bytes header.align_pos n

theorem bumpExtent_strided (header : Ty w) (n : ℕ) : (bumpExtent header n).Strided := by
  rw [bumpExtent_eq]
  exact ⟨header.align_pos, dvd_roundUp header.align_pos⟩

/-- A layout of a `BumpSlice` is the one that the language finds. -/
theorem layoutFromSize_extent {l : Layout w} (h : Unsync.layoutFromSize header n = some l) :
    l.extent = bumpExtent header n := by
  obtain ⟨dataTail, hdata, h⟩ := Option.bind_eq_some_iff.mp h
  obtain ⟨⟨fields, offset⟩, hfields, h⟩ := Option.bind_eq_some_iff.mp h
  obtain rfl := Option.some.inj h
  obtain ⟨hsize, halign⟩ := Layout.fromSizeAlign_some hdata
  have htail : dataTail.extent = .bytes n := by rw [Layout.extent, hsize, halign, Extent.bytes]
  rw [Layout.padToAlign_extent, Layout.extend_extent hfields, htail, bumpExtent,
    record_pair header.align_pos]

/-- There is none if the value is too large. -/
theorem layoutFromSize_eq_none_iff :
    Unsync.layoutFromSize header n = none ↔ 2 ^ (w - 1) ≤ (bumpExtent header n).size := by
  have hpos := header.align_pos
  have hroom := roundUp_lt_iff (n := header.size + n) hpos header.align_dvd_half
  rw [bumpExtent_eq]
  show _ ↔ 2 ^ (w - 1) ≤ roundUp (header.size + n) header.align
  cases hdata : Layout.fromSizeAlign w n 1 with
  | none =>
    have hlarge := (Layout.fromSizeAlign_eq_none_iff Nat.isPowerOfTwo_one).mp hdata
    refine iff_of_true ?_ (by omega)
    rw [Unsync.layoutFromSize, hdata]
    rfl
  | some dataTail =>
    obtain ⟨hsize, halign⟩ := Layout.fromSizeAlign_some hdata
    have htail : dataTail.extent = .bytes n := by rw [Layout.extent, hsize, halign, Extent.bytes]
    have hnone : Unsync.layoutFromSize header n = none ↔ header.extend dataTail = none := by
      rw [Unsync.layoutFromSize, hdata]
      cases hext : header.extend dataTail with
      | none => simp [hext]
      | some r => simp [hext]
    rw [hnone, Layout.extend_eq_none_iff, htail, Extent.append_bytes hpos]
    show 2 ^ (w - 1) < header.size + n + header.align ↔ _
    omega

theorem layoutFromSize_computes (b : Build) (header : Ty w) (n : ℕ) :
    Computes (layoutFromSizeIn b header n) (bumpExtent header n) :=
  ⟨_, layoutFromSizeIn_eq b header n, fun _ => layoutFromSize_extent, layoutFromSize_eq_none_iff⟩

/-- The size of a value behind a `&mut BumpSlice` is that of its extent. -/
theorem footprint_eq_size (header : Header w) (n : ℕ) :
    Unsync.footprint header n = (bumpExtent header.toTy n).size := by
  rw [bumpExtent_eq]
  rfl

/-- A target as the language describes it: a pointer to an unsized type has the
alignment of `usize`. -/
structure FatTarget (w : ℕ) extends Target w where
  linkCell_align : linkCell.align = header.align

section Link

variable {T : FatTarget w}

theorem cell_align (T : FatTarget w) (n : ℕ) :
    T.linkCell.extent.align = (bumpExtent T.header n).align := by
  rw [bumpExtent_eq]
  exact T.linkCell_align

/-- A link has no padding at its end. -/
theorem linkExtent_eq_append (T : FatTarget w) (n : ℕ) :
    linkExtent T.toTarget n = T.linkCell.extent.append (bumpExtent T.header n) := by
  have hcell := Layout.extent_strided T.linkCell
  rw [linkExtent, record_pair hcell.pos]
  exact (hcell.append (bumpExtent_strided T.header n) (cell_align T n)).padded_eq

/-- Nor is there any in front of the arena. -/
theorem linkExtent_eq (T : FatTarget w) (n : ℕ) :
    linkExtent T.toTarget n =
      ⟨T.linkCell.size + (bumpExtent T.header n).size, T.header.align⟩ := by
  have hcell := Layout.extent_strided T.linkCell
  rw [linkExtent_eq_append, hcell.append_of_align_eq (bumpExtent_strided _ _) (cell_align T n),
    ← T.linkCell_align]
  rfl

/-- A layout of a `Link` is the one that the language finds, although the crate does
not pad it. -/
theorem linkLayout_extent {l : Layout w} {offset : ℕ}
    (h : linkLayout T.toTarget n = some (l, offset)) : l.extent = linkExtent T.toTarget n := by
  obtain ⟨bump, hbump, hlink⟩ := Option.bind_eq_some_iff.mp h
  rw [Layout.extend_extent hlink, layoutFromSize_extent hbump, linkExtent_eq_append]

theorem linkLayout_eq_none_iff :
    linkLayout T.toTarget n = none ↔ 2 ^ (w - 1) ≤ (linkExtent T.toTarget n).size := by
  have hdvd : T.header.align ∣ T.linkCell.size + (bumpExtent T.header n).size := by
    refine Nat.dvd_add (T.linkCell_align ▸ T.linkCell.stride) ?_
    rw [bumpExtent_eq]
    exact dvd_roundUp T.header.align_pos
  have hroom := roundUp_lt_iff (n := T.linkCell.size + (bumpExtent T.header n).size)
    T.header.align_pos T.header.align_dvd_half
  rw [roundUp_eq_self T.header.align_pos hdvd] at hroom
  have hsize : (linkExtent T.toTarget n).size =
      T.linkCell.size + (bumpExtent T.header n).size := by rw [linkExtent_eq]
  rw [hsize]
  cases hbump : Unsync.layoutFromSize T.header n with
  | none =>
    have hlarge := layoutFromSize_eq_none_iff.mp hbump
    refine iff_of_true ?_ (by omega)
    rw [linkLayout, hbump]
    rfl
  | some bump =>
    have hnone : linkLayout T.toTarget n = none ↔ T.linkCell.extend bump = none := by
      rw [linkLayout, hbump]
      rfl
    rw [hnone, Layout.extend_eq_none_iff, layoutFromSize_extent hbump, ← linkExtent_eq_append,
      linkExtent_eq]
    show 2 ^ (w - 1) < T.linkCell.size + (bumpExtent T.header n).size + T.header.align ↔ _
    omega

theorem linkLayout_computes (b : Build) (T : FatTarget w) (n : ℕ) :
    Computes (linkLayoutIn b T.toTarget n) (linkExtent T.toTarget n) := by
  refine ⟨_, linkLayoutIn_eq b T.toTarget n, fun l hl => ?_, ?_⟩
  · obtain ⟨⟨l', offset⟩, hlink, rfl⟩ := Option.map_eq_some_iff.mp hl
    exact linkLayout_extent hlink
  · exact Option.map_eq_none_iff.trans linkLayout_eq_none_iff

/-- A link goes back to the global allocator with the layout it came with. -/
theorem LinkPtr.layout_extent (p : LinkPtr T.toTarget) :
    p.layout.extent = linkExtent T.toTarget p.capacity :=
  linkLayout_extent p.laidOut

end Link

/-! ## The cast to an unsized arena -/

section Cast

variable {header : Ty w} {b : Build} {self : ℕ}

/-- A type `Bump<T>`: under `repr(C)` the header, and behind it the storage. -/
structure BumpTy (header : Ty w) where
  /-- `T` -/
  data : Ty w
  object : Ty w
  laidOut : object.extent = record [header.extent, data.extent]

/-- `Bump::as_bump_slice` of the shared arena: a pointer to the object, with the
metadata of the view. -/
def asBumpSlice (B : BumpTy header) (self : ℕ) : Option RawSlice :=
  if Unsync.offsetOfData header B.data ≠ header.size then none
  else some ⟨self, B.data.size⟩

/-- `Deref for Bump<T>` of the unsynchronized arena; `none` is the error of
`EnsureDerefIsApplicable::<T>::ASSERT`, with which the program does not compile. -/
def deref (b : Build) (B : BumpTy header) (self : ℕ) : Option (Except Stop RawSlice) :=
  if Unsync.offsetOfData header B.data ≠ header.size then none
  else some do
    let bump : RawSlice := ⟨self, B.data.size⟩
    debugAssert b (B.object.extent = bumpExtent header bump.len)
      "assertion `left == right` failed: from_layout, Layout::for_value(bump)"
    return bump

/-- The object is laid out as the view that is made of it. -/
structure IsViewOf (B : BumpTy header) (self : ℕ) (view : RawSlice) : Prop where
  ptr : view.ptr = self
  len : view.len = B.data.size
  size : B.object.size = (bumpExtent header view.len).size
  align : B.object.align = (bumpExtent header view.len).align
  offset : Unsync.offsetOfData header B.data = header.extent.fieldOffset (.bytes view.len)

/-- The cast of the shared arena takes the types that are not more aligned than the
header, and no others. -/
def AsBumpSliceExact (B : BumpTy header) (self : ℕ) : Prop :=
  (B.data.align ≤ header.align →
    ∃ view, asBumpSlice B self = some view ∧ IsViewOf B self view) ∧
    (header.align < B.data.align → asBumpSlice B self = none)

/-- So does that of the unsynchronized one. -/
def DerefExact (b : Build) (B : BumpTy header) (self : ℕ) : Prop :=
  (B.data.align ≤ header.align →
    ∃ view, deref b B self = some (.ok view) ∧ IsViewOf B self view) ∧
    (header.align < B.data.align → deref b B self = none)

/-- What the check in front of the cast finds out. -/
theorem offsetOfData_eq_iff (header V : Ty w) :
    Unsync.offsetOfData header V = header.size ↔ V.align ∣ header.size :=
  Extent.fieldOffset_eq_iff (e := header.extent) (f := V.extent) V.align_pos

/-- With a storage that is not more aligned than the header, the object has the
extent of the view. -/
theorem object_extent (B : BumpTy header) (h : B.data.align ≤ header.align) :
    B.object.extent = bumpExtent header B.data.size := by
  have hdvd : B.data.align ∣ header.size := (Layout.align_dvd_of_le h).trans header.stride
  have happend : header.extent.append B.data.extent =
      ⟨header.size + B.data.size, header.align⟩ := by
    rw [Extent.append, Extent.fieldOffset_of_dvd B.data.align_pos hdvd]
    exact congrArg (Extent.mk _) (max_eq_left h)
  rw [B.laidOut, record_pair header.align_pos, happend, bumpExtent_eq]
  rfl

theorem isViewOf (B : BumpTy header) (self : ℕ) (h : B.data.align ≤ header.align) :
    IsViewOf B self ⟨self, B.data.size⟩ where
  ptr := rfl
  len := rfl
  size := congrArg Extent.size (object_extent B h)
  align := congrArg Extent.align (object_extent B h)
  offset := by
    rw [Unsync.Bump.applicable_of_align_le h,
      Extent.fieldOffset_of_dvd Nat.one_pos (Nat.one_dvd _)]
    rfl

theorem asBumpSlice_of_dvd {B : BumpTy header} (h : B.data.align ∣ header.size) :
    asBumpSlice B self = some ⟨self, B.data.size⟩ :=
  if_neg (not_not_intro ((offsetOfData_eq_iff header B.data).mpr h))

theorem asBumpSlice_of_not_dvd {B : BumpTy header} (h : ¬ B.data.align ∣ header.size) :
    asBumpSlice B self = none :=
  if_pos fun hc => h ((offsetOfData_eq_iff header B.data).mp hc)

theorem deref_eq_none_iff {B : BumpTy header} :
    deref b B self = none ↔ ¬ B.data.align ∣ header.size := by
  rw [← offsetOfData_eq_iff header B.data, deref]
  by_cases h : Unsync.offsetOfData header B.data = header.size
  · rw [if_neg (not_not_intro h)]
    exact iff_of_false (by simp) (not_not_intro h)
  · rw [if_pos h]
    exact iff_of_true rfl h

/-- The assertion in a debug build holds of storage that is not more aligned than the
header. -/
theorem deref_of_align_le {B : BumpTy header} (h : B.data.align ≤ header.align) :
    deref b B self = some (.ok ⟨self, B.data.size⟩) := by
  rw [deref, if_neg (not_not_intro (Unsync.Bump.applicable_of_align_le h))]
  simp only [debugAssert_true (object_extent B h), ok_bind, pure_eq_ok]

/-- The layout of `AtomicUsize`, which is aligned to its size on every target. -/
structure AtomicHeader (w : ℕ) extends Header w where
  natural : align = size

/-- **The shared arena's cast is exact.** -/
theorem asBumpSlice_exact (header : AtomicHeader w) (B : BumpTy header.toTy) (self : ℕ) :
    AsBumpSliceExact B self := by
  refine ⟨fun h => ⟨_, asBumpSlice_of_dvd ?_, isViewOf B self h⟩, fun h => ?_⟩
  · exact (Layout.align_dvd_of_le h).trans header.stride
  · refine asBumpSlice_of_not_dvd fun hdvd => ?_
    have hle := Nat.le_of_dvd header.size_pos hdvd
    rw [← header.natural] at hle
    omega

/-- **The unsynchronized arena's cast is exact unless the alignment is larger than
the header's and divides the header's size.** -/
theorem derefExact_iff (b : Build) (B : BumpTy header) (self : ℕ) :
    DerefExact b B self ↔ B.data.align ≤ header.align ∨ ¬ B.data.align ∣ header.size := by
  constructor
  · rintro ⟨-, hrejects⟩
    refine (Nat.lt_or_ge header.align B.data.align).symm.imp id fun hlt => ?_
    exact deref_eq_none_iff.mp (hrejects hlt)
  · intro h
    refine ⟨fun hle => ⟨_, deref_of_align_le hle, isViewOf B self hle⟩, fun hlt => ?_⟩
    exact deref_eq_none_iff.mpr (h.resolve_left (Nat.not_le.mpr hlt))

/-- On a target of which the `usize` is aligned to its size, every cast is exact. -/
theorem derefExact_of_natural {header : Header w} (h : header.align = header.size) (b : Build)
    (B : BumpTy header.toTy) (self : ℕ) : DerefExact b B self := by
  refine (derefExact_iff b B self).mpr ((Nat.lt_or_ge header.align B.data.align).symm.imp id ?_)
  intro hlt hdvd
  have hle := Nat.le_of_dvd header.size_pos hdvd
  omega

end Cast

/-! ## The agreement -/

/-- **Layouts agree.**  For every capacity and in either build, the layouts computed
for a `BumpSlice` and for a `Link` are those of the values with this metadata, or
errors if there are no such values, and no sum overflows.  The cast of the shared
arena takes exactly the types with at most the alignment of the header, and what it
takes is laid out as the view; so does the cast of the unsynchronized arena, unless
the larger alignment divides the size of the header. -/
theorem layouts_agree (T : FatTarget w) :
    (∀ (b : Build) (n : ℕ),
      Computes (layoutFromSizeIn b T.header n) (bumpExtent T.header n)) ∧
    (∀ (b : Build) (n : ℕ), Computes (linkLayoutIn b T.toTarget n) (linkExtent T.toTarget n)) ∧
    (∀ (header : AtomicHeader w) (B : BumpTy header.toTy) (self : ℕ), AsBumpSliceExact B self) ∧
    ∀ (b : Build) (B : BumpTy T.header) (self : ℕ),
      DerefExact b B self ↔ B.data.align ≤ T.header.align ∨ ¬ B.data.align ∣ T.header.size :=
  ⟨fun b n => layoutFromSize_computes b T.header n, fun b n => linkLayout_computes b T n,
    asBumpSlice_exact, derefExact_iff⟩

/-! ## A 32-bit target with an alignment of two -/

theorem isPowerOfTwo_two : (2 : ℕ).isPowerOfTwo := ⟨1, rfl⟩

theorem isPowerOfTwo_four : (4 : ℕ).isPowerOfTwo := ⟨2, rfl⟩

/-- Its `usize`. -/
def halfAligned.usize : Ty 32 := ⟨⟨4, 2, isPowerOfTwo_two, by decide⟩, ⟨2, rfl⟩⟩

/-- Its `AtomicU32`. -/
def halfAligned.atomic : Ty 32 := ⟨⟨4, 4, isPowerOfTwo_four, by decide⟩, ⟨1, rfl⟩⟩

/-- Its `Bump<AtomicU32>`. -/
def halfAligned.bump : BumpTy halfAligned.usize where
  data := halfAligned.atomic
  object := ⟨⟨8, 4, isPowerOfTwo_four, by decide⟩, ⟨2, rfl⟩⟩
  laidOut := rfl

/-- A `Bump<AtomicU32>` is aligned to four bytes and its view to two; the cast is made,
and the assertion of a debug build fails. -/
theorem deref_more_aligned :
    ¬ DerefExact .release halfAligned.bump 4096 ∧
      deref .release halfAligned.bump 4096 = some (.ok ⟨4096, 4⟩) ∧
      halfAligned.bump.object.align = 4 ∧ (bumpExtent halfAligned.usize 4).align = 2 ∧
      deref .debug halfAligned.bump 4096 =
        some (.error (.panic
          "assertion `left == right` failed: from_layout, Layout::for_value(bump)")) := by
  have haccepted : deref .release halfAligned.bump 4096 = some (.ok ⟨4096, 4⟩) := rfl
  refine ⟨fun ⟨_, hrejects⟩ => ?_, haccepted, rfl, rfl, rfl⟩
  have hnone := hrejects (by decide)
  rw [haccepted] at hnone
  exact absurd hnone (by simp)

end Chain
end StaticAlloc
