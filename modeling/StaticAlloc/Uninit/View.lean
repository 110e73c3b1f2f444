import StaticAlloc.Core.Layout

/-!
# Views of uninitialized memory

An `UninitView<T>` is a pointer and a number of bytes.  The source states what it
promises --- the pointer is not null and aligned for `T`, and there are at least
as many bytes as a `T` needs --- and here those promises are the fields of the
structure, so that every definition that returns a view has to keep them.  An
`Uninit<T>` is such a view together with the promise that nobody else uses the
memory; each of its methods below is the method of the view.

Views come in two shapes.  `UninitView T` points at a sized type, where `T` may
be `()` and the view is then untyped memory, and `UninitSlice T` points at a
slice `[T]`.  A slice view has as many elements as fit into its bytes, and the
bytes past the last element stay with it until `shrink_to_fit` gives them up.

What a traversal does to the memory is always the same: the receiver keeps one
end of the region and the other end is returned.  The spec lemma of each method
says where the cut is.

Addresses are natural numbers, and `base.add(at)` on a `*mut T` moves the pointer
by `at * size_of::<T>()` bytes, as in the language.
-/

namespace StaticAlloc

open Toolkit

variable {w : ℕ}

/-- `UninitView<T>` of a sized type. -/
structure UninitView (T : Ty w) where
  ptr : ℕ
  /-- The length in bytes; it may be larger than required. -/
  len : ℕ
  nonnull : 0 < ptr
  word : len < 2 ^ w
  aligned : T.align ∣ ptr
  large : T.size ≤ len

/-- `UninitView<[T]>`. -/
structure UninitSlice (T : Ty w) where
  ptr : ℕ
  /-- The length in bytes. -/
  len : ℕ
  /-- The number of elements in the slice pointer itself. -/
  sliceLen : ℕ
  nonnull : 0 < ptr
  word : len < 2 ^ w
  aligned : T.align ∣ ptr

/-- The bytes of a view. -/
def UninitView.span {T : Ty w} (v : UninitView T) : Span := ⟨v.ptr, v.len⟩

/-- The bytes of a slice view, the unusable ones at its end included. -/
def UninitSlice.span {T : Ty w} (s : UninitSlice T) : Span := ⟨s.ptr, s.len⟩

/-- `UninitView::fits`. -/
def fits (ptr len : ℕ) (layout : Layout w) : Prop :=
  alignOffset ptr layout.align = 0 ∧ layout.size ≤ len

instance (ptr len : ℕ) (layout : Layout w) : Decidable (fits ptr len layout) :=
  inferInstanceAs (Decidable (_ ∧ _))

theorem fits_iff {ptr len : ℕ} {layout : Layout w} :
    fits ptr len layout ↔ layout.align ∣ ptr ∧ layout.size ≤ len :=
  and_congr_left' (padding_eq_zero_iff layout.align_pos)

namespace UninitView

variable {T : Ty w}

/-- `UninitView::from_memory`. -/
def fromMemory (ptr len : ℕ) (nonnull : 0 < ptr) (word : len < 2 ^ w) :
    UninitView (Ty.unit w) where
  ptr := ptr
  len := len
  nonnull := nonnull
  word := word
  aligned := Nat.one_dvd _
  large := Nat.zero_le _

/-- `UninitView::decast`. -/
def decast (v : UninitView T) : UninitView (Ty.unit w) := fromMemory v.ptr v.len v.nonnull v.word

/-- `UninitView::cast`. -/
def cast (U : Ty w) (v : UninitView T) : Except (UninitView T) (UninitView U) :=
  if h : fits v.ptr v.len U.toLayout then
    .ok ⟨v.ptr, v.len, v.nonnull, v.word, (fits_iff.mp h).1, (fits_iff.mp h).2⟩
  else .error v

/-- `UninitView::cast_slice`. -/
def castSlice (U : Ty w) (v : UninitView T) : Except (UninitView T) (UninitSlice U) :=
  if h : fits v.ptr v.len (Layout.forEmptySlice U) then
    .ok ⟨v.ptr, v.len, if U.size = 0 then usizeMax w else v.len / U.size, v.nonnull, v.word,
      (fits_iff.mp h).1⟩
  else .error v

/-- `UninitView::split_at_byte`: the receiver afterwards, and the view returned. -/
def splitAtByte (v : UninitView T) (at' : ℕ) : Option (UninitView T × UninitView (Ty.unit w)) :=
  if h : v.len < at' ∨ at' < T.size then none else
    some (⟨v.ptr, at', v.nonnull, by have := v.word; omega, v.aligned, by omega⟩,
      -- `base` is a `*mut T`, so `base.add(at)` counts in elements
      fromMemory (v.ptr + at' * T.size) (v.len - at') (Nat.add_pos_left v.nonnull _)
        (by have := v.word; omega))

/-- `UninitView::split_to_fit`. -/
def splitToFit (v : UninitView T) : Except Stop (UninitView T × UninitView (Ty.unit w)) :=
  unwrap (v.splitAtByte T.size)

/-- `UninitView::split_layout`.  The offset is asked of a `*mut ()`. -/
def splitLayout (v : UninitView (Ty.unit w)) (layout : Layout w) :
    Except Stop (Option (UninitView (Ty.unit w) × UninitView (Ty.unit w))) :=
  let align := alignOffsetUnit w v.ptr layout.align
  match (checkedSub v.len align).bind (checkedSub · layout.size) with
  | none => .ok none
  | some _ =>
    match v.splitAtByte align with
    | none => .ok none
    | some (v', aligned) => do
      assert (fits aligned.ptr aligned.len layout) "assertion failed: aligned.fits(layout)"
      .ok (some (v', aligned))

/-- `UninitView::split_cast`. -/
def splitCast (U : Ty w) (v : UninitView (Ty.unit w)) :
    Except Stop (Option (UninitView (Ty.unit w) × UninitView U)) := do
  match ← v.splitLayout U.toLayout with
  | none => .ok none
  | some (v', split) =>
    let cast ← unwrapOk (split.cast U)
    .ok (some (v', cast))

/-- `UninitView::split_slice`. -/
def splitSlice (U : Ty w) (v : UninitView (Ty.unit w)) :
    Except Stop (Option (UninitView (Ty.unit w) × UninitSlice U)) := do
  match ← v.splitLayout (Layout.forEmptySlice U) with
  | none => .ok none
  | some (v', split) =>
    let cast ← unwrapOk (split.castSlice U)
    .ok (some (v', cast))

@[simp] theorem decast_span (v : UninitView T) : v.decast.span = v.span := rfl

theorem cast_ok {U : Ty w} {v : UninitView T} (h : fits v.ptr v.len U.toLayout) :
    ∃ u : UninitView U, v.cast U = .ok u ∧ u.span = v.span :=
  ⟨_, dif_pos h, rfl⟩

theorem cast_error {U : Ty w} {v : UninitView T} (h : ¬ fits v.ptr v.len U.toLayout) :
    v.cast U = .error v := dif_neg h

theorem castSlice_ok {U : Ty w} {v : UninitView T} (h : fits v.ptr v.len (Layout.forEmptySlice U)) :
    ∃ u : UninitSlice U, v.castSlice U = .ok u ∧ u.span = v.span :=
  ⟨_, dif_pos h, rfl⟩

theorem castSlice_error {U : Ty w} {v : UninitView T}
    (h : ¬ fits v.ptr v.len (Layout.forEmptySlice U)) : v.castSlice U = .error v := dif_neg h

theorem splitAtByte_none {v : UninitView T} {k : ℕ} (h : v.len < k ∨ k < T.size) :
    v.splitAtByte k = none := dif_pos h

/-- Where `split_at_byte` cuts: the receiver keeps `k` bytes, and the rest is
said to start `k` elements further on. -/
theorem splitAtByte_some {v : UninitView T} {k : ℕ} (h₁ : T.size ≤ k) (h₂ : k ≤ v.len) :
    ∃ v' t, v.splitAtByte k = some (v', t) ∧ v'.span = ⟨v.ptr, k⟩ ∧
      t.span = ⟨v.ptr + k * T.size, v.len - k⟩ :=
  ⟨_, _, dif_neg (by omega), rfl, rfl⟩

/-- An aligned view is split at its start, if there is room. -/
theorem splitLayout_of_dvd {v : UninitView (Ty.unit w)} {layout : Layout w}
    (h : layout.align ∣ v.ptr) :
    (v.len < layout.size ∧ v.splitLayout layout = .ok none) ∨
      ∃ v' t, v.splitLayout layout = .ok (some (v', t)) ∧ layout.size ≤ v.len ∧
        v'.span = ⟨v.ptr, 0⟩ ∧ t.span = v.span ∧ fits t.ptr t.len layout := by
  have halign : alignOffsetUnit w v.ptr layout.align = 0 := if_pos (Nat.mod_eq_zero_of_dvd h)
  rw [splitLayout, halign, checkedSub_of_le (Nat.zero_le _), Option.bind_some, Nat.sub_zero]
  rcases Nat.lt_or_ge v.len layout.size with hlt | hsize
  · rw [checkedSub_of_lt hlt]
    exact Or.inl ⟨hlt, rfl⟩
  · rw [checkedSub_of_le hsize]
    obtain ⟨v', t, hsplit, hv', ht⟩ := splitAtByte_some (v := v) (k := 0) le_rfl (Nat.zero_le _)
    have ht' : t.span = v.span := by
      rw [ht, Nat.zero_mul, Nat.add_zero, Nat.sub_zero]
      rfl
    have hfits : fits t.ptr t.len layout := by
      have hptr : t.ptr = v.ptr := congrArg Span.start ht'
      have hlen : t.len = v.len := congrArg Span.size ht'
      rw [fits_iff, hptr, hlen]
      exact ⟨h, hsize⟩
    refine Or.inr ⟨v', t, ?_, hsize, hv', ht', hfits⟩
    simp only [hsplit, assert_true hfits, ok_bind]

/-- A misaligned view is not split. -/
theorem splitLayout_of_not_dvd {v : UninitView (Ty.unit w)} {layout : Layout w}
    (h : ¬ layout.align ∣ v.ptr) :
    v.splitLayout layout = if v.len = usizeMax w ∧ layout.size = 0 then
      .error (.panic "assertion failed: aligned.fits(layout)") else .ok none := by
  have halign : alignOffsetUnit w v.ptr layout.align = usizeMax w :=
    if_neg fun hmod => h (Nat.dvd_of_mod_eq_zero hmod)
  have hle : v.len ≤ usizeMax w := Nat.le_sub_one_of_lt v.word
  rw [splitLayout, halign]
  by_cases hlen : v.len = usizeMax w
  · rw [checkedSub_of_le hlen.ge, Option.bind_some, hlen, Nat.sub_self]
    by_cases hsize : layout.size = 0
    · obtain ⟨v', t, hsplit, -, ht⟩ := splitAtByte_some (v := v) (k := usizeMax w) (Nat.zero_le _)
        hlen.ge
      have hptr : t.ptr = v.ptr := (congrArg Span.start ht).trans (by simp)
      have hfits : ¬ fits t.ptr t.len layout := by
        rw [fits_iff, hptr]
        exact fun hf => h hf.1
      rw [checkedSub_of_le (by omega), if_pos ⟨rfl, hsize⟩]
      simp only [hsplit, assert_false hfits, error_bind]
    · rw [checkedSub_of_lt (by omega), if_neg fun hc => hsize hc.2]
  · rw [checkedSub_of_lt (by omega), if_neg fun hc => hlen hc.1]
    rfl

/-- `split_layout` cuts at the very start, or not at all, as long as the offset
it computes is not a length the region could have. -/
theorem splitLayout_spec {v : UninitView (Ty.unit w)} {layout : Layout w}
    (h : alignOffsetUnit w v.ptr layout.align ≤ v.len →
      alignOffsetUnit w v.ptr layout.align = 0) :
    v.splitLayout layout = .ok none ∨
      ∃ v' t, v.splitLayout layout = .ok (some (v', t)) ∧ v'.span = ⟨v.ptr, 0⟩ ∧
        t.span = v.span ∧ fits t.ptr t.len layout := by
  by_cases hdvd : layout.align ∣ v.ptr
  · rcases splitLayout_of_dvd hdvd with ⟨-, hnone⟩ | ⟨v', t, hsome, -, hv', ht, hfits⟩
    · exact Or.inl hnone
    · exact Or.inr ⟨v', t, hsome, hv', ht, hfits⟩
  · rw [splitLayout_of_not_dvd hdvd]
    refine Or.inl (if_neg fun hc => ?_)
    rw [alignOffsetUnit, if_neg fun hmod => hdvd (Nat.dvd_of_mod_eq_zero hmod)] at h
    have hzero : usizeMax w = 0 := h hc.1.ge
    -- the offset `usize::MAX` is not zero, or else there are no odd addresses
    have hw : w = 0 := by
      by_contra hw
      have := Nat.one_lt_two_pow hw
      rw [usizeMax] at hzero
      omega
    subst hw
    have hone : layout.align = 1 := by
      have := layout.align_le
      have := layout.align_pos
      omega
    exact hdvd (hone ▸ Nat.one_dvd _)

theorem splitCast_spec {U : Ty w} {v : UninitView (Ty.unit w)}
    (h : alignOffsetUnit w v.ptr U.align ≤ v.len → alignOffsetUnit w v.ptr U.align = 0) :
    v.splitCast U = .ok none ∨
      ∃ v' t, v.splitCast U = .ok (some (v', t)) ∧ v'.span = ⟨v.ptr, 0⟩ ∧ t.span = v.span := by
  rcases splitLayout_spec h with hnone | ⟨v', t, hsome, hv', ht, hfits⟩
  · refine Or.inl ?_
    rw [splitCast, hnone]
    rfl
  · obtain ⟨u, hu, hspan⟩ := cast_ok hfits
    refine Or.inr ⟨v', u, ?_, hv', hspan.trans ht⟩
    rw [splitCast, hsome]
    simp only [ok_bind, hu, unwrapOk_ok]

theorem splitSlice_spec {U : Ty w} {v : UninitView (Ty.unit w)}
    (h : alignOffsetUnit w v.ptr U.align ≤ v.len → alignOffsetUnit w v.ptr U.align = 0) :
    v.splitSlice U = .ok none ∨
      ∃ v' t, v.splitSlice U = .ok (some (v', t)) ∧ v'.span = ⟨v.ptr, 0⟩ ∧ t.span = v.span := by
  have hspec := @splitLayout_spec w v (Layout.forEmptySlice U) h
  rcases hspec with hnone | ⟨v', t, hsome, hv', ht, hfits⟩
  · refine Or.inl ?_
    rw [splitSlice, hnone]
    rfl
  · obtain ⟨u, hu, hspan⟩ := castSlice_ok hfits
    refine Or.inr ⟨v', u, ?_, hv', hspan.trans ht⟩
    rw [splitSlice, hsome]
    simp only [ok_bind, hu, unwrapOk_ok]

end UninitView

namespace UninitSlice

variable {T : Ty w}

/-- `UninitView::empty`: a dangling pointer to no elements. -/
def empty (T : Ty w) : UninitSlice T where
  ptr := T.align
  len := 0
  sliceLen := 0
  nonnull := T.align_pos
  word := Nat.two_pow_pos w
  aligned := Nat.dvd_refl _

/-- `UninitView::from_maybe_uninit_slice`, of `n` elements at `ptr`. -/
def fromMaybeUninitSlice (T : Ty w) (ptr n : ℕ) (nonnull : 0 < ptr) (word : n * T.size < 2 ^ w) :
    Except Stop (UninitSlice T) :=
  unwrapOk ((UninitView.fromMemory ptr (n * T.size) nonnull word).castSlice T)

/-- `UninitView::decast`. -/
def decast (s : UninitSlice T) : UninitView (Ty.unit w) :=
  UninitView.fromMemory s.ptr s.len s.nonnull s.word

/-- `UninitView::capacity`. -/
def capacity (s : UninitSlice T) : ℕ := (checkedDiv s.len T.size).getD (usizeMax w)

/-- `UninitView::split_at`: the receiver afterwards, and the view returned. -/
def splitAt (s : UninitSlice T) (at' : ℕ) : Except Stop (Option (UninitSlice T × UninitSlice T)) :=
  match checkedMul w at' T.size with
  | none => .ok none
  | some bytes =>
    if h : s.len < bytes then .ok none else do
      let other ← unwrapOk ((UninitView.fromMemory (s.ptr + bytes) (s.len - bytes)
        (Nat.add_pos_left s.nonnull _) (by have := s.word; omega)).castSlice T)
      .ok (some ({ s with len := bytes, word := by have := s.word; omega }, other))

/-- `UninitView::shrink_to_fit`. -/
def shrinkToFit (s : UninitSlice T) : Except Stop (UninitSlice T × UninitView (Ty.unit w)) := do
  let (s', rest) ← unwrap (← s.splitAt s.capacity)
  .ok (s', rest.decast)

/-- `UninitView::split_first`. -/
def splitFirst (s : UninitSlice T) : Except Stop (Option (UninitSlice T × UninitView T)) := do
  match ← s.splitAt 1 with
  | none => .ok none
  | some (s', part) =>
    -- the receiver and the part change places
    let cast ← unwrapOk (s'.decast.cast T)
    .ok (some (part, cast))

/-- `UninitView::split_last`. -/
def splitLast (s : UninitSlice T) : Except Stop (Option (UninitSlice T × UninitView T)) := do
  match ← s.splitAt (wrappingSub w s.capacity 1) with
  | none => .ok none
  | some (s', part) =>
    let cast ← unwrapOk (part.decast.cast T)
    .ok (some (s', cast))

/-! ## Where a slice is cut -/

variable {s : UninitSlice T}

@[simp] theorem decast_span (s : UninitSlice T) : s.decast.span = s.span := rfl

theorem capacity_of_size_eq_zero (h : T.size = 0) : s.capacity = usizeMax w := by
  rw [capacity, checkedDiv, if_pos h]
  rfl

theorem capacity_of_size_pos (h : 0 < T.size) : s.capacity = s.len / T.size := by
  rw [capacity, checkedDiv, if_neg (by omega)]
  rfl

/-- A fresh slice view names as many elements as fit. -/
theorem castSlice_sliceLen {U : Ty w} {v : UninitView U} (h : v.castSlice T = .ok s) :
    s.sliceLen = s.capacity := by
  rw [UninitView.castSlice] at h
  split at h
  · obtain rfl := Except.ok.inj h
    unfold capacity checkedDiv
    split
    · rfl
    · rfl
  · exact absurd h (by simp)

theorem capacity_le (s : UninitSlice T) : s.capacity ≤ usizeMax w := by
  have hword := s.word
  rcases Nat.eq_zero_or_pos T.size with h | h
  · exact (capacity_of_size_eq_zero h).le
  · have := Nat.div_le_self s.len T.size
    rw [capacity_of_size_pos h, usizeMax]
    omega

/-- As many elements as the capacity fit into the bytes. -/
theorem capacity_mul_le (s : UninitSlice T) : s.capacity * T.size ≤ s.len := by
  rcases Nat.eq_zero_or_pos T.size with h | h
  · rw [h, Nat.mul_zero]
    exact Nat.zero_le _
  · rw [capacity_of_size_pos h]
    exact Nat.div_mul_le_self _ _

theorem splitAt_none {k : ℕ} (h : s.len < k * T.size) : s.splitAt k = .ok none := by
  rw [splitAt]
  rcases Nat.lt_or_ge (k * T.size) (2 ^ w) with hlt | hge
  · rw [checkedMul_of_lt hlt]
    exact dif_pos h
  · rw [checkedMul_of_le hge]

/-- Where `split_at` cuts: after `k` elements. -/
theorem splitAt_some {k : ℕ} (h : k * T.size ≤ s.len) :
    ∃ s' t, s.splitAt k = .ok (some (s', t)) ∧ s'.span = ⟨s.ptr, k * T.size⟩ ∧
      t.span = ⟨s.ptr + k * T.size, s.len - k * T.size⟩ := by
  have hword := s.word
  have hptr := Nat.add_pos_left s.nonnull (k * T.size)
  have halign : T.align ∣ s.ptr + k * T.size :=
    Nat.dvd_add s.aligned (T.stride.mul_left k)
  obtain ⟨t, ht, hspan⟩ := UninitView.castSlice_ok (U := T)
    (v := UninitView.fromMemory (s.ptr + k * T.size) (s.len - k * T.size) hptr (by omega))
    (fits_iff.mpr ⟨halign, Nat.zero_le _⟩)
  refine ⟨{ s with len := k * T.size, word := by omega }, t, ?_, rfl, hspan⟩
  rw [splitAt, checkedMul_of_lt (by omega)]
  simp only [dif_neg (show ¬ s.len < k * T.size by omega), ht, unwrapOk_ok, ok_bind]

/-- `shrink_to_fit` keeps the whole elements and returns the rest. -/
theorem shrinkToFit_ok (s : UninitSlice T) :
    ∃ s' t, s.shrinkToFit = .ok (s', t) ∧ s'.span = ⟨s.ptr, s.capacity * T.size⟩ ∧
      t.span = ⟨s.ptr + s.capacity * T.size, s.len - s.capacity * T.size⟩ := by
  obtain ⟨s', t, hsplit, hs', ht⟩ := splitAt_some s.capacity_mul_le
  refine ⟨s', t.decast, ?_, hs', ht⟩
  rw [shrinkToFit, hsplit]
  rfl

/-- A slice of at least one element is an element. -/
theorem decast_cast_ok (h : T.size ≤ s.len) :
    ∃ u : UninitView T, s.decast.cast T = .ok u ∧ u.span = s.span :=
  UninitView.cast_ok (fits_iff.mpr ⟨s.aligned, h⟩)

theorem splitFirst_none (h : s.len < T.size) : s.splitFirst = .ok none := by
  rw [splitFirst, splitAt_none (by omega)]
  rfl

theorem splitFirst_some (h : T.size ≤ s.len) :
    ∃ s' u, s.splitFirst = .ok (some (s', u)) ∧ u.span = ⟨s.ptr, T.size⟩ ∧
      s'.span = ⟨s.ptr + T.size, s.len - T.size⟩ := by
  obtain ⟨s', t, hsplit, hs', ht⟩ := splitAt_some (s := s) (k := 1) (by omega)
  rw [Nat.one_mul] at hs' ht
  obtain ⟨u, hu, hspan⟩ := decast_cast_ok (s := s') (le_of_eq (congrArg Span.size hs').symm)
  refine ⟨t, u, ?_, hspan.trans hs', ht⟩
  rw [splitFirst, hsplit]
  simp only [ok_bind, hu, unwrapOk_ok]

/-- Without room for one element, the index before the last wraps around, and
no region is that long. -/
theorem splitLast_none (h : s.len < T.size) : s.splitLast = .ok none := by
  have hcap : s.capacity = 0 := by
    rw [capacity_of_size_pos (by omega)]
    exact Nat.div_eq_of_lt h
  have hlast : wrappingSub w s.capacity 1 * T.size > s.len := by
    have hw : w ≠ 0 := by
      rintro rfl
      have := T.size_lt
      omega
    have := Nat.one_lt_two_pow hw
    have hword := s.word
    rw [hcap, wrappingSub, Nat.mod_eq_of_lt this, Nat.zero_add, Nat.mod_eq_of_lt (by omega)]
    rcases Nat.lt_or_ge 1 T.size with hs | hs
    · have := Nat.mul_le_mul_left (2 ^ w - 1) hs
      omega
    · have : T.size = 1 := by omega
      rw [this]
      omega
  rw [splitLast, splitAt_none hlast]
  rfl

/-- With room for an element, the index before the last does not wrap around. -/
theorem last_index_succ (hpos : 0 < T.size) (h : T.size ≤ s.len) :
    wrappingSub w s.capacity 1 + 1 = s.capacity := by
  have hcap := capacity_of_size_pos (s := s) hpos
  have hone : 1 ≤ s.capacity := by
    rw [hcap]
    exact Nat.div_pos h hpos
  have hlt : s.capacity < 2 ^ w := by
    rw [hcap]
    exact lt_of_le_of_lt (Nat.div_le_self _ _) s.word
  rw [wrappingSub_of_le hone hlt]
  exact Nat.sub_add_cancel hone

theorem splitLast_some (h : T.size ≤ s.len) :
    ∃ s' u, s.splitLast = .ok (some (s', u)) ∧
      s'.span = ⟨s.ptr, (wrappingSub w s.capacity 1) * T.size⟩ ∧
      u.span = ⟨s.ptr + (wrappingSub w s.capacity 1) * T.size,
        s.len - (wrappingSub w s.capacity 1) * T.size⟩ ∧
      (wrappingSub w s.capacity 1) * T.size + T.size ≤ s.len := by
  have hroom : wrappingSub w s.capacity 1 * T.size + T.size ≤ s.len := by
    rcases Nat.eq_zero_or_pos T.size with hz | hpos
    · rw [hz, Nat.mul_zero]
      exact Nat.zero_le _
    · have hmul := s.capacity_mul_le
      rw [← last_index_succ hpos h, Nat.succ_mul] at hmul
      exact hmul
  obtain ⟨s', t, hsplit, hs', ht⟩ :=
    splitAt_some (s := s) (k := wrappingSub w s.capacity 1) (by omega)
  have hlen : t.len = s.len - wrappingSub w s.capacity 1 * T.size := congrArg Span.size ht
  obtain ⟨u, hu, hspan⟩ := decast_cast_ok (s := t) (by omega)
  refine ⟨s', u, ?_, hs', hspan.trans ht, hroom⟩
  rw [splitLast, hsplit]
  simp only [ok_bind, hu, unwrapOk_ok]

end UninitSlice

end StaticAlloc
