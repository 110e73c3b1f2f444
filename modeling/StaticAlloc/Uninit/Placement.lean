import StaticAlloc.Uninit.Split

/-!
# Splitting at the first aligned address

`split_layout` should find a place for a layout in untyped memory: the part
returned starts at the first aligned address and extends to the old end, the
receiver keeps the padding before it, and there is no part exactly if the layout
does not fit behind the padding.  `placementSplit` is that, in terms of the bytes.

The padding is asked of the pointer as it is, a `*mut ()`, and `align_offset`
counts in elements.  No number of elements without bytes moves a pointer, so the
answer is zero for an aligned pointer and `usize::MAX` for any other.  Hence
`splitLayout_of_dvd` and `splitLayout_of_not_dvd`: an aligned view is split at its
start, and a misaligned one is not split at all, however much room there is; with
a view of `usize::MAX` bytes and a layout without bytes even the assertion fires.

`splitLayout_iff` is the exact condition under which the split is the right one,
and `splitCast_iff` and `splitSlice_iff` carry it to the two callers.
-/

namespace StaticAlloc

open Toolkit

variable {w : ℕ}

/-- Where a layout-directed split should cut: the padding, and the rest. -/
def placementSplit (ptr len : ℕ) (layout : Layout w) : Option (Span × Span) :=
  if padding ptr layout.align + layout.size ≤ len then
    some (⟨ptr, padding ptr layout.align⟩,
      ⟨ptr + padding ptr layout.align, len - padding ptr layout.align⟩)
  else none

/-- The address is aligned already, or there is no room in any case. -/
def SplitInPlace (ptr len : ℕ) (layout : Layout w) : Prop :=
  layout.align ∣ ptr ∨ len < padding ptr layout.align + layout.size

instance (ptr len : ℕ) (layout : Layout w) : Decidable (SplitInPlace ptr len layout) :=
  inferInstanceAs (Decidable (_ ∨ _))

variable {ptr len : ℕ} {layout : Layout w}

theorem placementSplit_of_dvd (h : layout.align ∣ ptr) : placementSplit ptr len layout =
    if layout.size ≤ len then some (⟨ptr, 0⟩, ⟨ptr, len⟩) else none := by
  unfold placementSplit
  rw [(padding_eq_zero_iff layout.align_pos).mpr h, Nat.zero_add, Nat.add_zero, Nat.sub_zero]

theorem placementSplit_eq_none (h : len < padding ptr layout.align + layout.size) :
    placementSplit ptr len layout = none := if_neg (by omega)

/-- Neither padding nor layout is so large that a whole address space would not do. -/
theorem padding_add_size_le (ptr : ℕ) (layout : Layout w) :
    padding ptr layout.align + layout.size ≤ usizeMax w := by
  have hlt := padding_lt (n := ptr) layout.align_pos
  have hbound := layout.bounded
  have hpow : 2 ^ (w - 1) ≤ 2 ^ w := Nat.pow_le_pow_right (by decide) (by omega)
  unfold usizeMax
  omega

namespace UninitView

/-- The bytes of a receiver and of the part split off. -/
def spans {α : Type} (span : α → Span) (r : Option (UninitView (Ty.unit w) × α)) :
    Option (Span × Span) :=
  r.map fun p => (p.1.span, span p.2)

variable {v : UninitView (Ty.unit w)} {U : Ty w}

/-- An aligned view is split where it should be. -/
theorem splitLayout_in_place (h : layout.align ∣ v.ptr) :
    ∃ r, v.splitLayout layout = .ok r ∧
      spans UninitView.span r = placementSplit v.ptr v.len layout ∧
      ∀ v' t, r = some (v', t) → fits t.ptr t.len layout := by
  rw [placementSplit_of_dvd h]
  rcases splitLayout_of_dvd h with ⟨hlt, hnone⟩ | ⟨v', t, hsome, hsize, hv', ht, hfits⟩
  · rw [if_neg (by omega)]
    exact ⟨none, hnone, rfl, fun _ _ heq => absurd heq (by simp)⟩
  · rw [if_pos hsize]
    refine ⟨some (v', t), hsome, ?_, ?_⟩
    · rw [spans, Option.map_some, hv', ht]
      rfl
    · intro v'' t' heq
      obtain ⟨-, rfl⟩ := Prod.mk.inj (Option.some.inj heq)
      exact hfits

/-- **When `split_layout` cuts where it should.** -/
theorem splitLayout_iff (v : UninitView (Ty.unit w)) (layout : Layout w) :
    (∃ r, v.splitLayout layout = .ok r ∧
      spans UninitView.span r = placementSplit v.ptr v.len layout) ↔
      SplitInPlace v.ptr v.len layout := by
  by_cases hdvd : layout.align ∣ v.ptr
  · obtain ⟨r, hr, hspans, -⟩ := splitLayout_in_place hdvd
    exact ⟨fun _ => Or.inl hdvd, fun _ => ⟨r, hr, hspans⟩⟩
  · rw [splitLayout_of_not_dvd hdvd]
    constructor
    · rintro ⟨r, hr, hspans⟩
      refine Or.inr (Nat.lt_of_not_le fun hle => ?_)
      rw [placementSplit, if_pos hle] at hspans
      split at hr
      · exact absurd hr (by simp)
      · rw [← Except.ok.inj hr] at hspans
        exact absurd hspans (by simp [spans])
    · intro h
      have hlt := h.resolve_left hdvd
      have hle := padding_add_size_le v.ptr layout
      rw [if_neg (by omega)]
      exact ⟨none, rfl, (placementSplit_eq_none hlt).symm⟩

/-- A caller of `split_layout` that casts the part cuts where it should whenever
`split_layout` does, as long as the cast of a fitting part succeeds. -/
theorem split_then_cast_iff {α : Type} {span : α → Span}
    {f : Except Stop (Option (UninitView (Ty.unit w) × α))}
    (hstop : ∀ s, v.splitLayout layout = .error s → f = .error s)
    (hnone : v.splitLayout layout = .ok none → f = .ok none)
    (hsome : ∀ v' t, v.splitLayout layout = .ok (some (v', t)) → fits t.ptr t.len layout →
      ∃ u, f = .ok (some (v', u)) ∧ span u = t.span) :
    (∃ r, f = .ok r ∧ spans span r = placementSplit v.ptr v.len layout) ↔
      SplitInPlace v.ptr v.len layout := by
  rw [← splitLayout_iff]
  by_cases hdvd : layout.align ∣ v.ptr
  · obtain ⟨r, hr, hspans, hfits⟩ := splitLayout_in_place (v := v) hdvd
    refine iff_of_true ?_ ⟨r, hr, hspans⟩
    rcases r with - | ⟨v', t⟩
    · exact ⟨none, hnone hr, hspans⟩
    · obtain ⟨u, hu, hspan⟩ := hsome v' t hr (hfits v' t rfl)
      refine ⟨some (v', u), hu, ?_⟩
      rw [← hspans, spans, spans, Option.map_some, Option.map_some, hspan]
  · have hsplit := splitLayout_of_not_dvd hdvd
    split at hsplit
    · rw [hstop _ hsplit, hsplit]
      exact iff_of_false (by rintro ⟨r, hr, -⟩; exact absurd hr (by simp))
        (by rintro ⟨r, hr, -⟩; exact absurd hr (by simp))
    · rw [hnone hsplit, hsplit]
      constructor
      · rintro ⟨r, hr, hspans⟩
        obtain rfl := Except.ok.inj hr
        exact ⟨none, rfl, hspans⟩
      · rintro ⟨r, hr, hspans⟩
        obtain rfl := Except.ok.inj hr
        exact ⟨none, rfl, hspans⟩

theorem splitCast_iff (v : UninitView (Ty.unit w)) (U : Ty w) :
    (∃ r, v.splitCast U = .ok r ∧
      spans UninitView.span r = placementSplit v.ptr v.len U.toLayout) ↔
      SplitInPlace v.ptr v.len U.toLayout := by
  refine split_then_cast_iff ?_ ?_ ?_
  · intro s hs
    rw [splitCast, hs]
    rfl
  · intro hn
    rw [splitCast, hn]
    rfl
  · intro v' t ht hfits
    obtain ⟨u, hu, hspan⟩ := cast_ok hfits
    refine ⟨u, ?_, hspan⟩
    rw [splitCast, ht]
    simp only [ok_bind, hu, unwrapOk_ok]

theorem splitSlice_iff (v : UninitView (Ty.unit w)) (U : Ty w) :
    (∃ r, v.splitSlice U = .ok r ∧
      spans UninitSlice.span r = placementSplit v.ptr v.len (Layout.forEmptySlice U)) ↔
      SplitInPlace v.ptr v.len (Layout.forEmptySlice U) := by
  refine split_then_cast_iff ?_ ?_ ?_
  · intro s hs
    rw [splitSlice, hs]
    rfl
  · intro hn
    rw [splitSlice, hn]
    rfl
  · intro v' t ht hfits
    obtain ⟨u, hu, hspan⟩ := castSlice_ok hfits
    refine ⟨u, ?_, hspan⟩
    rw [splitSlice, ht]
    simp only [ok_bind, hu, unwrapOk_ok]

end UninitView

end StaticAlloc
