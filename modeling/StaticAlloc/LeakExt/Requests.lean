import StaticAlloc.Bump.Realloc
import StaticAlloc.LeakExt.Model

/-!
# What a request for memory returns

Whatever a program asks for, the allocator is asked for a layout, or for nothing if the
layout is empty: then a pointer is made up.  `serve` is that question.  Each function of
`LocalAllocLeakExt` wraps the block that is the answer, writes or copies a value to it, and
returns `None` if there is none; it never stops, since a block that was asked for with the
layout of a type can be cast to that type (`exec_request`).

`copy_dst` makes up a pointer for `()`, whatever the alignment of the value.  So a reference to
an empty value with an alignment above one is undefined behaviour (`copyDst_ok_iff`).
-/

namespace StaticAlloc

open Toolkit
open AllocTraits (NonZeroLayout)

variable {w : ℕ} {β ι σ : Type}

/-! ## Writing and copying -/

theorem inRegion_of_subset {region b : Span} {n : ℕ} (hsub : b.addresses ⊆ region.addresses)
    (hn : n ≤ b.size) : n = 0 ∨ InRegion region b.start n := by
  rcases Nat.eq_zero_or_pos n with h | h
  · exact Or.inl h
  · have hlt : b.start < b.stop := Nat.lt_add_of_pos_right (h.trans_le hn)
    obtain ⟨hstart, hstop⟩ := (Set.Ico_subset_Ico_iff hlt).mp hsub
    exact Or.inr ⟨hstart, (Nat.add_le_add_left hn _).trans hstop⟩

namespace Rc

/-- A box is as large as a counter. -/
theorem Types.box_pos (B : Types w) (h : 0 < B.usize.size) : 0 < B.box.size := by
  have hbox := B.box_eq
  unfold boxLayout at hbox
  cases hfirst : B.T.extend B.usize.toLayout with
  | none => simp [hfirst] at hbox
  | some first =>
    cases hsecond : first.1.extend B.usize.toLayout with
    | none => simp [hfirst, hsecond] at hbox
    | some second =>
      simp only [hfirst, hsecond, Option.bind_eq_bind, Option.bind_some, Option.some.injEq] at hbox
      have hextend : first.1.extend B.usize.toLayout = some (second.1, second.2) := hsecond
      obtain ⟨-, -, hsize, -⟩ := Layout.extend_some hextend
      have hle : second.1.size ≤ B.box.size := by
        rw [← hbox]
        exact le_roundUp
      omega

end Rc

/-! ## The question -/

namespace LeakExt

variable {A : Allocator w σ} {s s' : σ} {b : Span} {l : Layout w} {m : Bytes β}

/-- What is asked of the allocator for a layout, and the bytes that are the answer. -/
def serve (A : Allocator w σ) (s : σ) (l : Layout w) : Except Stop (σ × Option Span) :=
  match NonZeroLayout.fromLayout l with
  | none => .ok (s, some ⟨l.align, 0⟩)
  | some layout => do
    let (s, r) ← A.alloc s layout
    return (s, r.map AllocTraits.Allocation.span)

/-- An answer to a question for a layout. -/
structure Grants (A : Allocator w σ) (s s' : σ) (l : Layout w) (b : Span) : Prop where
  nonnull : 0 < b.start
  aligned : l.align ∣ b.start
  large : l.size ≤ b.size
  fresh : Disjoint b.addresses (A.used s)
  subset : b.addresses ⊆ A.used s'

/-- There is an answer, and what it is. -/
theorem serve_returns (hs : A.Ready s) (l : Layout w) : ∃ s' r, serve A s l = .ok (s', r) ∧
    A.Ready s' ∧ A.used s ⊆ A.used s' ∧ ∀ b ∈ r, Grants A s s' l b := by
  rcases Nat.eq_zero_or_pos l.size with hzero | hpos
  · refine ⟨s, some ⟨l.align, 0⟩, ?_, hs, Set.Subset.rfl, ?_⟩
    · rw [serve, NonZeroLayout.fromLayout, dif_neg (Nat.ne_of_gt · hzero)]
    · intro b hb
      obtain rfl := Option.some.inj hb
      have hempty : (Span.mk l.align 0).addresses = ∅ := Span.addresses_eq_empty rfl
      refine ⟨l.align_pos, dvd_rfl, hzero.le, ?_, ?_⟩
      · rw [hempty]
        exact Set.empty_disjoint _
      · rw [hempty]
        exact Set.empty_subset _
  · obtain ⟨s', r, halloc, hs', hmono, hall⟩ := A.returns hs ⟨l, hpos⟩
    refine ⟨s', r.map AllocTraits.Allocation.span, ?_, hs', hmono, ?_⟩
    · rw [serve, NonZeroLayout.fromLayout_of_pos hpos]
      simp only [halloc, ok_bind]
      rfl
    · intro b hb
      obtain ⟨a, ha, rfl⟩ := Option.map_eq_some_iff.mp hb
      have hgrant := hall a ha
      exact ⟨hgrant.nonnull, hgrant.aligned, hgrant.large, hgrant.fresh, hgrant.subset⟩

/-- Nothing is written outside of the block. -/
theorem Grants.write_ok (h : Grants A s s' l b) (hs' : A.Ready s') {val : List β}
    (hval : val.length ≤ b.size) : ptrWrite A.region m b.start val = .ok (m.put b.start val) :=
  if_pos (inRegion_of_subset (h.subset.trans (A.used_subset hs')) hval)

theorem Grants.copy_ok (h : Grants A s s' l b) (hs' : A.Ready s') {src n : ℕ} (hn : n ≤ b.size) :
    ptrCopyTo A.region m src b.start n = .ok (m.put b.start (m.get src n)) := by
  rw [← Bytes.copy_eq_put]
  exact if_pos (inRegion_of_subset (h.subset.trans (A.used_subset hs')) hn)

/-! ## The answers, wrapped -/

variable {r : Option Span}

/-- The memory after a value was written to the block, if there is one. -/
def written (m : Bytes β) (r : Option Span) (val : List β) : Bytes β :=
  match r with
  | none => m
  | some b => m.put b.start val

theorem written_nil : written m r [] = m := by
  cases r with
  | none => rfl
  | some b => exact Bytes.put_nil

theorem allocLayout_eq (hs : A.Ready s) (layout : NonZeroLayout w)
    (h : serve A s layout.toLayout = .ok (s', r)) :
    ∃ o, allocLayout A s layout = .ok (s', o) ∧ o.map UninitView.span = r := by
  obtain ⟨s'', r', halloc, -, -, hall⟩ := A.returns hs layout
  rw [serve, NonZeroLayout.fromLayout_of_pos layout.size_pos] at h
  simp only [halloc, ok_bind] at h
  obtain ⟨rfl, rfl⟩ := ok_pair_inj h
  rw [allocLayout, halloc]
  cases r' with
  | none => exact ⟨none, rfl, rfl⟩
  | some a =>
    simp only [ok_bind, dif_pos (hall a rfl).nonnull]
    exact ⟨_, rfl, rfl⟩

/-- An answer is a grant. -/
theorem grants_of_serve (hs : A.Ready s) (h : serve A s l = .ok (s', r)) :
    A.Ready s' ∧ A.used s ⊆ A.used s' ∧ ∀ b ∈ r, Grants A s s' l b := by
  obtain ⟨s'', r', hserve, hspec⟩ := serve_returns hs l
  obtain ⟨rfl, rfl⟩ := ok_pair_inj (hserve.symm.trans h)
  exact hspec

/-- A pointer is made up for a layout without bytes. -/
theorem serve_empty (hzero : l.size = 0) (h : serve A s l = .ok (s', r)) :
    NonZeroLayout.fromLayout l = none ∧ s' = s ∧ r = some ⟨l.align, 0⟩ := by
  have hnone : NonZeroLayout.fromLayout l = none := dif_neg (Nat.ne_of_gt · hzero)
  rw [serve, hnone] at h
  obtain ⟨rfl, rfl⟩ := ok_pair_inj h
  exact ⟨hnone, rfl, rfl⟩

/-- A view of a block that was asked for with a layout fits what has the layout. -/
theorem Grants.fits {u : UninitView (Ty.unit w)} {l' : Layout w} (h : Grants A s s' l u.span)
    (halign : l'.align = l.align) (hsize : l'.size ≤ l.size) : fits u.ptr u.len l' :=
  fits_iff.mpr ⟨halign ▸ h.aligned, hsize.trans h.large⟩

/-- The made-up view of a type without bytes. -/
theorem inventForZst_ok {V : Ty w} (h : V.size = 0) :
    ∃ u, UninitView.inventForZst V = .ok u ∧ u.span = dangling V := by
  obtain ⟨u, hu, hspan⟩ := UninitView.cast_ok (U := V)
    (v := UninitView.fromMemory (dangling V).start (dangling V).size (dangling_pos V)
      (dangling_lt_word V)) (fits_iff.mpr ⟨dvd_rfl, h.le⟩)
  refine ⟨u, ?_, hspan⟩
  rw [UninitView.inventForZst, assert_true h, ok_bind]
  exact congrArg unwrapOk hu

theorem allocT_eq (hs : A.Ready s) {V : Ty w} (h : serve A s V.toLayout = .ok (s', r)) :
    ∃ o, allocT A s V = .ok (s', o) ∧ o.map UninitView.span = r := by
  rcases Nat.eq_zero_or_pos V.size with hzero | hpos
  · obtain ⟨hnone, rfl, rfl⟩ := serve_empty hzero h
    obtain ⟨u, hu, hspan⟩ := inventForZst_ok hzero
    refine ⟨some u, ?_, congrArg some hspan⟩
    rw [allocT, hnone, hu]
    rfl
  · obtain ⟨-, -, hall⟩ := grants_of_serve hs h
    obtain ⟨o, halloc, rfl⟩ := allocLayout_eq hs ⟨V.toLayout, hpos⟩ h
    rw [allocT, NonZeroLayout.fromLayout_of_pos hpos]
    simp only [halloc, ok_bind]
    cases o with
    | none => exact ⟨none, rfl, rfl⟩
    | some allocation =>
      obtain ⟨u, hu, hspan⟩ := UninitView.cast_ok (U := V) ((hall _ rfl).fits rfl le_rfl)
      simp only [cast, hu, Except.toOption, unwrap_some, ok_bind]
      exact ⟨some u, rfl, congrArg some hspan⟩

theorem Box.new_ok {V : Ty w} {u : UninitView V} {val : List β}
    (h : ptrWrite A.region m u.ptr val = .ok (m.put u.ptr val)) :
    Box.new A.region m val u = .ok (m.put u.ptr val, ⟨u⟩) := by
  rw [Box.new, UninitView.init, h]
  rfl

theorem boxed_eq (hs : A.Ready s) {V : Ty w} {val : List β} (hval : val.length = V.size)
    (h : serve A s V.toLayout = .ok (s', r)) :
    ∃ o, boxed A s m V val = .ok (s', written m r val, o) ∧ o.map (·.inner.span) = r := by
  obtain ⟨hs', -, hall⟩ := grants_of_serve hs h
  obtain ⟨o, halloc, rfl⟩ := allocT_eq hs h
  rw [boxed, halloc]
  cases o with
  | none => exact ⟨none, rfl, rfl⟩
  | some u =>
    have hgrant := hall _ rfl
    have hwrite : ptrWrite A.region m u.ptr val = _ :=
      hgrant.write_ok hs' (hval.trans_le hgrant.large)
    simp only [ok_bind, Box.new_ok hwrite]
    exact ⟨some ⟨u⟩, rfl, rfl⟩

/-- The layout that `fixed_vec` asks for, if there is one. -/
def fixedLayout (V : Ty w) (capacity : ℕ) : Option (Layout w) :=
  (checkedMul w V.size capacity).bind (Layout.fromSizeAlign w · V.align)

theorem fixedLayout_some {V : Ty w} {n : ℕ} (h : fixedLayout V n = some l) :
    l.size = V.size * n ∧ l.align = V.align := by
  obtain ⟨size, hsize, hl⟩ := Option.bind_eq_some_iff.mp h
  obtain ⟨hs, ha⟩ := Layout.fromSizeAlign_some hl
  refine ⟨hs.trans ?_, ha⟩
  unfold checkedMul at hsize
  split at hsize
  · exact (Option.some.inj hsize).symm
  · exact absurd hsize (by simp)

theorem fixedVec_none {V : Ty w} {n : ℕ} (h : fixedLayout V n = none) :
    fixedVec A s V n = .ok (s, none) := by
  rw [fixedVec, ← fixedLayout, h]

/-- A view of a block can be cast to a slice. -/
theorem Grants.castSlice {u : UninitView (Ty.unit w)} {V : Ty w} (h : Grants A s s' l u.span)
    (halign : V.align = l.align) :
    ∃ v : UninitSlice V, LocalAllocLeakExt.castSlice V u = some v ∧ v.span = u.span ∧
      v.sliceLen = v.capacity := by
  have hfits : StaticAlloc.fits u.ptr u.len (Layout.forEmptySlice V) :=
    h.fits halign (Nat.zero_le _)
  obtain ⟨v, hv, hspan⟩ := UninitView.castSlice_ok hfits
  refine ⟨v, ?_, hspan, UninitSlice.castSlice_sliceLen hv⟩
  rw [LocalAllocLeakExt.castSlice, hv]
  rfl

theorem fixedVec_eq (hs : A.Ready s) {V : Ty w} {n : ℕ} (hl : fixedLayout V n = some l)
    (h : serve A s l = .ok (s', r)) :
    ∃ o, fixedVec A s V n = .ok (s', o) ∧ o.map (·.uninit.span) = r ∧ ∀ v ∈ o, v.length = 0 := by
  obtain ⟨-, halign⟩ := fixedLayout_some hl
  rw [fixedVec, ← fixedLayout, hl]
  rcases Nat.eq_zero_or_pos l.size with hzero | hpos
  · obtain ⟨hnone, rfl, rfl⟩ := serve_empty hzero h
    simp only [hnone]
    refine ⟨_, rfl, ?_, fun v hv => (Option.some.inj hv) ▸ rfl⟩
    rw [halign]
    rfl
  · obtain ⟨-, -, hall⟩ := grants_of_serve hs h
    obtain ⟨o, halloc, rfl⟩ := allocLayout_eq hs ⟨l, hpos⟩ h
    simp only [NonZeroLayout.fromLayout_of_pos hpos, halloc, ok_bind]
    cases o with
    | none => exact ⟨none, rfl, rfl, fun v hv => absurd hv (by simp)⟩
    | some u =>
      obtain ⟨v, hv, hspan, -⟩ := (hall _ rfl).castSlice halign.symm
      simp only [hv, unwrap_some, ok_bind]
      exact ⟨_, rfl, congrArg some hspan, fun v' hv' => (Option.some.inj hv') ▸ rfl⟩

/-- The memory side of `Rc::new` in memory that is large enough and aligned. -/
theorem Rc.place_ok {B : Rc.Types w} {val : List β} {u : UninitView (Ty.unit w)}
    (hfits : StaticAlloc.fits u.ptr u.len B.box.toLayout)
    (hwrite : ptrWrite A.region m u.ptr val = .ok (m.put u.ptr val)) :
    ∃ inner : UninitView B.box, Rc.place A.region m B val u = .ok (m.put u.ptr val, inner) ∧
      inner.span = u.span := by
  obtain ⟨inner, hinner, hspan⟩ := UninitView.cast_ok hfits
  have hptr : inner.ptr = u.ptr := congrArg Span.start hspan
  refine ⟨inner, ?_, hspan⟩
  rw [Rc.place]
  simp only [assert_true hfits, ok_bind, hinner, unwrapOk_ok, UninitView.init, hptr, hwrite]
  rfl

theorem rc_eq (hs : A.Ready s) {B : Rc.Types w} {val : List β} (hpos : 0 < B.box.size)
    (hval : val.length = B.box.size) (h : serve A s B.box.toLayout = .ok (s', r)) :
    ∃ o, rc A s m B val = .ok (s', written m r val, o) ∧ o.map UninitView.span = r := by
  obtain ⟨hs', -, hall⟩ := grants_of_serve hs h
  obtain ⟨o, halloc, rfl⟩ := allocLayout_eq hs ⟨B.box.toLayout, hpos⟩ h
  rw [rc, NonZeroLayout.fromLayout_of_pos hpos]
  simp only [unwrap_some, ok_bind, halloc]
  cases o with
  | none => exact ⟨none, rfl, rfl⟩
  | some u =>
    have hgrant := hall _ rfl
    obtain ⟨inner, hplace, hspan⟩ := Rc.place_ok (A := A) (m := m) (hgrant.fits rfl le_rfl)
      (hgrant.write_ok hs' (hval.trans_le hgrant.large))
    simp only [hplace, ok_bind]
    exact ⟨some inner, rfl, congrArg some hspan⟩

/-- The slice that `copy_slice` makes of a block. -/
structure Copied {T : Ty w} (slice : SliceRef T) (b : Span) (c : RawSlice) : Prop where
  ptr : c.ptr = b.start
  large : slice.len * T.size ≤ c.len * T.size
  le : c.len * T.size ≤ b.size

/-- A block that was asked for with the layout of a slice has room for its elements. -/
theorem Grants.copied {T : Ty w} {slice : SliceRef T} {u : UninitSlice T}
    (h : Grants A s s' slice.layout u.span) (hlen : u.sliceLen = u.capacity) :
    Copied slice u.span u.intoMut where
  ptr := rfl
  large := by
    show slice.len * T.size ≤ u.sliceLen * T.size
    rcases Nat.eq_zero_or_pos T.size with hzero | hpos
    · rw [hzero]
      exact Nat.le_refl _
    · have hle : T.size * slice.len ≤ u.len := h.large
      rw [hlen, UninitSlice.capacity_of_size_pos hpos]
      refine Nat.mul_le_mul_right _ ((Nat.le_div_iff_mul_le hpos).mpr ?_)
      rwa [Nat.mul_comm]
  le := by
    show u.sliceLen * T.size ≤ u.len
    rw [hlen]
    exact u.capacity_mul_le

theorem copySlice_eq (hs : A.Ready s) {T : Ty w} (slice : SliceRef T)
    (h : serve A s slice.layout = .ok (s', r)) :
    ∃ o, copySlice A s m slice =
        .ok (s', written m r (m.get slice.ptr (slice.len * T.size)), o) ∧
      ((r = none ∧ o = none) ∨ ∃ b c, r = some b ∧ o = some c ∧ Copied slice b c) := by
  have hsize : slice.len * T.size = slice.layout.size := Nat.mul_comm _ _
  obtain ⟨hs', -, hall⟩ := grants_of_serve hs h
  rcases Nat.eq_zero_or_pos slice.layout.size with hzero | hpos
  · obtain ⟨hnone, rfl, rfl⟩ := serve_empty hzero h
    have hgrant : Grants A s' s' slice.layout (UninitSlice.empty T).span := hall _ rfl
    have hcopy : ptrCopyTo A.region m slice.ptr (UninitSlice.empty T).ptr _ = _ :=
      hgrant.copy_ok (m := m) hs' (hsize.trans_le hgrant.large)
    rw [copySlice, hnone]
    simp only [ok_bind, hcopy]
    refine ⟨_, rfl, Or.inr ⟨_, _, rfl, rfl, rfl, ?_, ?_⟩⟩
    · rw [hsize, hzero]
      exact Nat.zero_le _
    · exact (Nat.zero_mul _).le
  · obtain ⟨o, halloc, rfl⟩ := allocLayout_eq hs ⟨slice.layout, hpos⟩ h
    rw [copySlice, NonZeroLayout.fromLayout_of_pos hpos]
    simp only [halloc, ok_bind]
    cases o with
    | none => exact ⟨none, rfl, Or.inl ⟨rfl, rfl⟩⟩
    | some u =>
      have hgrant : Grants A s s' slice.layout u.span := hall _ rfl
      obtain ⟨v, hv, hspan, hlen⟩ := hgrant.castSlice (V := T) rfl
      rw [← hspan] at hgrant
      have hcopy : ptrCopyTo A.region m slice.ptr v.ptr _ = _ :=
        hgrant.copy_ok (m := m) hs' (hsize.trans_le hgrant.large)
      simp only [hv, unwrap_some, ok_bind, pure_eq_ok, hcopy]
      refine ⟨_, ?_, Or.inr ⟨_, _, rfl, rfl, hspan ▸ hgrant.copied hlen⟩⟩
      rw [Option.map_some, ← hspan]
      rfl

theorem copyDst_eq (hs : A.Ready s) {val : ℕ} (hgood : 0 < l.size ∨ l.align = 1)
    (h : serve A s l = .ok (s', r)) :
    ∃ o, copyDst A s m l val = .ok (s', written m r (m.get val l.size), o) ∧
      o = r.map Span.start := by
  obtain ⟨hs', -, hall⟩ := grants_of_serve hs h
  rcases Nat.eq_zero_or_pos l.size with hzero | hpos
  · obtain ⟨hnone, rfl, rfl⟩ := serve_empty hzero h
    have halign : l.align = 1 := hgood.resolve_left (Nat.not_lt.mpr hzero.le)
    obtain ⟨u, hu, hspan⟩ := inventForZst_ok (V := Ty.unit w) rfl
    have hptr : u.ptr = 1 := congrArg Span.start hspan
    have hcopy : ptrCopyTo A.region m val l.align l.size = _ :=
      (hall _ rfl).copy_ok hs' hzero.le
    rw [halign] at hcopy ⊢
    rw [copyDst, hnone]
    simp only [hu, ok_bind, pure_eq_ok, hptr, halign, hcopy, dvd_rfl, if_true]
    exact ⟨_, rfl, rfl⟩
  · obtain ⟨o, halloc, rfl⟩ := allocLayout_eq hs ⟨l, hpos⟩ h
    rw [copyDst, NonZeroLayout.fromLayout_of_pos hpos]
    simp only [halloc, ok_bind]
    cases o with
    | none => exact ⟨none, rfl, rfl⟩
    | some u =>
      have hgrant : Grants A s s' l u.span := hall _ rfl
      have hcopy : ptrCopyTo A.region m val u.ptr l.size = _ := hgrant.copy_ok hs' hgrant.large
      have halign : l.align ∣ u.ptr := hgrant.aligned
      simp only [hcopy, ok_bind, if_pos halign]
      exact ⟨_, rfl, rfl⟩

namespace Handle

/-- The layout of what a handle points to; for a slice, that of an empty one. -/
def layout : Handle w → Layout w
  | view (.sized T _) => T.toLayout
  | view (.slice T _) => Layout.forEmptySlice T
  | boxed T _ => T.toLayout
  | vec T _ => Layout.forEmptySlice T
  | rc B _ => B.box.toLayout
  | reference T _ => T.toLayout
  | slice T _ => Layout.forEmptySlice T
  | dst layout _ => layout

/-- A handle that may be dereferenced, as far as the pointer goes. -/
structure Sound (h : Handle w) : Prop where
  nonnull : 0 < h.span.start
  aligned : h.layout.align ∣ h.span.start
  large : h.layout.size ≤ h.span.size

theorem Sound.accessible_le {h : Handle w} (hs : h.Sound) : h.accessible ≤ h.span.size := by
  cases h with
  | view v => exact Nat.zero_le _
  | boxed T b => exact hs.large
  | vec | rc | reference | slice | dst => exact le_rfl

theorem sound_view (v : AnyView w) : (view v).Sound := by
  cases v with
  | sized T u => exact ⟨u.nonnull, u.aligned, u.large⟩
  | slice T u => exact ⟨u.nonnull, u.aligned, Nat.zero_le _⟩

theorem sound_boxed {T : Ty w} (b : Box T) : (boxed T b).Sound :=
  ⟨b.inner.nonnull, b.inner.aligned, b.inner.large⟩

theorem sound_vec {T : Ty w} (v : FixedVec T) : (vec T v).Sound :=
  ⟨v.uninit.nonnull, v.uninit.aligned, Nat.zero_le _⟩

theorem sound_rc {B : Rc.Types w} (inner : UninitView B.box) : (rc B inner).Sound :=
  ⟨inner.nonnull, inner.aligned, inner.large⟩

theorem sound_reference {T : Ty w} (u : UninitView T) : (reference T u.ptr).Sound :=
  ⟨u.nonnull, u.aligned, le_rfl⟩

end Handle

/-- What an act asks for: the variable for it, the layout if there is one, and the bytes that
the memory is to have. -/
def Act.request : Act w ι β → Option (ι × Option (Layout w) × List β)
  | allocLayout x layout => some (x, some layout.toLayout, [])
  | allocT x V => some (x, some V.toLayout, [])
  | boxed x V val => some (x, some V.toLayout, val)
  | fixedVec x V capacity => some (x, fixedLayout V capacity, [])
  | rc x B val => some (x, some B.box.toLayout, val)
  | copySlice x _ slice val => some (x, some slice.layout, val)
  | copyDst x layout _ val => some (x, some layout, val)
  | _ => none

/-- The handle that an act makes. -/
def Act.Makes : Act w ι β → Handle w → Prop
  | allocLayout _ _, .view (.sized T _) => T = Ty.unit w
  | allocT _ V, .view (.sized T _) => T = V
  | boxed _ V _, .boxed T _ => T = V
  | fixedVec _ V _, .vec T v => T = V ∧ v.length = 0
  | rc _ B _, .rc B' _ => B' = B
  | copySlice _ T _ _, .slice T' _ => T' = T
  | copyDst _ layout _ _, .dst layout' _ => layout' = layout
  | _, _ => False

variable {st : State w ι β σ} {act : Act w ι β} {x : ι} {val : List β} {alloc : σ}

section

variable [DecidableEq ι]

/-- The state and the reply after a request: the variable has a handle for bytes of the block
from its start on, at least as many as were asked for; or nothing happened. -/
def Answers (st : State w ι β σ) (act : Act w ι β) (x : ι) (l : Layout w) (val : List β)
    (alloc : σ) (r : Option Span) (res : State w ι β σ × Reply β) : Prop :=
  (r = none ∧ res = ({ st with alloc := alloc }, .refused)) ∨
    ∃ b g, r = some b ∧ res = ({ st.assign x (some g) with
      alloc := alloc, bytes := st.bytes.put b.start val }, .done) ∧ act.Makes g ∧ g.Sound ∧
      g.span.start = b.start ∧ l.size ≤ g.span.size ∧ g.span.size ≤ b.size

theorem answers_wrapped {γ : Type} {o : Option γ} {sp : γ → Span} (f : γ → Handle w)
    (hmap : o.map sp = r) (hmakes : ∀ u ∈ o, act.Makes (f u)) (hspan : ∀ u, (f u).span = sp u)
    (hsound : ∀ u, (f u).Sound) (hl : ∀ b ∈ r, l.size ≤ b.size) :
    Answers st act x l val alloc r (st.receive alloc (written st.bytes r val) x (o.map f)) := by
  subst hmap
  cases o with
  | none => exact Or.inl ⟨rfl, rfl⟩
  | some u =>
    have hb := hl _ rfl
    refine Or.inr ⟨sp u, f u, rfl, rfl, hmakes u rfl, hsound u, ?_⟩
    rw [hspan]
    exact ⟨rfl, hb, le_rfl⟩

/-- **A request does what it says**, whatever is asked for. -/
theorem exec_request (hs : A.Ready st.alloc) (hreq : act.request = some (x, some l, val))
    (hen : st.Enabled act) (h : serve A st.alloc l = .ok (alloc, r)) :
    ∃ res, st.exec A act = .ok res ∧ Answers st act x l val alloc r res := by
  obtain ⟨-, -, hall⟩ := grants_of_serve hs h
  have hl : ∀ b ∈ r, l.size ≤ b.size := fun b hb => (hall b hb).large
  cases act with
  | allocLayout y layout =>
    obtain ⟨rfl, hlayout, rfl⟩ : y = x ∧ layout.toLayout = l ∧ [] = val := by
      simpa [Act.request] using hreq
    subst hlayout
    obtain ⟨o, heq, hmap⟩ := allocLayout_eq hs layout h
    refine ⟨_, ?_, answers_wrapped (fun u => .view (.sized _ u)) hmap (fun _ _ => rfl)
      (fun _ => rfl) (fun _ => Handle.sound_view _) hl⟩
    rw [State.exec, heq, written_nil]
    rfl
  | allocT y V =>
    obtain ⟨rfl, hlayout, rfl⟩ : y = x ∧ V.toLayout = l ∧ [] = val := by
      simpa [Act.request] using hreq
    subst hlayout
    obtain ⟨o, heq, hmap⟩ := allocT_eq hs h
    refine ⟨_, ?_, answers_wrapped (fun u => .view (.sized V u)) hmap (fun _ _ => rfl)
      (fun _ => rfl) (fun _ => Handle.sound_view _) hl⟩
    rw [State.exec, heq, written_nil]
    rfl
  | boxed y V v =>
    obtain ⟨rfl, hlayout, rfl⟩ : y = x ∧ V.toLayout = l ∧ v = val := by
      simpa [Act.request] using hreq
    subst hlayout
    obtain ⟨o, heq, hmap⟩ := boxed_eq (m := st.bytes) hs hen.2 h
    refine ⟨_, ?_, answers_wrapped (.boxed V) hmap (fun _ _ => rfl) (fun _ => rfl)
      Handle.sound_boxed hl⟩
    rw [State.exec, heq]
    rfl
  | fixedVec y V n =>
    obtain ⟨rfl, hlayout, rfl⟩ : y = x ∧ fixedLayout V n = some l ∧ [] = val := by
      simpa [Act.request] using hreq
    obtain ⟨o, heq, hmap, hempty⟩ := fixedVec_eq hs hlayout h
    refine ⟨_, ?_, answers_wrapped (.vec V) hmap (fun v hv => ⟨rfl, hempty v hv⟩) (fun _ => rfl)
      Handle.sound_vec hl⟩
    rw [State.exec, heq, written_nil]
    rfl
  | rc y B v =>
    obtain ⟨rfl, hlayout, rfl⟩ : y = x ∧ B.box.toLayout = l ∧ v = val := by
      simpa [Act.request] using hreq
    subst hlayout
    obtain ⟨-, hcounter, hval⟩ := hen
    obtain ⟨o, heq, hmap⟩ := rc_eq (m := st.bytes) hs (B.box_pos hcounter) hval h
    refine ⟨_, ?_, answers_wrapped (.rc B) hmap (fun _ _ => rfl) (fun _ => rfl)
      Handle.sound_rc hl⟩
    rw [State.exec, heq]
    rfl
  | copySlice y T slice v =>
    obtain ⟨rfl, hlayout, rfl⟩ : y = x ∧ slice.layout = l ∧ v = val := by
      simpa [Act.request] using hreq
    subst hlayout
    obtain ⟨-, hval⟩ := hen
    obtain ⟨o, heq, hmap⟩ := copySlice_eq (m := st.bytes) hs slice h
    rw [hval] at heq
    refine ⟨_, by rw [State.exec, heq]; rfl, ?_⟩
    rcases hmap with ⟨rfl, rfl⟩ | ⟨b, c, rfl, rfl, hcopied⟩
    · exact Or.inl ⟨rfl, rfl⟩
    · have hsize : slice.layout.size = slice.len * T.size := Nat.mul_comm _ _
      refine Or.inr ⟨b, .slice T c, rfl, rfl, rfl, ⟨?_, ?_, Nat.zero_le _⟩, hcopied.ptr, ?_,
        hcopied.le⟩
      · show 0 < c.ptr
        rw [hcopied.ptr]
        exact (hall b rfl).nonnull
      · show T.align ∣ c.ptr
        rw [hcopied.ptr]
        exact (hall b rfl).aligned
      · rw [hsize]
        exact hcopied.large
  | copyDst y layout ptr v =>
    obtain ⟨rfl, rfl, rfl⟩ : y = x ∧ layout = l ∧ v = val := by
      simpa [Act.request] using hreq
    obtain ⟨-, hval, hgood⟩ := hen
    obtain ⟨o, heq, rfl⟩ := copyDst_eq (m := st.bytes) hs hgood h
    rw [hval] at heq
    refine ⟨_, by rw [State.exec, heq]; rfl, ?_⟩
    cases r with
    | none => exact Or.inl ⟨rfl, rfl⟩
    | some b =>
      have hgrant := hall b rfl
      exact Or.inr ⟨b, .dst layout b.start, rfl, rfl, rfl,
        ⟨hgrant.nonnull, hgrant.aligned, le_rfl⟩, rfl, le_rfl, hgrant.large⟩
  | traverse | init | boxNew | vecNew | rcNew | vecShrink | boxTake | boxIntoRaw | boxFromRaw
  | boxLeak | boxDrop | write | read | release => exact absurd hreq (by simp [Act.request])

/-- A request without a layout is refused. -/
theorem exec_request_none (hreq : act.request = some (x, none, val)) :
    st.exec A act = .ok (st, .refused) := by
  cases act with
  | fixedVec y V n =>
    obtain ⟨-, hlayout, -⟩ : y = x ∧ fixedLayout V n = none ∧ [] = val := by
      simpa [Act.request] using hreq
    rw [State.exec, fixedVec_none hlayout]
    rfl
  | allocLayout | allocT | boxed | rc | copySlice | copyDst | traverse | init | boxNew | vecNew
  | rcNew | vecShrink | boxTake | boxIntoRaw | boxFromRaw | boxLeak | boxDrop | write | read
  | release => exact absurd hreq (by simp [Act.request])

end

end LeakExt

/-! ## The arena -/

namespace Bump

/-- An arena as an allocator.  Its bytes are not its business. -/
def allocator (S : Storage w) (via : Via) : Allocator w (Memory Unit) where
  alloc m layout := via.localAlloc S m layout
  region := S.span
  Ready m := m.consumed ≤ S.len
  used m := Set.Ico S.base (S.base + m.consumed)
  used_subset hm := Set.Ico_subset_Ico le_rfl (Nat.add_le_add_left hm _)
  returns {m} hm layout := by
    rw [localAlloc_eq via hm]
    by_cases hroom : m.Room S layout.toLayout
    · rw [if_pos hroom]
      refine ⟨_, _, rfl, hroom, Set.Ico_subset_Ico le_rfl (Nat.add_le_add_left
        (le_placement.trans (Nat.le_add_right _ _)) _), fun a ha => ?_⟩
      obtain rfl := Option.some.inj ha
      refine ⟨S.nonnull.trans_le (Nat.le_add_right _ _), dvd_placement, le_rfl, ?_, ?_⟩
      · exact Span.disjoint_Ico (Or.inr (Nat.add_le_add_left le_placement _))
      · exact Set.Ico_subset_Ico (Nat.le_add_right _ _) (Nat.add_assoc _ _ _).le
    · rw [if_neg hroom]
      exact ⟨_, _, rfl, hm, Set.Subset.rfl, fun a ha => absurd ha (by simp)⟩

end Bump

end StaticAlloc
