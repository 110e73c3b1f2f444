import StaticAlloc.FixedVec.Model
import StaticAlloc.Uninit.Placement

/-!
# A vector in unaligned memory

`from_unaligned` makes a vector of whatever memory it is given: it skips the bytes
before the first aligned address and uses as many elements as fit behind them, or
falls back to an empty dangling slice.  The skipping is left to `split_slice`,
which skips nothing: `fromUnaligned_of_dvd` uses all of an aligned region, and
`fromUnaligned_of_not_dvd` nothing of any other.

`placement_found_iff` collects the exact conditions for `split_layout`, its two
callers, and `from_unaligned`.
-/

namespace StaticAlloc

open Toolkit

variable {w : ℕ} {T : Ty w}

/-- `Uninit::as_memory`, of a view of any type. -/
def AnyView.asMemory : AnyView w → UninitView (Ty.unit w)
  | .sized _ v => v.decast
  | .slice _ s => s.decast

@[simp] theorem AnyView.asMemory_span (v : AnyView w) : v.asMemory.span = v.span := by
  cases v with
  | sized T v => exact v.decast_span
  | slice T s => exact s.decast_span

namespace FixedVec

/-- `FixedVec::from_unaligned`. -/
def fromUnaligned (T : Ty w) (generic : AnyView w) : Except Stop (FixedVec T) := do
  match ← generic.asMemory.splitSlice T with
  | none => .ok (new (UninitSlice.empty T))
  | some (_, slice) => .ok (new slice)

variable {generic : AnyView w}

/-- All of an aligned region is used. -/
theorem fromUnaligned_of_dvd (h : T.align ∣ generic.span.start) :
    ∃ vec, fromUnaligned T generic = .ok vec ∧ vec.uninit.span = generic.span := by
  rw [← AnyView.asMemory_span] at h ⊢
  obtain ⟨r, hr, hspans⟩ := (UninitView.splitSlice_iff generic.asMemory T).mpr (Or.inl h)
  have hall : placementSplit generic.asMemory.ptr generic.asMemory.len (Layout.forEmptySlice T) =
      some (⟨generic.asMemory.ptr, 0⟩, generic.asMemory.span) := by
    have hdvd : (Layout.forEmptySlice T).align ∣ generic.asMemory.ptr := h
    rw [placementSplit_of_dvd hdvd]
    exact if_pos (Nat.zero_le _)
  rw [hall] at hspans
  rcases r with - | ⟨v', u⟩
  · exact absurd hspans (by simp [UninitView.spans])
  · refine ⟨new u, ?_, (Prod.mk.inj (Option.some.inj hspans)).2⟩
    rw [fromUnaligned, hr]
    rfl

/-- Nothing of a misaligned region is used. -/
theorem fromUnaligned_of_not_dvd (h : ¬ T.align ∣ generic.span.start) :
    fromUnaligned T generic = if generic.span.size = usizeMax w then
      .error (.panic "assertion failed: aligned.fits(layout)")
      else .ok (new (UninitSlice.empty T)) := by
  rw [← AnyView.asMemory_span] at h ⊢
  have halign : ¬ (Layout.forEmptySlice T).align ∣ generic.asMemory.ptr := h
  have hsplit := UninitView.splitLayout_of_not_dvd halign
  rw [fromUnaligned, UninitView.splitSlice, hsplit]
  by_cases hlen : generic.asMemory.len = usizeMax w
  · rw [if_pos ⟨hlen, rfl⟩, if_pos (show generic.asMemory.span.size = _ from hlen)]
    rfl
  · rw [if_neg fun hc => hlen hc.1, if_neg (show generic.asMemory.span.size ≠ _ from hlen)]
    rfl

theorem capacity_of_size_pos {vec : FixedVec T} (h : 0 < T.size) :
    vec.capacity = vec.uninit.span.size / T.size := UninitSlice.capacity_of_size_pos h

/-- The elements that fit behind the padding. -/
def capacityBehind (T : Ty w) (ptr len : ℕ) : ℕ :=
  if padding ptr T.align ≤ len then (len - padding ptr T.align) / T.size else 0

theorem capacityBehind_eq_zero_iff {ptr len : ℕ} (h : 0 < T.size) :
    capacityBehind T ptr len = 0 ↔ len < padding ptr T.align + T.size := by
  unfold capacityBehind
  split
  · rw [Nat.div_eq_zero_iff_lt h]
    omega
  · exact iff_of_true rfl (by omega)

/-- **When `from_unaligned` uses the room there is.** -/
theorem fromUnaligned_iff (T : Ty w) (generic : AnyView w) :
    (∃ vec, fromUnaligned T generic = .ok vec ∧
      (0 < T.size → vec.capacity = capacityBehind T generic.span.start generic.span.size)) ↔
    T.align ∣ generic.span.start ∨ if T.size = 0 then generic.span.size ≠ usizeMax w
      else generic.span.size < padding generic.span.start T.align + T.size := by
  by_cases hdvd : T.align ∣ generic.span.start
  · refine iff_of_true ?_ (Or.inl hdvd)
    obtain ⟨vec, hvec, hspan⟩ := fromUnaligned_of_dvd hdvd
    refine ⟨vec, hvec, fun hsize => ?_⟩
    rw [capacity_of_size_pos hsize, hspan, capacityBehind,
      (padding_eq_zero_iff T.align_pos).mpr hdvd, if_pos (Nat.zero_le _), Nat.sub_zero]
  · rw [fromUnaligned_of_not_dvd hdvd, or_iff_right hdvd]
    have hempty : 0 < T.size → (new (UninitSlice.empty T)).capacity = 0 := fun hsize =>
      (capacity_of_size_pos hsize).trans (Nat.zero_div _)
    have hroom : padding generic.span.start T.align + T.size ≤ usizeMax w :=
      padding_add_size_le generic.span.start T.toLayout
    by_cases hlen : generic.span.size = usizeMax w
    · rw [if_pos hlen]
      refine iff_of_false (by rintro ⟨vec, hvec, -⟩; exact absurd hvec (by simp)) ?_
      split
      · exact fun hne => hne hlen
      · omega
    · rw [if_neg hlen]
      rcases Nat.eq_zero_or_pos T.size with hzero | hsize
      · rw [if_pos hzero]
        exact iff_of_true ⟨_, rfl, fun hpos => absurd hzero hpos.ne'⟩ hlen
      · rw [if_neg hsize.ne', ← capacityBehind_eq_zero_iff hsize]
        constructor
        · rintro ⟨vec, hvec, hcap⟩
          obtain rfl := Except.ok.inj hvec
          exact (hcap hsize).symm.trans (hempty hsize)
        · intro hzero
          exact ⟨_, rfl, fun _ => (hempty hsize).trans hzero.symm⟩

/-- **Where a placement is found exactly when there is one.**  A split by layout,
and the two that cast the part, cut at the first aligned address --- and do not
stop --- exactly if the view starts at that address already or there is no room
behind the padding.  A vector in unaligned memory has the elements that fit behind
the padding under the same condition; for elements without bytes all there is to
ask is that the region does not span the whole address space. -/
theorem placement_found_iff (w : ℕ) :
    (∀ (v : UninitView (Ty.unit w)) (layout : Layout w),
      (∃ r, v.splitLayout layout = .ok r ∧
        UninitView.spans UninitView.span r = placementSplit v.ptr v.len layout) ↔
      SplitInPlace v.ptr v.len layout) ∧
    (∀ (v : UninitView (Ty.unit w)) (U : Ty w),
      (∃ r, v.splitCast U = .ok r ∧
        UninitView.spans UninitView.span r = placementSplit v.ptr v.len U.toLayout) ↔
      SplitInPlace v.ptr v.len U.toLayout) ∧
    (∀ (v : UninitView (Ty.unit w)) (U : Ty w),
      (∃ r, v.splitSlice U = .ok r ∧ UninitView.spans UninitSlice.span r =
        placementSplit v.ptr v.len (Layout.forEmptySlice U)) ↔
      SplitInPlace v.ptr v.len (Layout.forEmptySlice U)) ∧
    ∀ (T : Ty w) (generic : AnyView w),
      (∃ vec, fromUnaligned T generic = .ok vec ∧
        (0 < T.size → vec.capacity = capacityBehind T generic.span.start generic.span.size)) ↔
      T.align ∣ generic.span.start ∨ if T.size = 0 then generic.span.size ≠ usizeMax w
        else generic.span.size < padding generic.span.start T.align + T.size :=
  ⟨UninitView.splitLayout_iff, UninitView.splitCast_iff, UninitView.splitSlice_iff,
    fromUnaligned_iff⟩

/-- **The misaligned region is refused.**  A word fits into the sixty-four bytes
at address 4097, seven of which are padding.  No split by layout finds it, and a
vector of words there has no capacity. -/
theorem fromUnaligned_refuses :
    let v : UninitView (Ty.unit 64) := UninitView.fromMemory 4097 64 (by decide) (by decide)
    placementSplit v.ptr v.len Ty.word.toLayout = some (⟨4097, 7⟩, ⟨4104, 57⟩) ∧
      v.splitLayout Ty.word.toLayout = .ok none ∧
      (∃ vec, fromUnaligned Ty.word (.sized _ v) = .ok vec ∧ vec.capacity = 0) ∧
      capacityBehind (w := 64) Ty.word 4097 64 = 7 := by
  refine ⟨by decide, rfl, ⟨_, rfl, rfl⟩, by decide⟩

end FixedVec

end StaticAlloc
