import StaticAlloc.Bump.Local

/-!
# Reallocation keeps contents and leaves others alone

The blocks a user holds lie packed below the level of the arena, and whatever the
user does keeps them there (`inv_step`): a new block lies behind all others, and
a block that stays in place only becomes smaller.  So the old block and the new one
never overlap, which is what `copy_nonoverlapping` needs, and a copy into the new
block touches nobody else's bytes.

`Reallocates` is the contract, for one call.  Its three cases are the three ways in
which `realloc` can end: in place (`reallocates_in_place`), moved
(`reallocates_moved`), and refused (`reallocates_refused`).
-/

namespace StaticAlloc
namespace Bump

open Toolkit
open AllocTraits (NonZeroLayout)

variable {w : ℕ} {β : Type} {S : Storage w} {m : Memory β} {a : AllocTraits.Allocation w}
  {layout : NonZeroLayout w}

/-! ## What the calls return -/

/-- The memory after a block for `layout` was taken. -/
def Memory.taken (S : Storage w) (m : Memory β) (layout : Layout w) : Memory β :=
  { m with consumed := placement S layout m.consumed + layout.size }

/-- Whether there is room for a block. -/
def Memory.Room (S : Storage w) (m : Memory β) (layout : Layout w) : Prop :=
  placement S layout m.consumed + layout.size ≤ S.len

instance {layout : Layout w} : Decidable (m.Room S layout) := inferInstanceAs (Decidable (_ ≤ _))

/-- Where the block starts. -/
def Memory.fresh (S : Storage w) (m : Memory β) (layout : Layout w) : ℕ :=
  S.base + placement S layout m.consumed

theorem localAlloc_eq (via : Via) (hc : m.consumed ≤ S.len) : via.localAlloc S m layout =
    .ok (if m.Room S layout.toLayout then
      (m.taken S layout.toLayout, some ⟨m.fresh S layout.toLayout, layout⟩)
      else (m, none)) := by
  have h : BumpView.localAlloc S m layout = .ok (if m.Room S layout.toLayout then
      (m.taken S layout.toLayout, some ⟨m.fresh S layout.toLayout, layout⟩)
      else (m, none)) := by
    rw [BumpView.localAlloc, BumpView.getLayout, tryAlloc_eq layout.size_pos hc]
    by_cases hroom : m.Room S layout.toLayout
    · rw [if_pos hroom, if_pos (by exact hroom)]
      rfl
    · rw [if_neg hroom, if_neg (by exact hroom)]
      rfl
  cases via with
  | bump => exact h
  | view => exact h

theorem globalAlloc_eq (via : Via) (hc : m.consumed ≤ S.len) : via.globalAlloc S m layout.toLayout =
    .ok (if m.Room S layout.toLayout then
      (m.taken S layout.toLayout, m.fresh S layout.toLayout) else (m, 0)) := by
  have h : BumpView.globalAlloc S m layout.toLayout = .ok (if m.Room S layout.toLayout then
      (m.taken S layout.toLayout, m.fresh S layout.toLayout) else (m, 0)) := by
    rw [BumpView.globalAlloc, BumpView.alloc, tryAlloc_eq layout.size_pos hc]
    by_cases hroom : m.Room S layout.toLayout
    · rw [if_pos hroom, if_pos (by exact hroom)]
      rfl
    · rw [if_neg hroom, if_neg (by exact hroom)]
      rfl
  cases via with
  | bump => exact h
  | view => exact h

/-- The block stays where it is. -/
def InPlace (a : AllocTraits.Allocation w) (layout : NonZeroLayout w) : Prop :=
  a.ptr % layout.align = 0 ∧ a.layout.size ≥ layout.size

instance : Decidable (InPlace a layout) := inferInstanceAs (Decidable (_ ∧ _))

/-- The memory after a block was moved. -/
def Memory.moved (S : Storage w) (m : Memory β) (a : AllocTraits.Allocation w)
    (layout : NonZeroLayout w) : Memory β :=
  { m.taken S layout.toLayout with
    bytes := m.bytes.copy a.ptr (m.fresh S layout.toLayout) (min layout.size a.layout.size) }

/-- The block lies below the level. -/
def Below (S : Storage w) (m : Memory β) (a : AllocTraits.Allocation w) : Prop :=
  S.base ≤ a.ptr ∧ a.ptr + a.layout.size ≤ S.base + m.consumed

/-- The new block lies behind the old one, so the copy is allowed. -/
theorem copy_moved (hc : m.consumed ≤ S.len) (ha : Below S m a)
    (hroom : m.Room S layout.toLayout) :
    ptrCopyNonoverlapping S.span (m.taken S layout.toLayout).bytes a.ptr
        (m.fresh S layout.toLayout) (min layout.size a.layout.size) =
      .ok (m.moved S a layout).bytes := by
  have hle : m.consumed ≤ placement S layout.toLayout m.consumed := le_placement
  have hmin : min layout.size a.layout.size ≤ a.layout.size := min_le_right _ _
  have hmin' : min layout.size a.layout.size ≤ layout.size := min_le_left _ _
  have hroom' : placement S layout.toLayout m.consumed + layout.size ≤ S.len := hroom
  have hfresh : m.fresh S layout.toLayout = S.base + placement S layout.toLayout m.consumed := rfl
  refine ptrCopyNonoverlapping_ok (Or.inl ?_) ⟨ha.1, ?_⟩ ⟨?_, ?_⟩
  · show a.ptr + min layout.size a.layout.size ≤ m.fresh S layout.toLayout
    have := ha.2
    omega
  · show a.ptr + min layout.size a.layout.size ≤ S.base + S.len
    have := ha.2
    omega
  · show S.base ≤ m.fresh S layout.toLayout
    omega
  · show m.fresh S layout.toLayout + min layout.size a.layout.size ≤ S.base + S.len
    omega

/-- **The three ways of `realloc`.** -/
theorem localRealloc_eq (via : Via) (hc : m.consumed ≤ S.len) (ha : Below S m a) :
    via.localRealloc S m a layout = .ok (
      if InPlace a layout then (m, some ⟨a.ptr, layout⟩)
      else if m.Room S layout.toLayout then
        (m.moved S a layout, some ⟨m.fresh S layout.toLayout, layout⟩)
      else (m, none)) := by
  have hbody : ∀ via' : Via, reallocBy S (via'.localAlloc S) m a layout = .ok (
      if InPlace a layout then (m, some ⟨a.ptr, layout⟩)
      else if m.Room S layout.toLayout then
        (m.moved S a layout, some ⟨m.fresh S layout.toLayout, layout⟩)
      else (m, none)) := by
    intro via'
    rw [reallocBy]
    by_cases hin : InPlace a layout
    · rw [if_pos (by exact hin), if_pos hin]
      rfl
    · rw [if_neg (by exact hin), if_neg hin]
      simp only [localAlloc_eq via' hc]
      by_cases hroom : m.Room S layout.toLayout
      · rw [if_pos hroom, if_pos hroom]
        simp only [ok_bind, copy_moved hc ha hroom]
        rfl
      · rw [if_neg hroom, if_neg hroom]
        rfl
  cases via with
  | bump => exact hbody .bump
  | view => exact hbody .view

/-- `layout_reallocated`: the alignment stays. -/
theorem layoutReallocated_eq (layout : NonZeroLayout w) {newSize : ℕ} (hpos : 0 < newSize) :
    layoutReallocated layout newSize = .ok none ∨
      ∃ target, layoutReallocated layout newSize = .ok (some target) ∧
        target.size = newSize ∧ target.align = layout.align := by
  cases h : Layout.fromSizeAlign w newSize layout.align with
  | none =>
    refine Or.inl ?_
    rw [layoutReallocated, h]
  | some l =>
    obtain ⟨hsize, halign⟩ := Layout.fromSizeAlign_some h
    refine Or.inr ⟨⟨l, hsize ▸ hpos⟩, ?_, hsize, halign⟩
    rw [layoutReallocated, h]
    simp only [NonZeroLayout.fromLayout_of_pos (hsize ▸ hpos : 0 < l.size), unwrap_some, ok_bind]
    rfl

/-- **Global and local reallocation agree**, where there is a layout of the new
size; where there is none, nothing happens. -/
theorem globalRealloc_eq (via : Via) {newSize : ℕ} (hpos : 0 < newSize) (hptr : a.ptr ≠ 0) :
    (layoutReallocated a.layout newSize = .ok none ∧
      via.globalRealloc S m a.ptr a.layout.toLayout newSize = .ok (m, 0)) ∨
    ∃ target, layoutReallocated a.layout newSize = .ok (some target) ∧
      target.size = newSize ∧ target.align = a.layout.align ∧
      via.globalRealloc S m a.ptr a.layout.toLayout newSize =
        (Via.view.localRealloc S m a target).map fun r =>
          (r.1, (r.2.map AllocTraits.Allocation.ptr).getD 0) := by
  have hview : via.globalRealloc S m a.ptr a.layout.toLayout newSize =
      BumpView.globalRealloc S m a.ptr a.layout.toLayout newSize := by
    cases via with
    | bump => rfl
    | view => rfl
  rw [hview, BumpView.globalRealloc, NonZeroLayout.fromLayout_of_pos a.layout.size_pos]
  simp only [unwrap_some, ok_bind, if_neg (Nat.ne_of_gt hpos), if_neg hptr]
  rcases layoutReallocated_eq a.layout hpos with hnone | ⟨target, hsome, hsize, halign⟩
  · refine Or.inl ⟨hnone, ?_⟩
    rw [hnone]
    rfl
  · refine Or.inr ⟨target, hsome, hsize, halign, ?_⟩
    rw [hsome]
    show (BumpView.localRealloc S m a target >>= _) =
      (BumpView.localRealloc S m a target).map _
    cases BumpView.localRealloc S m a target with
    | error stop => rfl
    | ok r =>
      obtain ⟨m', b⟩ := r
      cases b with
      | none => rfl
      | some b => rfl

/-! ## The contract of one call -/

/-- What a reallocation of the `i`-th block to a size and an alignment may do.  The
call left the memory `τ` and returned a pointer, or refused. -/
structure Reallocates (S : Storage w) (σ : Session w β) (i : ℕ) (a : AllocTraits.Allocation w)
    (size align : ℕ) (τ : Memory β) (r : Option ℕ) : Prop where
  aligned : ∀ p ∈ r, align ∣ p
  inside : ∀ p ∈ r, (Span.mk p size).addresses ⊆ S.span.addresses
  apart : ∀ p ∈ r, ∀ j c, j ≠ i → σ.live[j]? = some c →
    Disjoint (Span.mk p size).addresses c.span.addresses
  contents : ∀ p ∈ r, Bytes.Same σ.memory.bytes τ.bytes a.ptr p (min a.layout.size size)
  /-- A call that refuses leaves the level and every byte alone. -/
  refused : r = none → τ = σ.memory
  frame : ∀ j c, j ≠ i → σ.live[j]? = some c →
    Set.EqOn τ.bytes σ.memory.bytes c.span.addresses

/-- The blocks held lie apart, below the level. -/
structure Session.Inv (S : Storage w) (σ : Session w β) : Prop where
  packed : Packed S.base (S.base + σ.memory.consumed)
    (σ.live.map AllocTraits.Allocation.span)
  consumed_le : σ.memory.consumed ≤ S.len

namespace Session

variable {σ τ : Session w β} {i : ℕ}

theorem Inv.below (h : σ.Inv S) (ha : a ∈ σ.live) : Below S σ.memory a :=
  h.packed.within a.span (List.mem_map_of_mem ha)

theorem Inv.disjoint (h : σ.Inv S) (ha : σ.live[i]? = some a) {j : ℕ}
    {c : AllocTraits.Allocation w} (hc : σ.live[j]? = some c) (hne : j ≠ i) :
    Disjoint a.span.addresses c.span.addresses := by
  refine h.packed.disjoint ?_ ?_ (Ne.symm hne)
  · rw [List.getElem?_map, ha]
    rfl
  · rw [List.getElem?_map, hc]
    rfl

theorem reallocates_in_place (h : σ.Inv S) (ha : σ.live[i]? = some a) (hin : InPlace a layout) :
    Reallocates S σ i a layout.size layout.align σ.memory (some a.ptr) where
  aligned := by
    rintro p ⟨⟩
    exact Nat.dvd_of_mod_eq_zero hin.1
  inside := by
    rintro p ⟨⟩
    have hbelow := h.below (List.mem_of_getElem? ha)
    refine Span.addresses_subset hbelow.1 ?_
    show a.ptr + layout.size ≤ S.base + S.len
    have := hbelow.2
    have := hin.2
    have := h.consumed_le
    omega
  apart := by
    rintro p ⟨⟩ j c hne hc
    have hsub : (Span.mk a.ptr layout.size).addresses ⊆ a.span.addresses :=
      Span.addresses_subset le_rfl (Nat.add_le_add_left hin.2 a.ptr)
    exact (h.disjoint ha hc hne).mono_left hsub
  contents := by
    rintro p ⟨⟩
    exact Bytes.Same.refl
  refused := nofun
  frame _ _ _ _ := Set.eqOn_refl _ _

/-- The bytes of a new block belong to nobody. -/
theorem Inv.fresh_disjoint (h : σ.Inv S) {c : AllocTraits.Allocation w} (hc : c ∈ σ.live) {n : ℕ}
    {l : Layout w} :
    Disjoint (Span.mk (σ.memory.fresh S l) n).addresses c.span.addresses := by
  refine Span.disjoint_of_le (Or.inr ?_)
  have hle : σ.memory.consumed ≤ placement S l σ.memory.consumed := le_placement
  exact (h.below hc).2.trans (Nat.add_le_add_left hle _)

theorem reallocates_moved (h : σ.Inv S) (hroom : σ.memory.Room S layout.toLayout) :
    Reallocates S σ i a layout.size layout.align (σ.memory.moved S a layout)
      (some (σ.memory.fresh S layout.toLayout)) where
  aligned := by
    rintro p ⟨⟩
    exact dvd_placement
  inside := by
    rintro p ⟨⟩
    refine Span.addresses_subset (Nat.le_add_right _ _) ?_
    show S.base + placement S layout.toLayout σ.memory.consumed + layout.size ≤ S.base + S.len
    have : placement S layout.toLayout σ.memory.consumed + layout.size ≤ S.len := hroom
    omega
  apart := by
    rintro p ⟨⟩ j c - hc
    exact h.fresh_disjoint (List.mem_of_getElem? hc)
  contents := by
    rintro p ⟨⟩
    rw [min_comm]
    exact Bytes.copy_same
  refused := nofun
  frame j c _ hc := Bytes.copy_eqOn (h.fresh_disjoint (List.mem_of_getElem? hc)).symm

theorem reallocates_refused {size align : ℕ} :
    Reallocates S σ i a size align σ.memory none where
  aligned := nofun
  inside := nofun
  apart := nofun
  contents := nofun
  refused _ := rfl
  frame _ _ _ _ := Set.eqOn_refl _ _

/-- **`LocalAlloc::realloc` keeps its contract.** -/
theorem localRealloc_reallocates (h : σ.Inv S) (ha : σ.live[i]? = some a) (via : Via)
    (layout : NonZeroLayout w) : ∃ τ r, via.localRealloc S σ.memory a layout = .ok (τ, r) ∧
      (∀ b ∈ r, b.layout = layout ∧ b.ptr ≠ 0) ∧
      Reallocates S σ i a layout.size layout.align τ (r.map AllocTraits.Allocation.ptr) := by
  have hbelow := h.below (List.mem_of_getElem? ha)
  have hbase := S.nonnull
  rw [localRealloc_eq via h.consumed_le hbelow]
  by_cases hin : InPlace a layout
  · rw [if_pos hin]
    refine ⟨_, _, rfl, ?_, reallocates_in_place h ha hin⟩
    rintro b ⟨⟩
    exact ⟨rfl, Nat.ne_of_gt (hbase.trans_le hbelow.1)⟩
  · rw [if_neg hin]
    by_cases hroom : σ.memory.Room S layout.toLayout
    · rw [if_pos hroom]
      refine ⟨_, _, rfl, ?_, reallocates_moved h hroom⟩
      rintro b ⟨⟩
      exact ⟨rfl, Nat.ne_of_gt (hbase.trans_le (Nat.le_add_right _ _))⟩
    · rw [if_neg hroom]
      exact ⟨_, _, rfl, nofun, reallocates_refused⟩

/-- **`GlobalAlloc::realloc` keeps its contract.** -/
theorem globalRealloc_reallocates (h : σ.Inv S) (ha : σ.live[i]? = some a) (via : Via)
    {newSize : ℕ} (hpos : 0 < newSize) :
    ∃ τ p, via.globalRealloc S σ.memory a.ptr a.layout.toLayout newSize = .ok (τ, p) ∧
      Reallocates S σ i a newSize a.layout.align τ (nonNullNew p) := by
  have hptr : a.ptr ≠ 0 :=
    Nat.ne_of_gt (S.nonnull.trans_le (h.below (List.mem_of_getElem? ha)).1)
  rcases globalRealloc_eq (S := S) (m := σ.memory) via hpos hptr with
    ⟨-, heq⟩ | ⟨target, -, hsize, halign, heq⟩
  · exact ⟨_, _, heq, reallocates_refused⟩
  · obtain ⟨τ, r, hlocal, hr, hreallocates⟩ := localRealloc_reallocates h ha .view target
    rw [hlocal] at heq
    refine ⟨_, _, heq, ?_⟩
    rw [hsize, halign] at hreallocates
    cases r with
    | none => exact hreallocates
    | some b =>
      have hb : nonNullNew b.ptr = some b.ptr := if_neg (hr b rfl).2
      show Reallocates S σ i a newSize a.layout.align τ (nonNullNew b.ptr)
      rw [hb]
      exact hreallocates

/-! ## Runs -/

/-- A block behind all others. -/
theorem Inv.push_fresh (h : σ.Inv S) (hroom : σ.memory.Room S layout.toLayout) :
    (σ.push (σ.memory.taken S layout.toLayout)
      ⟨σ.memory.fresh S layout.toLayout, layout⟩).Inv S where
  packed := by
    have hle : σ.memory.consumed ≤ placement S layout.toLayout σ.memory.consumed := le_placement
    have hcons := h.packed.cons (s := ⟨σ.memory.fresh S layout.toLayout, layout.size⟩)
      (Nat.le_add_right _ _) (Nat.add_le_add_left hle _) (Nat.le_of_eq (Nat.add_assoc _ _ _))
    show Packed _ _ ((σ.live ++ [_]).map _)
    rw [List.map_append]
    exact hcons.perm (List.perm_append_singleton _ _).symm
  consumed_le := hroom

/-- A block that stays where it is becomes smaller. -/
theorem Inv.replace_in_place (h : σ.Inv S) (ha : σ.live[i]? = some a) (hin : InPlace a layout) :
    (σ.replace σ.memory i ⟨a.ptr, layout⟩).Inv S where
  packed := by
    obtain ⟨hi, rfl⟩ := List.getElem?_eq_some_iff.mp ha
    have hi' : i < (σ.live.map AllocTraits.Allocation.span).length := by simpa using hi
    show Packed _ _ ((σ.live.set i _).map _)
    rw [List.map_set]
    refine h.packed.set_within hi' ?_ ?_
    · rw [List.getElem_map]
      exact le_rfl
    · rw [List.getElem_map]
      exact Nat.add_le_add_left hin.2 _
  consumed_le := h.consumed_le

/-- A block that moves goes behind all others. -/
theorem Inv.replace_moved (h : σ.Inv S) (hi : i < σ.live.length)
    (hroom : σ.memory.Room S layout.toLayout) :
    (σ.replace (σ.memory.moved S a layout) i
      ⟨σ.memory.fresh S layout.toLayout, layout⟩).Inv S where
  packed := by
    have hi' : i < (σ.live.map AllocTraits.Allocation.span).length := by simpa using hi
    have hle : σ.memory.consumed ≤ placement S layout.toLayout σ.memory.consumed := le_placement
    show Packed _ _ ((σ.live.set i _).map _)
    rw [List.map_set]
    exact h.packed.set_behind hi' (Nat.le_add_right _ _) (Nat.add_le_add_left hle _)
      (Nat.le_of_eq (Nat.add_assoc _ _ _))
  consumed_le := hroom

/-- Reallocation through either trait keeps the blocks packed. -/
theorem Inv.localRealloc {via : Via} (h : σ.Inv S) (ha : σ.live[i]? = some a) {r : Option _}
    {m : Memory β} (heq : via.localRealloc S σ.memory a layout = .ok (m, r)) :
    (∃ b, r = some b ∧ (σ.replace m i b).Inv S) ∨ r = none ∧ m = σ.memory := by
  obtain ⟨hi, -⟩ := List.getElem?_eq_some_iff.mp ha
  rw [localRealloc_eq via h.consumed_le (h.below (List.mem_of_getElem? ha))] at heq
  by_cases hin : InPlace a layout
  · rw [if_pos hin] at heq
    obtain ⟨rfl, rfl⟩ := ok_pair_inj heq
    exact Or.inl ⟨_, rfl, h.replace_in_place ha hin⟩
  · rw [if_neg hin] at heq
    by_cases hroom : σ.memory.Room S layout.toLayout
    · rw [if_pos hroom] at heq
      obtain ⟨rfl, rfl⟩ := ok_pair_inj heq
      exact Or.inl ⟨_, rfl, h.replace_moved hi hroom⟩
    · rw [if_neg hroom] at heq
      obtain ⟨rfl, rfl⟩ := ok_pair_inj heq
      exact Or.inr ⟨rfl, rfl⟩

/-- **Every request keeps the invariant**, and none of them stops. -/
theorem inv_step (h : σ.Inv S) {r : Request w β} (hen : σ.Enabled r) :
    ∃ τ, σ.exec S r = .ok τ ∧ τ.Inv S := by
  cases r with
  | localAlloc via layout =>
    rw [exec, localAlloc_eq via h.consumed_le]
    by_cases hroom : σ.memory.Room S layout.toLayout
    · rw [if_pos hroom]
      exact ⟨_, rfl, h.push_fresh hroom⟩
    · rw [if_neg hroom]
      exact ⟨_, rfl, h⟩
  | globalAlloc via layout =>
    rw [exec, globalAlloc_eq via h.consumed_le]
    by_cases hroom : σ.memory.Room S layout.toLayout
    · obtain ⟨n, hn⟩ := Nat.exists_eq_add_one_of_ne_zero
        (Nat.ne_of_gt (S.nonnull.trans_le (Nat.le_add_right S.base _)) :
          σ.memory.fresh S layout.toLayout ≠ 0)
      have hinv := h.push_fresh hroom
      rw [if_pos hroom]
      rw [hn] at hinv ⊢
      exact ⟨_, rfl, hinv⟩
    · rw [if_neg hroom]
      exact ⟨_, rfl, h⟩
  | localRealloc via i layout =>
    have ha := List.getElem?_eq_getElem hen
    obtain ⟨m, b, heq, -⟩ := localRealloc_reallocates h ha via layout
    rw [exec, ha]
    simp only [heq, ok_bind]
    rcases h.localRealloc ha heq with ⟨b, rfl, hinv⟩ | ⟨rfl, rfl⟩
    · exact ⟨_, rfl, hinv⟩
    · exact ⟨_, rfl, h⟩
  | globalRealloc via i newSize =>
    obtain ⟨a, ha⟩ : ∃ a, σ.live[i]? = some a := ⟨_, List.getElem?_eq_getElem hen.1⟩
    have hptr : a.ptr ≠ 0 :=
      Nat.ne_of_gt (S.nonnull.trans_le (h.below (List.mem_of_getElem? ha)).1)
    rw [exec, ha]
    rcases globalRealloc_eq (S := S) (m := σ.memory) via hen.2 hptr with
      ⟨hnone, heq⟩ | ⟨target, hsome, -, -, heq⟩
    · simp only [heq, hnone, ok_bind]
      exact ⟨_, rfl, h⟩
    · obtain ⟨m, b, hlocal, hb, -⟩ := localRealloc_reallocates h ha .view target
      rw [hlocal] at heq
      rcases h.localRealloc ha hlocal with ⟨b, rfl, hinv⟩ | ⟨rfl, rfl⟩
      · obtain ⟨ptr, layout⟩ := b
        obtain ⟨hlayout, hne⟩ := hb _ rfl
        obtain rfl : layout = target := hlayout
        obtain ⟨n, rfl⟩ := Nat.exists_eq_add_one_of_ne_zero hne
        simp only [heq, hsome, ok_bind]
        exact ⟨_, rfl, hinv⟩
      · simp only [heq, hsome, ok_bind]
        exact ⟨_, rfl, h⟩
  | dealloc via i =>
    refine ⟨_, rfl, ?_, h.consumed_le⟩
    exact h.packed.sublist ((List.eraseIdx_sublist _ _).map _)
  | write i k b =>
    obtain ⟨a, ha, hk⟩ := hen
    rw [exec, ha]
    exact ⟨_, rfl, h.packed, h.consumed_le⟩

theorem reachable_inv (h : (machine S).Reachable σ) : σ.Inv S := by
  refine h.invariant ?_ ?_
  · rintro σ ⟨hlive, hc⟩
    refine ⟨?_, hc⟩
    rw [hlive]
    exact .nil
  · rintro σ r τ - hσ ⟨hen, hexec⟩
    obtain ⟨τ', hexec', hτ'⟩ := inv_step hσ hen
    obtain rfl := Except.ok.inj (hexec.symm.trans hexec')
    exact hτ'

end Session

/-- **Reallocation preserves contents and isolation.**  After any sequence of
allocations, reallocations, deallocations and writes to the blocks held, and for
every block held and every new layout of non-zero size, both traits of both types
either return a block that is aligned, lies inside the arena and apart from every
other block held, and starts with the bytes of the old block; or they refuse, and
then neither the level nor any byte has changed.  The bytes of the other blocks
held are unchanged in both cases. -/
theorem realloc_preserves {σ : Session w β} (h : (Session.machine S).Reachable σ) {i : ℕ}
    (ha : σ.live[i]? = some a) (via : Via) :
    (∀ layout, ∃ τ r, via.localRealloc S σ.memory a layout = .ok (τ, r) ∧
      (∀ b ∈ r, b.layout = layout) ∧
      Reallocates S σ i a layout.size layout.align τ (r.map AllocTraits.Allocation.ptr)) ∧
    ∀ newSize, 0 < newSize →
      ∃ τ p, via.globalRealloc S σ.memory a.ptr a.layout.toLayout newSize = .ok (τ, p) ∧
        Reallocates S σ i a newSize a.layout.align τ (nonNullNew p) := by
  have hinv := Session.reachable_inv h
  refine ⟨fun layout => ?_, fun newSize hpos => ?_⟩
  · obtain ⟨τ, r, heq, hr, hreallocates⟩ := Session.localRealloc_reallocates hinv ha via layout
    exact ⟨τ, r, heq, fun b hb => (hr b hb).1, hreallocates⟩
  · exact Session.globalRealloc_reallocates hinv ha via hpos

/-! ## Two blocks that move -/

/-- An arena of 64 bytes. -/
def sixtyFour : Storage 64 where
  base := 4096
  len := 64
  nonnull := page_pos
  fits := by decide

/-- Eight bytes, aligned to eight. -/
def eightBytes : NonZeroLayout 64 where
  toLayout := Ty.word.toLayout
  size_pos := by decide

/-- Sixteen bytes, aligned to eight. -/
def sixteenBytes : NonZeroLayout 64 where
  toLayout := Ty.twoWords.toLayout
  size_pos := Ty.twoWords_pos

/-- A user who holds two blocks of eight bytes, in a memory where every byte held its own
address, until the second byte of the first block was written. -/
def twoBlocks : Session 64 ℕ :=
  ⟨⟨16, Bytes.store id 4097 7⟩, [⟨4096, eightBytes⟩, ⟨4104, eightBytes⟩]⟩

/-- The first block has moved behind the second one. -/
def firstMoved : Session 64 ℕ :=
  twoBlocks.replace (twoBlocks.memory.moved sixtyFour ⟨4096, eightBytes⟩ sixteenBytes) 0
    ⟨4112, sixteenBytes⟩

theorem reachable_twoBlocks : (Session.machine sixtyFour).Reachable twoBlocks := by
  let one : Session 64 ℕ := ⟨⟨8, id⟩, [⟨4096, eightBytes⟩]⟩
  let two : Session 64 ℕ := ⟨⟨16, id⟩, [⟨4096, eightBytes⟩, ⟨4104, eightBytes⟩]⟩
  have h₀ : (Session.machine sixtyFour).Reachable (⟨⟨0, id⟩, []⟩ : Session 64 ℕ) :=
    .of_init ⟨rfl, Nat.zero_le _⟩
  have h₁ : (Session.machine sixtyFour).step (⟨⟨0, id⟩, []⟩ : Session 64 ℕ)
      (.localAlloc .bump eightBytes) one := by
    refine ⟨trivial, ?_⟩
    rw [Session.exec, localAlloc_eq _ (by decide), if_pos (by decide)]
    rfl
  have h₂ : (Session.machine sixtyFour).step one (.localAlloc .view eightBytes) two := by
    have hplaced : placement sixtyFour eightBytes.toLayout one.memory.consumed = 8 := by decide
    refine ⟨trivial, ?_⟩
    rw [Session.exec, localAlloc_eq _ (by decide), if_pos (by decide), Memory.taken, Memory.fresh,
      hplaced]
    rfl
  have h₃ : (Session.machine sixtyFour).step two (.write 0 1 7) twoBlocks :=
    ⟨⟨_, rfl, by decide⟩, rfl⟩
  exact ((h₀.tail h₁).tail h₂).tail h₃

theorem localRealloc_twoBlocks :
    Via.bump.localRealloc sixtyFour twoBlocks.memory ⟨4096, eightBytes⟩ sixteenBytes =
      .ok (firstMoved.memory, some ⟨4112, sixteenBytes⟩) := by
  have hfresh : twoBlocks.memory.fresh sixtyFour sixteenBytes.toLayout = 4112 := by decide
  rw [localRealloc_eq .bump (by decide) ⟨by decide, by decide⟩, if_neg (by decide),
    if_pos (by decide), hfresh]
  rfl

theorem reachable_firstMoved : (Session.machine sixtyFour).Reachable firstMoved := by
  refine reachable_twoBlocks.tail (l := .localRealloc .bump 0 sixteenBytes)
    ⟨show 0 < 2 by decide, ?_⟩
  show (Via.bump.localRealloc sixtyFour twoBlocks.memory ⟨4096, eightBytes⟩ sixteenBytes >>= _) = _
  rw [localRealloc_twoBlocks]
  rfl

theorem globalRealloc_firstMoved :
    Via.view.globalRealloc sixtyFour firstMoved.memory 4104 eightBytes.toLayout 16 =
      .ok (firstMoved.memory.moved sixtyFour ⟨4104, eightBytes⟩ sixteenBytes, 4128) := by
  have hlayout : layoutReallocated eightBytes 16 = .ok (some sixteenBytes) := rfl
  have hlocal : Via.view.localRealloc sixtyFour firstMoved.memory ⟨4104, eightBytes⟩ sixteenBytes =
      .ok (firstMoved.memory.moved sixtyFour ⟨4104, eightBytes⟩ sixteenBytes,
        some ⟨4128, sixteenBytes⟩) := by
    have hfresh : firstMoved.memory.fresh sixtyFour sixteenBytes.toLayout = 4128 := by decide
    rw [localRealloc_eq .view (by decide) ⟨by decide, by decide⟩, if_neg (by decide),
      if_pos (by decide), hfresh]
  rcases globalRealloc_eq (S := sixtyFour) (m := firstMoved.memory) (a := ⟨4104, eightBytes⟩) .view
    (by decide : 0 < 16) (by decide) with ⟨hnone, -⟩ | ⟨target, hsome, -, -, heq⟩
  · exact absurd (hlayout.symm.trans hnone) (by simp)
  · obtain rfl := Option.some.inj (Except.ok.inj (hlayout.symm.trans hsome))
    rw [heq, hlocal]
    rfl

/-- Growing moves the first block behind the second one, and after that the second one behind
the first, through the other trait.  Each keeps its bytes, and the other one its own. -/
theorem realloc_preserves_twoBlocks :
    (∃ τ : Memory ℕ,
      Via.bump.localRealloc sixtyFour twoBlocks.memory ⟨4096, eightBytes⟩ sixteenBytes =
          .ok (τ, some ⟨4112, sixteenBytes⟩) ∧
        τ.bytes 4113 = 7 ∧ ∀ k < 8, τ.bytes (4104 + k) = 4104 + k) ∧
    ∃ τ : Memory ℕ,
      Via.view.globalRealloc sixtyFour firstMoved.memory 4104 eightBytes.toLayout 16 =
          .ok (τ, 4128) ∧
        τ.bytes 4113 = 7 ∧ ∀ k < 8, τ.bytes (4128 + k) = 4104 + k := by
  obtain ⟨hlocal, -⟩ := realloc_preserves reachable_twoBlocks (i := 0) rfl .bump
  obtain ⟨τ, r, heq, -, hfirst⟩ := hlocal sixteenBytes
  obtain ⟨rfl, rfl⟩ := ok_pair_inj (heq.symm.trans localRealloc_twoBlocks)
  obtain ⟨-, hglobal⟩ := realloc_preserves reachable_firstMoved (i := 1) rfl .view
  obtain ⟨τ, p, heq', hsecond⟩ := hglobal 16 (by decide)
  obtain ⟨rfl, rfl⟩ := ok_pair_inj (heq'.symm.trans globalRealloc_firstMoved)
  have hwritten : firstMoved.memory.bytes 4113 = 7 := hfirst.contents 4112 rfl 1 (by decide)
  have hother : ∀ k < 8, firstMoved.memory.bytes (4104 + k) = 4104 + k := by
    intro k hk
    have hmem : 4104 + k ∈ (Span.mk 4104 8).addresses :=
      Span.mem_addresses.mpr ⟨Nat.le_add_right _ _, Nat.add_lt_add_left hk _⟩
    exact (hfirst.frame 1 ⟨4104, eightBytes⟩ (by decide) rfl hmem).trans (if_neg (by omega))
  refine ⟨⟨_, heq, hwritten, hother⟩, _, heq', ?_, fun k hk => ?_⟩
  · have hmem : 4113 ∈ (Span.mk 4112 16).addresses := Span.mem_addresses.mpr (by decide)
    exact (hsecond.frame 0 ⟨4112, sixteenBytes⟩ (by decide) rfl hmem).trans hwritten
  · exact (hsecond.contents 4128 rfl k hk).trans (hother k hk)

end Bump
end StaticAlloc
