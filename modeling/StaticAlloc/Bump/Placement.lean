import StaticAlloc.Bump.Local
import StaticAlloc.Unsync.Bump
import Mathlib.Order.Bounds.Basic

/-!
# Where a block goes, and when there is room

An attempt is about three numbers: the level the caller expects, the level the
arena has, and the offset of the block.  The offset is the least one at or after
the expected level whose address is aligned, and the attempt is decided by it
alone: no room behind it is exhaustion, whatever the arena's level is; otherwise
the two levels have to agree.

`Fits` says that there is room, without naming the offset.  It is monotone in
everything (`Fits.anti`): what has no room at some level has none at a higher
one, and neither has anything larger or more aligned.

`tryAllocAt_exact` is the statement about one attempt, the same for the shared
and the unsynchronized arena, with every assertion passed.  What follows for a
fresh arena with the storage of an array is `getSlices_served`: consecutive
slices are handed out until the array is used up, and the first request beyond
it is refused.
-/

namespace StaticAlloc
namespace Bump

open Toolkit

variable {w : ℕ} {β : Type} {S : Storage w} {l l' : Layout w} {c e e' o : ℕ}

/-! ## Room -/

/-- At or behind a level there is room for the layout. -/
def Fits (S : Storage w) (l : Layout w) (level : ℕ) : Prop :=
  ∃ o, level ≤ o ∧ l.align ∣ S.base + o ∧ o + l.size ≤ S.len

theorem fits_iff_placement : Fits S l e ↔ placement S l e + l.size ≤ S.len := by
  constructor
  · rintro ⟨o, he, hdvd, ho⟩
    have := placement_le he hdvd
    omega
  · intro h
    exact ⟨placement S l e, le_placement, dvd_placement, h⟩

instance : Decidable (Fits S l e) := decidable_of_iff _ fits_iff_placement.symm

/-- **Room only gets scarcer.**  Where the larger request fits at the higher
level, the smaller one fits at the lower. -/
theorem Fits.anti (h : Fits S l' e') (he : e ≤ e') (hs : l.size ≤ l'.size)
    (ha : l.align ≤ l'.align) : Fits S l e := by
  obtain ⟨o, ho, hdvd, hend⟩ := h
  exact ⟨o, he.trans ho, (Layout.align_dvd_of_le ha).trans hdvd, by omega⟩

/-- The placement is the least of the aligned offsets. -/
theorem placement_eq_of_isLeast (h : IsLeast {o | e ≤ o ∧ l.align ∣ S.base + o} o) :
    placement S l e = o :=
  le_antisymm (placement_le h.1.1 h.1.2) (h.2 ⟨le_placement, dvd_placement⟩)

/-- An aligned level is its own placement. -/
theorem placement_eq_self (h : l.align ∣ S.base + e) : placement S l e = e :=
  le_antisymm (placement_le le_rfl h) le_placement

/-! ## One attempt -/

/-- An attempt on a counter that may have moved on. -/
theorem tryAllocAt_eq_of_le (hs : 0 < l.size) (he : e ≤ S.len) :
    tryAllocAt S c l e = .ok (
      if placement S l e + l.size ≤ S.len then
        if c = e then
          (placement S l e + l.size, .ok ⟨S.base + placement S l e, placement S l e + l.size⟩)
        else (c, .error (.mismatch c))
      else (c, .error .exhausted)) := by
  rw [tryAllocAt, prepare_eq hs he]
  by_cases hfit : placement S l e + l.size ≤ S.len
  · rw [if_pos hfit, if_pos hfit, ok_bind]
    by_cases hc : c = e
    · rw [if_pos hc]
      simp only [hc, compareExchange_self, granted_eq]
      rfl
    · rw [if_neg hc]
      simp only [compareExchange_of_ne hc]
      rfl
  · rw [if_neg hfit, if_neg hfit]
    rfl

/-- **One attempt, exactly.**  For every region, every expected level inside it,
every level the arena may have and every request of non-zero size, both arenas
get through all their checks; the block's offset is the least aligned one at or
after the expected level, and it decides the outcome. -/
theorem tryAllocAt_exact (b : Build) (hs : 0 < l.size) (he : e ≤ S.len)
    (ho : IsLeast {o | e ≤ o ∧ l.align ∣ S.base + o} o) (actual : ℕ) :
    let outcome : ℕ × Except Failure Allocation :=
      if S.len < o + l.size then (actual, .error .exhausted)
      else if actual ≠ e then (actual, .error (.mismatch actual))
      else (o + l.size, .ok ⟨S.base + o, o + l.size⟩)
    tryAllocAt S actual l e = .ok outcome ∧ Unsync.tryAllocAt b S actual l e = .ok outcome := by
  intro outcome
  have hif : outcome = if o + l.size ≤ S.len then
      if actual = e then (o + l.size, .ok ⟨S.base + o, o + l.size⟩)
      else (actual, .error (.mismatch actual))
    else (actual, .error .exhausted) := by
    by_cases hfit : o + l.size ≤ S.len
    · by_cases hc : actual = e
      · simp only [outcome, if_neg (Nat.not_lt.mpr hfit), if_neg (not_not_intro hc), if_pos hfit,
          if_pos hc]
      · simp only [outcome, if_neg (Nat.not_lt.mpr hfit), if_pos hc, if_pos hfit, if_neg hc]
    · simp only [outcome, if_pos (Nat.lt_of_not_le hfit), if_neg hfit]
  rw [hif, ← placement_eq_of_isLeast ho]
  exact ⟨tryAllocAt_eq_of_le hs he, Unsync.tryAllocAt_eq hs he⟩

/-! ## Slices of a fresh arena -/

/-- A `Bump<T>` in memory: under `repr(C)` the header, and behind it the storage at
the alignment of `T`. -/
structure Object (header T : Ty w) where
  addr : ℕ
  nonnull : 0 < addr
  /-- The alignment of the struct is the larger one of its fields'. -/
  aligned : max header.align T.align ∣ addr
  fits : addr + roundUp header.size T.align + T.size ≤ 2 ^ w

/-- `Bump::as_view`: the storage of the view. -/
def Object.storage {header T : Ty w} (B : Object header T) : Storage w where
  base := B.addr + roundUp header.size T.align
  len := T.size
  nonnull := Nat.add_pos_left B.nonnull _
  fits := B.fits

/-- The storage is aligned for `T`. -/
theorem Object.dvd_base {header T : Ty w} (B : Object header T) : T.align ∣ B.storage.base :=
  Nat.dvd_add (Layout.align_dvd_max.trans B.aligned) (dvd_roundUp T.align_pos)

/-- `Allocation<'_, [V]>`: a pointer with a length, and the level after it. -/
structure SliceAllocation where
  ptr : ℕ
  len : ℕ
  level : Level
  deriving DecidableEq, Repr

/-- `BumpView::get_slice`. -/
def BumpView.getSlice (S : Storage w) (σ : Memory β) (V : Ty w) (len : ℕ) :
    Except Stop (Memory β × Option SliceAllocation) := do
  if len = 0 then
    -- `Allocation::for_empty_slice`: the address of an empty array
    return (σ, some ⟨V.align, 0, σ.consumed⟩)
  match Layout.array V len with
  | none => return (σ, none)
  | some layout =>
    if layout.size = 0 then
      -- `Allocation::for_zst_slice`
      return (σ, some ⟨V.align, len, σ.consumed⟩)
    match ← getLayout S σ layout with
    | (σ, none) => return (σ, none)
    | (σ, some alloc) => return (σ, some ⟨alloc.ptr, len, alloc.level⟩)

/-- `get_slice` called once for each length of a list. -/
def BumpView.getSlices (S : Storage w) (σ : Memory β) (V : Ty w) :
    List ℕ → Except Stop (Memory β × List (Option SliceAllocation))
  | [] => .ok (σ, [])
  | len :: lens => do
    let (σ, slice) ← getSlice S σ V len
    let (σ, slices) ← getSlices S σ V lens
    return (σ, slice :: slices)

namespace BumpView

variable {V : Ty w} {σ : Memory β} {n N k : ℕ}

theorem getLayout_eq (hs : 0 < l.size) (hc : σ.consumed ≤ S.len) :
    getLayout S σ l = .ok (if placement S l σ.consumed + l.size ≤ S.len then
      ({ σ with consumed := placement S l σ.consumed + l.size },
        some ⟨S.base + placement S l σ.consumed, placement S l σ.consumed + l.size⟩)
      else (σ, none)) := by
  rw [getLayout, tryAlloc_eq hs hc]
  by_cases hfit : placement S l σ.consumed + l.size ≤ S.len
  · rw [if_pos hfit, if_pos hfit]
    rfl
  · rw [if_neg hfit, if_neg hfit]
    rfl

/-- On a storage that starts with `n` elements handed out, a slice of `k` more is
the `k` behind them, if they are there. -/
theorem getSlice_eq (hV : 0 < V.size) (hbase : V.align ∣ S.base) (hσ : σ.consumed = V.size * n)
    (hn : V.size * n ≤ S.len) (hk : 0 < k) (harr : Layout.array V k = some l) :
    getSlice S σ V k = .ok (if V.size * (n + k) ≤ S.len then
      ({ σ with consumed := V.size * (n + k) },
        some ⟨S.base + V.size * n, k, V.size * (n + k)⟩)
      else (σ, none)) := by
  obtain ⟨hsize, halign⟩ := Layout.array_some harr
  have hpos : 0 < l.size := by
    rw [hsize]
    exact Nat.mul_pos hV hk
  have hplace : placement S l σ.consumed = V.size * n := by
    rw [hσ]
    refine placement_eq_self ?_
    rw [halign]
    exact Nat.dvd_add hbase (V.stride.mul_right n)
  rw [getSlice, if_neg (by omega), harr]
  simp only [if_neg (show ¬ l.size = 0 by omega)]
  rw [getLayout_eq hpos (by omega), hplace, hsize, ← Nat.mul_add]
  by_cases hfit : V.size * (n + k) ≤ S.len
  · rw [if_pos hfit, if_pos hfit]
    rfl
  · rw [if_neg hfit, if_neg hfit]
    rfl

variable (hV : 0 < V.size) (hbase : V.align ∣ S.base) (hlen : S.len = V.size * N)
include hV hbase hlen

theorem getSlice_served (hN : V.size * N + V.align ≤ 2 ^ (w - 1))
    (hσ : σ.consumed = V.size * n) (hk : 0 < k) (hnk : n + k ≤ N) :
    getSlice S σ V k = .ok ({ σ with consumed := V.size * (n + k) },
      some ⟨S.base + V.size * n, k, V.size * (n + k)⟩) := by
  have hle : V.size * (n + k) ≤ V.size * N := Nat.mul_le_mul_left _ hnk
  have hsplit := Nat.mul_add V.size n k
  have harr := Layout.array_of_le (T := V) (n := k) (by omega)
  rw [getSlice_eq hV hbase hσ (by omega) hk harr, if_pos (by omega)]

/-- A request beyond the last element is refused, also when it has no layout. -/
theorem getSlice_refused (hσ : σ.consumed = V.size * n) (hn : n ≤ N) (hnk : N < n + k) :
    getSlice S σ V k = .ok (σ, none) := by
  have hlt : V.size * N < V.size * (n + k) := (Nat.mul_lt_mul_left hV).mpr hnk
  have hle : V.size * n ≤ V.size * N := Nat.mul_le_mul_left _ hn
  cases harr : Layout.array V k with
  | none => rw [getSlice, if_neg (by omega), harr]; rfl
  | some layout =>
    rw [getSlice_eq hV hbase hσ (by omega) (by omega) harr, if_neg (by omega)]

/-- **Consecutive slices, until the array is used up.** -/
theorem getSlices_served (hN : V.size * N + V.align ≤ 2 ^ (w - 1)) (lens : List ℕ)
    (hpos : ∀ len ∈ lens, 0 < len) (hsum : n + lens.sum ≤ N) (hσ : σ.consumed = V.size * n) :
    ∃ slices, getSlices S σ V lens =
        .ok ({ σ with consumed := V.size * (n + lens.sum) }, slices) ∧
      slices.length = lens.length ∧
      (∀ i (hi : i < lens.length), slices[i]? = some (some
        ⟨S.base + V.size * (n + (lens.take i).sum), lens[i],
          V.size * (n + (lens.take (i + 1)).sum)⟩)) ∧
      ∀ k, N < n + lens.sum + k → getSlices S σ V (lens ++ [k]) =
        .ok ({ σ with consumed := V.size * (n + lens.sum) }, slices ++ [none]) := by
  induction lens generalizing σ n with
  | nil =>
    rw [List.sum_nil, Nat.add_zero] at hsum ⊢
    refine ⟨[], ?_, rfl, ?_, ?_⟩
    · rw [getSlices, ← hσ]
    · intro i hi
      exact absurd hi (Nat.not_lt_zero i)
    · intro k hk
      rw [List.nil_append, getSlices, getSlice_refused hV hbase hlen hσ hsum hk, ← hσ]
      rfl
  | cons len lens ih =>
    have hlenpos : 0 < len := hpos len List.mem_cons_self
    rw [List.sum_cons, ← Nat.add_assoc] at hsum ⊢
    have hserved := getSlice_served hV hbase hlen hN hσ hlenpos (by omega)
    obtain ⟨slices, hrun, hlength, hget, hrefused⟩ :=
      ih (σ := { σ with consumed := V.size * (n + len) }) (n := n + len)
        (fun x hx => hpos x (List.mem_cons_of_mem _ hx)) hsum rfl
    refine ⟨some ⟨S.base + V.size * n, len, V.size * (n + len)⟩ :: slices, ?_, ?_, ?_, ?_⟩
    · rw [getSlices, hserved, ok_bind]
      simp only [hrun]
      rfl
    · rw [List.length_cons, List.length_cons, hlength]
    · intro i hi
      cases i with
      | zero => simp
      | succ i =>
        have h := hget i (Nat.lt_of_succ_lt_succ hi)
        rw [List.getElem?_cons_succ, h]
        simp only [List.take_succ_cons, List.sum_cons, List.getElem_cons_succ, Nat.add_assoc]
    · intro k hk
      rw [List.cons_append, getSlices, hserved, ok_bind]
      simp only [hrefused k hk]
      rfl

end BumpView

/-- **Exact placement.**  One attempt, in either arena: no check fails, and with
`o` the least aligned offset at or after the expected level, the attempt is
refused as exhausted if the block would not end inside the region, else as a
mismatch if the levels differ, and otherwise the block is at `o`.

And consequently: a fresh `Bump<[T; N]>` hands out its elements slice by slice
without gaps, whatever the lengths, and refuses the first slice that goes beyond
the last element. -/
theorem exact_placement :
    (∀ (b : Build) (S : Storage w) (l : Layout w) (e actual : ℕ), 0 < l.size → e ≤ S.len →
      ∃ o, IsLeast {o | e ≤ o ∧ l.align ∣ S.base + o} o ∧
        let outcome : ℕ × Except Failure Allocation :=
          if S.len < o + l.size then (actual, .error .exhausted)
          else if actual ≠ e then (actual, .error (.mismatch actual))
          else (o + l.size, .ok ⟨S.base + o, o + l.size⟩)
        tryAllocAt S actual l e = .ok outcome ∧
          Unsync.tryAllocAt b S actual l e = .ok outcome) ∧
    (∀ (header T : Ty w) (N : ℕ) (hN : T.size * N + T.align ≤ 2 ^ (w - 1))
      (B : Object header (T.array N hN)) (bytes : Bytes β) (lens : List ℕ), 0 < T.size →
      (∀ len ∈ lens, 1 ≤ len) → lens.sum ≤ N →
      ∃ slices, BumpView.getSlices B.storage ⟨0, bytes⟩ T lens =
          .ok (⟨T.size * lens.sum, bytes⟩, slices) ∧
        slices.length = lens.length ∧
        (∀ i (hi : i < lens.length), slices[i]? = some (some
          ⟨B.storage.base + T.size * (lens.take i).sum, lens[i],
            T.size * (lens.take (i + 1)).sum⟩)) ∧
        ∀ k, N < lens.sum + k → BumpView.getSlices B.storage ⟨0, bytes⟩ T (lens ++ [k]) =
          .ok (⟨T.size * lens.sum, bytes⟩, slices ++ [none])) := by
  refine ⟨?_, ?_⟩
  · intro b S l e actual hs he
    have hleast : IsLeast {o | e ≤ o ∧ l.align ∣ S.base + o} (placement S l e) :=
      ⟨⟨le_placement, dvd_placement⟩, fun o ho => placement_le ho.1 ho.2⟩
    exact ⟨placement S l e, hleast, tryAllocAt_exact b hs he hleast actual⟩
  · intro header T N hN B bytes lens hT hpos hsum
    have h := BumpView.getSlices_served (σ := ⟨0, bytes⟩) (n := 0) hT B.dvd_base rfl hN lens hpos
      (by rwa [Nat.zero_add]) (Nat.mul_zero _).symm
    simpa only [Nat.zero_add] using h

/-- A `u64` in a region that starts one byte past a multiple of eight, and slices
of `[u16; 6]` behind a header of one word. -/
theorem exact_placement_words :
    (∃ o, IsLeast {o | 0 ≤ o ∧ 8 ∣ 4097 + o} o ∧
      tryAllocAt (w := 64) ⟨4097, 16, by decide, by decide⟩ 3 Ty.word.toLayout 0 =
        .ok (if 16 < o + 8 then (3, .error .exhausted) else (3, .error (.mismatch 3)))) ∧
    ∃ slices, BumpView.getSlices (β := ℕ) (w := 64) ⟨4104, 12, by decide, by decide⟩
        ⟨0, fun _ => 0⟩ Ty.halfWord [1, 4] = .ok (⟨10, fun _ => 0⟩, slices) ∧
      slices.length = 2 := by
  refine ⟨?_, ?_⟩
  · obtain ⟨o, ho, h, -⟩ := (exact_placement (β := ℕ)).1 .debug
      ⟨4097, 16, by decide, by decide⟩ Ty.word.toLayout 0 3 (by decide) (by decide)
    exact ⟨o, ho, h⟩
  · obtain ⟨slices, h, hlength, -⟩ := (exact_placement (β := ℕ)).2 Ty.word Ty.halfWord 6
      (by decide) ⟨4096, by decide, by decide, by decide⟩ (fun _ => 0) [1, 4] (by decide)
      (by decide) (by decide)
    exact ⟨slices, h, hlength⟩

end Bump
end StaticAlloc
