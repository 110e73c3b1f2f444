import StaticAlloc.Bump.Placement

/-!
# A shared arena in given memory

`BumpSlice::from_memory` puts a header at the first aligned address of a byte
slice, by allocating it from a temporary arena over the whole slice, and takes
everything behind the header as the arena's data.

The object it returns is a `repr(C)` struct of a header and a slice of bytes, and
like every type it occupies a multiple of its alignment (`BumpSlice.size`).  The
length of the data is not chosen with that in mind.  `fromMemory_eq` computes the
function; the padded object starts at an aligned address and its unpadded end is
the end of the slice, so it overruns the slice unless that end is aligned too.
`fromMemory_contained_iff` is that condition, and
`fromMemory_overruns` a slice of fifteen bytes.
-/

namespace StaticAlloc
namespace Bump

open Toolkit

variable {w : ℕ}

/-- A `BumpSlice` in memory: its address, the length of its data, and the counter in
its header. -/
structure BumpSlice where
  addr : ℕ
  capacity : ℕ
  consumed : Level
  deriving DecidableEq, Repr

/-- `size_of_val` of a `BumpSlice`: a header and `capacity` bytes, padded to the
alignment of the header. -/
def BumpSlice.size (header : Header w) (B : BumpSlice) : ℕ :=
  roundUp (header.size + B.capacity) header.align

/-- `BumpView::get`. -/
def BumpView.get (S : Storage w) (counter : ℕ) (V : Ty w) :
    Except Stop (ℕ × Option Allocation) := do
  if V.size = 0 then
    return (counter, some ⟨V.align, counter⟩)
  match ← tryAlloc S counter V.toLayout with
  | (counter, .ok alloc) => return (counter, some alloc)
  | (counter, .error _) => return (counter, none)

/-- `BumpSlice::from_memory`. -/
def BumpSlice.fromMemory (b : Build) (header : Header w) (data : Storage w) :
    Except Stop (Option BumpSlice) := do
  -- `alloc.leak_box::<Header>(Header::empty())?`, from a temporary arena
  match ← BumpView.get data 0 header.toTy with
  | (_, none) => return none
  | (_, some initializedHeader) =>
    let startAddr := initializedHeader.ptr
    let offset ← subUsize b w startAddr data.base
    assert (offset ≤ data.len) "range start index out of range for slice"
    let bumpSlice := data.len - offset
    let len ← subUsize b w bumpSlice header.size
    return some ⟨data.base + offset, len, 0⟩

variable {header : Header w} {data : Storage w} {b : Build}

/-- **What `from_memory` computes.**  The object starts at the first aligned address
and its data ends at the end of the slice. -/
theorem fromMemory_eq : BumpSlice.fromMemory b header data =
    .ok (if placement data header.toLayout 0 + header.size ≤ data.len then
      some ⟨data.base + placement data header.toLayout 0,
        data.len - placement data header.toLayout 0 - header.size, 0⟩
      else none) := by
  have hs := header.size_pos
  rw [BumpSlice.fromMemory, BumpView.get, if_neg (by omega), tryAlloc_eq hs (Nat.zero_le _)]
  by_cases hfit : placement data header.toLayout 0 + header.size ≤ data.len
  · rw [if_pos hfit, if_pos hfit]
    simp only [ok_bind, pure_eq_ok]
    rw [subUsize_of_le (by omega), ok_bind, Nat.add_sub_cancel_left, assert_true (by omega),
      ok_bind, subUsize_of_le (by omega), ok_bind]
  · rw [if_neg hfit, if_neg hfit]
    rfl

/-- The object, with its padding, lies in the slice at an aligned address. -/
structure BumpSlice.Contained (header : Header w) (data : Storage w) (B : BumpSlice) : Prop where
  base_le : data.base ≤ B.addr
  aligned : header.align ∣ B.addr
  stop_le : B.addr + B.size header ≤ data.base + data.len

/-- What is promised of `from_memory`: it fails exactly if no aligned header fits,
and what it returns stays inside the slice. -/
def BumpSlice.StaysInside (b : Build) (header : Header w) (data : Storage w) : Prop :=
  ∃ r, fromMemory b header data = .ok r ∧ (r = none ↔ ¬ Fits data header.toLayout 0) ∧
    ∀ B, r = some B → B.Contained header data

/-- **When the object stays inside.**  Exactly if there is no room for a header, or
the end of the slice is aligned. -/
theorem fromMemory_contained_iff (b : Build) (header : Header w) (data : Storage w) :
    BumpSlice.StaysInside b header data ↔
      ¬ Fits data header.toLayout 0 ∨ header.align ∣ data.base + data.len := by
  unfold BumpSlice.StaysInside
  rw [fromMemory_eq, fits_iff_placement]
  by_cases hfit : placement data header.toLayout 0 + header.size ≤ data.len
  · rw [if_pos hfit]
    have haligned : header.align ∣ data.base + placement data header.toLayout 0 := dvd_placement
    have hend : data.base + placement data header.toLayout 0 +
        roundUp (header.size + (data.len - placement data header.toLayout 0 - header.size))
          header.align = roundUp (data.base + data.len) header.align := by
      rw [← roundUp_add_of_dvd haligned]
      congr 1
      omega
    constructor
    · rintro ⟨r, hr, -, hB⟩
      obtain rfl := Except.ok.inj hr
      refine Or.inr ((roundUp_le_self_iff header.align_pos).mp ?_)
      rw [← hend]
      exact (hB _ rfl).stop_le
    · intro h
      have hdvd := h.resolve_left (not_not_intro hfit)
      refine ⟨_, rfl, ⟨fun hnone => absurd hnone (by simp), fun hnot => absurd hfit hnot⟩, ?_⟩
      intro B hB
      obtain rfl := Option.some.inj hB
      refine ⟨Nat.le_add_right _ _, haligned, ?_⟩
      show data.base + placement data header.toLayout 0 + roundUp _ header.align ≤ _
      rw [hend]
      exact (roundUp_le_self_iff header.align_pos).mpr hdvd
  · rw [if_neg hfit]
    refine ⟨fun _ => Or.inl hfit, fun _ => ⟨none, rfl, ⟨fun _ => hfit, fun _ => rfl⟩, ?_⟩⟩
    intro B hB
    exact absurd hB (by simp)

/-- Fifteen bytes at an aligned address: the object takes sixteen. -/
theorem fromMemory_overruns :
    ¬ ∀ (data : Storage 64), BumpSlice.StaysInside .debug Header.word data := by
  intro h
  obtain ⟨r, hr, -, hB⟩ := h ⟨4096, 15, page_pos, by decide⟩
  rw [fromMemory_eq, if_pos (by decide)] at hr
  have hstop := (hB _ (Except.ok.inj hr).symm).stop_le
  exact absurd hstop (by decide)

end Bump
end StaticAlloc
