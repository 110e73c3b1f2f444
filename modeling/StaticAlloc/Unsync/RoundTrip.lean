import StaticAlloc.Bump.Agreement

/-!
# From memory to an arena and back

`BumpSlice::from_mem` turns a byte slice into an unsynchronized arena, `into_mem`
turns the arena into the byte slice it occupies, and `from_mem_unchecked` turns
such a slice into an arena again without touching the header.  Each of the three
computes the extent in a way of its own: from the address by `align_offset`, from
the layout of the value rounded up, and by a subtraction rounded down.

A `BumpSlice` here is the fat pointer, with what the language requires of the
object behind it: that it is aligned, and with its padding does not leave the
address space nor exceed `isize::MAX`.  A reference to an object that is not
inside the slice it was made from would be undefined behaviour.

`fromMemUnchecked_eq` computes the reinterpretation of any aligned slice that has
room for a header: the capacity is what remains, rounded down to the alignment.
Taking an object of capacity `c` apart and together again rounds `c` up
(`fromMemUnchecked_intoMem`), so a capacity that is a multiple of the alignment is
kept, and the one `from_mem` chooses is.
-/

namespace StaticAlloc
namespace Unsync

open Toolkit
open StaticAlloc.Bump (Level Operation Outcome Fits placement fits_iff_placement)

variable {w : ℕ}

/-- `&mut [MaybeUninit<u8>]`: no slice is larger than `isize::MAX`. -/
structure ByteSlice (w : ℕ) extends Storage w where
  bounded : len < 2 ^ (w - 1)

/-- `size_of_val` of a `BumpSlice`: the header and the data, padded to the alignment
of the header. -/
def footprint (header : Header w) (capacity : ℕ) : ℕ :=
  roundUp (header.size + capacity) header.align

/-- A `&mut BumpSlice`: a pointer with the length of the data. -/
structure BumpSlice (header : Header w) where
  addr : ℕ
  capacity : ℕ
  nonnull : 0 < addr
  aligned : header.align ∣ addr
  fits : addr + footprint header capacity ≤ 2 ^ w
  bounded : footprint header capacity < 2 ^ (w - 1)

/-- `FromMemError`. -/
structure FromMemError where
  deriving DecidableEq, Repr

/-- `BumpSlice::reinterpret_aligned_mem`. -/
def reinterpretAlignedMem (b : Build) (header : Header w) (mem : ByteSlice w) :
    Except Stop (BumpSlice header) := do
  if ¬ header.align ∣ mem.base then
    .error (.undefined "assert_unchecked: the slice is not aligned for a header")
  else
    let datasize ← subUsize b w mem.len header.size
    let datasize ← subUsize b w datasize (datasize % header.align)
    debugAssert b ((layoutFromSize header.toTy datasize).any fun l => l.size ≤ mem.len)
      "Self::layout_from_size(datasize).is_ok_and(|l| l.size() <= mem.len())"
    if h : header.align ∣ mem.base ∧ footprint header datasize ≤ mem.len then
      return ⟨mem.base, datasize, mem.nonnull, h.1, (Nat.add_le_add_left h.2 _).trans mem.fits,
        h.2.trans_lt mem.bounded⟩
    else
      .error (.undefined "a reference to memory outside the slice")

/-- `BumpSlice::from_mem_unchecked`. -/
def fromMemUnchecked (b : Build) (header : Header w) (mem : ByteSlice w) :
    Except Stop (BumpSlice header) :=
  reinterpretAlignedMem b header mem

/-- The part of a slice from `offset` on: `mem.get_mut(offset..)`. -/
def ByteSlice.getFrom (mem : ByteSlice w) (offset : ℕ) : Option (ByteSlice w) :=
  if h : offset ≤ mem.len then
    some ⟨⟨mem.base + offset, mem.len - offset, Nat.add_pos_left mem.nonnull _,
      (by have := mem.fits; omega)⟩, (Nat.sub_le _ _).trans_lt mem.bounded⟩
  else none

/-- `BumpSlice::from_mem`, on a memory of words; the header's index is written. -/
def fromMem (b : Build) (header : Header w) (words : Bytes ℕ) (mem : ByteSlice w) :
    Except Stop (Bytes ℕ × Except FromMemError (BumpSlice header)) := do
  let offset := alignOffset mem.base header.align
  match mem.getFrom offset with
  | none => return (words, .error ⟨⟩)
  | some mem =>
    -- `mem.get_mut(..header.size())`
    if mem.len < header.size then
      return (words, .error ⟨⟩)
    let words := words.store mem.base 0
    return (words, .ok (← fromMemUnchecked b header mem))

namespace BumpSlice

variable {header : Header w}

/-- `BumpSlice::into_mem`. -/
def intoMem (B : BumpSlice header) : ByteSlice w :=
  ⟨⟨B.addr, footprint header B.capacity, B.nonnull, B.fits⟩, B.bounded⟩

/-- The data, right behind the header. -/
def storage (B : BumpSlice header) : Storage w where
  base := B.addr + header.size
  len := B.capacity
  nonnull := Nat.add_pos_left B.nonnull _
  fits := by
    have hle : header.size + B.capacity ≤ footprint header B.capacity := le_roundUp
    have := B.fits
    omega

/-- `BumpSlice::level`: the index in the header. -/
def level (words : Bytes ℕ) (B : BumpSlice header) : Level := words B.addr

/-- Allocations on the arena, one after the other. -/
def execAll (b : Build) (words : Bytes ℕ) (B : BumpSlice header) (ops : List (Operation w)) :
    Bytes ℕ × List (Outcome × Level) :=
  let (index, seen) := Unsync.execAll b B.storage (B.level words) ops
  (words.store B.addr index, seen)

end BumpSlice

/-! ## Extents -/

variable {header : Header w} {c size : ℕ}

theorem footprint_of_dvd (h : header.align ∣ c) : footprint header c = header.size + c :=
  roundUp_eq_self header.align_pos (Nat.dvd_add header.stride h)

/-- The footprint is that of the capacity rounded up. -/
theorem footprint_eq : footprint header c = header.size + roundUp c header.align :=
  roundUp_add_of_dvd header.stride

theorem layoutFromSize_of_dvd (h : header.align ∣ c) (hc : header.size + c < 2 ^ (w - 1)) :
    ∃ l, layoutFromSize header.toTy c = some l ∧ l.size = header.size + c := by
  have hpos := header.align_pos
  have hdvd : header.align ∣ header.size + c := Nat.dvd_add header.stride h
  have hroom : header.size + c + header.align ≤ 2 ^ (w - 1) := by
    have := Nat.le_of_dvd (by omega) (Nat.dvd_sub header.align_dvd_half hdvd)
    omega
  have htail : Layout.fromSizeAlign w c 1 =
      some ⟨c, 1, Nat.isPowerOfTwo_one, by omega⟩ :=
    dif_pos ⟨Nat.isPowerOfTwo_one, by omega⟩
  have hmax : max header.align 1 = header.align := max_eq_left hpos
  have hpad : padding header.size 1 = 0 := (padding_eq_zero_iff Nat.one_pos).mpr (one_dvd _)
  have hwhole : Layout.fromSizeAlign w (header.size + padding header.size 1 + c)
      (max header.align 1) = some ⟨header.size + c, header.align, header.align_pow, hroom⟩ := by
    rw [hpad, hmax]
    exact dif_pos ⟨header.align_pow, hroom⟩
  refine ⟨(Layout.mk (header.size + c) header.align header.align_pow hroom).padToAlign.toLayout,
    ?_, roundUp_eq_self hpos hdvd⟩
  simp only [layoutFromSize, htail, Option.bind_eq_bind, Option.bind_some, Layout.extend, hwhole,
    Option.map_some, Option.pure_def]

/-- **Reinterpreting a slice.**  An aligned slice with room for a header becomes an
arena at its address, with what remains as capacity, rounded down. -/
theorem fromMemUnchecked_eq (b : Build) {mem : ByteSlice w} (haligned : header.align ∣ mem.base)
    (hroom : header.size ≤ mem.len) :
    ∃ B, fromMemUnchecked b header mem = .ok B ∧ B.addr = mem.base ∧
      B.capacity = roundDown (mem.len - header.size) header.align := by
  have hdvd : header.align ∣ roundDown (mem.len - header.size) header.align := dvd_roundDown
  have hle : roundDown (mem.len - header.size) header.align ≤ mem.len - header.size := roundDown_le
  have hbounded := mem.bounded
  obtain ⟨l, hl, hsize⟩ := layoutFromSize_of_dvd hdvd (by omega)
  have hfoot : footprint header (roundDown (mem.len - header.size) header.align) ≤ mem.len := by
    rw [footprint_of_dvd hdvd]
    omega
  refine ⟨⟨mem.base, roundDown (mem.len - header.size) header.align, mem.nonnull, haligned,
    (Nat.add_le_add_left hfoot _).trans mem.fits, hfoot.trans_lt hbounded⟩, ?_, rfl, rfl⟩
  have hsub : subUsize b w (mem.len - header.size) ((mem.len - header.size) % header.align) =
      .ok (roundDown (mem.len - header.size) header.align) := subUsize_of_le (Nat.mod_le _ _)
  rw [fromMemUnchecked, reinterpretAlignedMem, if_neg (not_not_intro haligned),
    subUsize_of_le hroom, ok_bind, hsub, ok_bind, debugAssert_true, ok_bind,
    dif_pos ⟨haligned, hfoot⟩]
  · rfl
  · rw [hl, Option.any_some, decide_eq_true_eq, hsize]
    omega

namespace BumpSlice

theorem ext {B B' : BumpSlice header} (haddr : B.addr = B'.addr)
    (hcap : B.capacity = B'.capacity) : B = B' := by
  cases B
  cases B'
  cases haddr
  cases hcap
  rfl

/-- **There and back.**  The round trip keeps the address and the footprint, and
rounds the capacity up. -/
theorem fromMemUnchecked_intoMem (b : Build) (B : BumpSlice header) :
    ∃ B', fromMemUnchecked b header B.intoMem = .ok B' ∧ B'.addr = B.addr ∧
      B'.capacity = roundUp B.capacity header.align := by
  have hsize : header.size ≤ B.intoMem.len := by
    show header.size ≤ footprint header B.capacity
    rw [footprint_eq]
    exact Nat.le_add_right _ _
  have haligned : header.align ∣ B.intoMem.base := B.aligned
  obtain ⟨B', hB', haddr, hcap⟩ := fromMemUnchecked_eq b haligned hsize
  refine ⟨B', hB', haddr, ?_⟩
  have hrest : B.intoMem.len - header.size = roundUp B.capacity header.align := by
    show footprint header B.capacity - header.size = _
    rw [footprint_eq]
    exact Nat.add_sub_cancel_left _ _
  rw [hcap, hrest]
  exact roundDown_eq_self (dvd_roundUp header.align_pos)

/-- An arena whose capacity is a multiple of the alignment comes back unchanged. -/
theorem fromMemUnchecked_intoMem_of_dvd (b : Build) {B : BumpSlice header}
    (h : header.align ∣ B.capacity) : fromMemUnchecked b header B.intoMem = .ok B := by
  obtain ⟨B', hB', haddr, hcap⟩ := B.fromMemUnchecked_intoMem b
  rw [hB']
  exact congrArg _ (BumpSlice.ext haddr (hcap.trans (roundUp_eq_self header.align_pos h)))

end BumpSlice

/-! ## From memory -/

variable {mem : ByteSlice w} {words : Bytes ℕ}

theorem getFrom_of_le {offset : ℕ} (h : offset ≤ mem.len) :
    ∃ rest, mem.getFrom offset = some rest ∧ rest.base = mem.base + offset ∧
      rest.len = mem.len - offset := by
  rw [ByteSlice.getFrom, dif_pos h]
  exact ⟨_, rfl, rfl, rfl⟩

/-- The first aligned offset of a slice. -/
theorem placement_zero_eq : placement mem.toStorage header.toLayout 0 =
    alignOffset mem.base header.align := by
  rw [placement, Nat.zero_add, Nat.add_zero]
  rfl

/-- **What `from_mem` does with a slice that has room for a header.**  The arena is
empty, starts at the first aligned address, and has what remains as capacity,
rounded down. -/
theorem fromMem_of_fits (b : Build) (words : Bytes ℕ)
    (h : Fits mem.toStorage header.toLayout 0) :
    ∃ B, fromMem b header words mem = .ok (words.store B.addr 0, .ok B) ∧
      B.addr = mem.base + placement mem.toStorage header.toLayout 0 ∧
      B.capacity = roundDown (mem.len - placement mem.toStorage header.toLayout 0 - header.size)
        header.align := by
  have hdvd : header.align ∣ mem.base + placement mem.toStorage header.toLayout 0 :=
    StaticAlloc.Bump.dvd_placement
  rw [fits_iff_placement] at h
  rw [placement_zero_eq] at h hdvd ⊢
  have hsize : alignOffset mem.base header.align + header.size ≤ mem.len := h
  have hle : alignOffset mem.base header.align ≤ mem.len := by omega
  obtain ⟨rest, hrest, hbase, hlen⟩ := getFrom_of_le hle
  rw [← hbase] at hdvd
  obtain ⟨B, hB, haddr, hcap⟩ := fromMemUnchecked_eq b hdvd (by omega)
  rw [hlen] at hcap
  refine ⟨B, ?_, haddr.trans hbase, hcap⟩
  simp only [fromMem, hrest]
  rw [if_neg (by omega), hB, haddr]
  rfl

/-- Without room for a header it fails, and writes nothing. -/
theorem fromMem_of_not_fits (b : Build) (words : Bytes ℕ)
    (h : ¬ Fits mem.toStorage header.toLayout 0) :
    fromMem b header words mem = .ok (words, .error ⟨⟩) := by
  rw [fits_iff_placement, placement_zero_eq] at h
  have hsize : ¬ alignOffset mem.base header.align + header.size ≤ mem.len := h
  by_cases hoff : alignOffset mem.base header.align ≤ mem.len
  · obtain ⟨rest, hrest, -, hlen⟩ := getFrom_of_le hoff
    simp only [fromMem, hrest]
    rw [if_pos (by omega)]
    rfl
  · have hnone : mem.getFrom (alignOffset mem.base header.align) = none := dif_neg hoff
    simp only [fromMem, hnone]
    rfl

/-- The object at the first aligned address with the capacity rounded down ends
inside the slice. -/
theorem stop_le {B : BumpSlice header} (h : Fits mem.toStorage header.toLayout 0)
    (haddr : B.addr = mem.base + placement mem.toStorage header.toLayout 0)
    (hcap : B.capacity = roundDown
      (mem.len - placement mem.toStorage header.toLayout 0 - header.size) header.align) :
    header.align ∣ B.capacity ∧ B.addr + footprint header B.capacity ≤ mem.base + mem.len := by
  have hdvd : header.align ∣ B.capacity := by
    rw [hcap]
    exact dvd_roundDown
  have hle : B.capacity ≤ mem.len - placement mem.toStorage header.toLayout 0 - header.size := by
    rw [hcap]
    exact roundDown_le
  rw [fits_iff_placement] at h
  have hroom : placement mem.toStorage header.toLayout 0 + header.size ≤ mem.len := h
  refine ⟨hdvd, ?_⟩
  rw [footprint_of_dvd hdvd, haddr]
  omega

/-- No aligned object inside the slice has a larger capacity that is a multiple of
the alignment. -/
theorem capacity_le {addr : ℕ} (haddr : mem.base ≤ addr) (haligned : header.align ∣ addr)
    (hc : header.align ∣ c) (hstop : addr + footprint header c ≤ mem.base + mem.len) :
    c ≤ roundDown (mem.len - placement mem.toStorage header.toLayout 0 - header.size)
      header.align := by
  refine le_roundDown ?_ hc
  rw [footprint_of_dvd hc] at hstop
  have hfirst : placement mem.toStorage header.toLayout 0 ≤ addr - mem.base := by
    refine StaticAlloc.Bump.placement_le (Nat.zero_le _) ?_
    show header.align ∣ mem.base + (addr - mem.base)
    rwa [Nat.add_sub_cancel' haddr]
  omega

/-- **The memory round trip.**  `from_mem` succeeds exactly if an aligned header
fits; the object, padded, lies inside the slice, with the largest capacity that is
a multiple of the alignment.  After any operations on it, taking it apart and
together again gives the same pointer, so the same address, capacity, footprint and
level, and everything later behaves the same.  An arena of any capacity keeps its
address, footprint and level, and gets its capacity rounded up; after that the
round trip changes nothing. -/
theorem memory_round_trip (b : Build) (header : Header w) :
    (∀ (words : Bytes ℕ) (mem : ByteSlice w), ∃ words' r,
      fromMem b header words mem = .ok (words', r) ∧
      ((∃ B, r = .ok B) ↔ Fits mem.toStorage header.toLayout 0) ∧
      ∀ B, r = .ok B →
        mem.base ≤ B.addr ∧ header.align ∣ B.addr ∧
        B.addr + footprint header B.capacity ≤ mem.base + mem.len ∧
        header.align ∣ B.capacity ∧
        (∀ addr c, mem.base ≤ addr → header.align ∣ addr → header.align ∣ c →
          addr + footprint header c ≤ mem.base + mem.len → c ≤ B.capacity) ∧
        B.level words' = 0 ∧
        ∀ ops, ∃ B', fromMemUnchecked b header B.intoMem = .ok B' ∧
          B'.addr = B.addr ∧ B'.capacity = B.capacity ∧
          footprint header B'.capacity = footprint header B.capacity ∧
          B'.level (B.execAll b words' ops).1 = B.level (B.execAll b words' ops).1 ∧
          ∀ later, B'.execAll b (B.execAll b words' ops).1 later =
            B.execAll b (B.execAll b words' ops).1 later) ∧
    ∀ B : BumpSlice header, ∃ B', fromMemUnchecked b header B.intoMem = .ok B' ∧
      B'.addr = B.addr ∧ footprint header B'.capacity = footprint header B.capacity ∧
      (∀ words, B'.level words = B.level words) ∧
      B'.capacity = roundUp B.capacity header.align ∧
      fromMemUnchecked b header B'.intoMem = .ok B' := by
  refine ⟨?_, ?_⟩
  · intro words mem
    by_cases hfits : Fits mem.toStorage header.toLayout 0
    · obtain ⟨B, hB, haddr, hcap⟩ := fromMem_of_fits b words hfits
      refine ⟨_, _, hB, ⟨fun _ => hfits, fun _ => ⟨B, rfl⟩⟩, ?_⟩
      intro B₁ hB₁
      obtain rfl : B = B₁ := Except.ok.inj hB₁
      obtain ⟨hdvd, hstop⟩ := stop_le hfits haddr hcap
      refine ⟨by omega, B.aligned, hstop, hdvd, ?_, ?_, ?_⟩
      · intro addr c h₁ h₂ h₃ h₄
        rw [hcap]
        exact capacity_le h₁ h₂ h₃ h₄
      · exact if_pos rfl
      · intro ops
        exact ⟨B, B.fromMemUnchecked_intoMem_of_dvd b hdvd, rfl, rfl, rfl, rfl, fun _ => rfl⟩
    · refine ⟨_, _, fromMem_of_not_fits b words hfits, ⟨?_, fun h => absurd h hfits⟩, ?_⟩
      · rintro ⟨B, hB⟩
        exact absurd hB (by simp)
      · intro B hB
        exact absurd hB (by simp)
  · intro B
    obtain ⟨B', hB', haddr, hcap⟩ := B.fromMemUnchecked_intoMem b
    have hdvd : header.align ∣ B'.capacity := by
      rw [hcap]
      exact dvd_roundUp header.align_pos
    refine ⟨B', hB', haddr, ?_, ?_, hcap, B'.fromMemUnchecked_intoMem_of_dvd b hdvd⟩
    · rw [footprint_of_dvd hdvd, hcap, footprint_eq]
    · intro words
      rw [BumpSlice.level, haddr]
      rfl

/-- Thirty bytes from one past an aligned address on. -/
theorem memory_round_trip_thirty_bytes :
    let mem : ByteSlice 64 := ⟨⟨4097, 30, by decide, by decide⟩, by decide⟩
    ∃ words B, fromMem .debug Header.word (fun _ => 7) mem = .ok (words, .ok B) ∧
      B.addr + footprint Header.word B.capacity ≤ 4097 + 30 ∧ B.level words = 0 ∧
      fromMemUnchecked .debug Header.word B.intoMem = .ok B := by
  intro mem
  obtain ⟨words, r, h, hiff, hr⟩ := (memory_round_trip .debug Header.word).1 (fun _ => 7) mem
  obtain ⟨B, rfl⟩ := hiff.mpr ⟨7, by decide, by decide, by decide⟩
  obtain ⟨-, -, hstop, -, -, hlevel, htrip⟩ := hr B rfl
  obtain ⟨B', hB', haddr, hcap, -⟩ := htrip []
  exact ⟨words, B, h, hstop, hlevel, hB'.trans (congrArg _ (BumpSlice.ext haddr hcap))⟩

end Unsync
end StaticAlloc
