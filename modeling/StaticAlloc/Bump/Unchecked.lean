import StaticAlloc.Bump.Exhaustion
import StaticAlloc.Bump.Agreement

/-!
# Back from a level to the allocation

An allocation is returned with the level after it.  `level_start` subtracts the size
of the type from that level, and `get_unchecked` adds a level to the base address; so
the one after the other gives the pointer again, if the padding of a block is in front
of it and nothing is behind.

That it is in front is `Result.Placed`: the block ends at the level it is returned
with.  From it follows all that `get_unchecked` asserts, in either arena
(`Placed.inverted`): the start is less than the end, and so inside an arena that ends
at or behind that, even if a level at its very end is not.

For the shared arena the results are those in the log of an interleaving
(`run_answered` finds the step in which a call was answered), for the unsynchronized
one those of a `Session`, a list of calls one after the other.
-/

namespace StaticAlloc

open Toolkit

variable {w : ℕ}

namespace Bump

/-- `Allocation::level_start` of one value. -/
def Allocation.levelStart (b : Build) (V : Ty w) (a : Allocation) : Except Stop Level :=
  subUsize b w a.level V.size

/-- `Allocation::level_start` of a slice. -/
def SliceAllocation.levelStart (b : Build) (V : Ty w) (a : SliceAllocation) :
    Except Stop Level := do
  let size ← mulUsize b w V.size a.len
  subUsize b w a.level size

/-- `Bump::data_ptr`. -/
def dataPtr (S : Storage w) : ℕ := S.base

/-- `byte_add` of a pointer to the storage. -/
def byteAdd (S : Storage w) (offset : ℕ) : Except Stop ℕ :=
  if offset ≤ S.len then .ok (S.base + offset)
  else .error (.undefined "pointer arithmetic out of bounds")

/-- `BumpView::get_unchecked`. -/
def BumpView.getUnchecked (b : Build) (S : Storage w) (consumed : ℕ) (V : Ty w)
    (level : Level) : Except Stop Allocation := do
  debugAssert b (level ≤ S.len) "level.0 <= mem::size_of_val(self.storage)"
  debugAssert b (level ≤ consumed) "Tried to access an allocation that does not yet exist"
  let alloc ← byteAdd S level
  let ptr ← unwrap (nonNullNew alloc)
  debugAssert b (V.align ∣ ptr) "Tried to access an allocation with improper type"
  return ⟨ptr, level⟩

variable {b : Build} {S : Storage w} {V : Ty w} {e consumed : ℕ}

theorem byteAdd_of_le (h : e ≤ S.len) : byteAdd S e = .ok (S.base + e) := if_pos h

theorem nonNullNew_base (S : Storage w) (o : ℕ) :
    nonNullNew (S.base + o) = some (S.base + o) := by
  have := S.nonnull
  exact if_neg (by omega)

/-- All assertions hold at an aligned level that is not above the current one. -/
theorem BumpView.getUnchecked_eq (hlen : e ≤ S.len) (hlevel : e ≤ consumed)
    (halign : V.align ∣ S.base + e) :
    getUnchecked b S consumed V e = .ok ⟨S.base + e, e⟩ := by
  rw [getUnchecked, debugAssert_true hlen, ok_bind, debugAssert_true hlevel, ok_bind,
    byteAdd_of_le hlen, ok_bind, nonNullNew_base, unwrap_some, ok_bind, debugAssert_true halign]
  rfl

end Bump

namespace Unsync

open StaticAlloc.Bump (Level Allocation nonNullNew nonNullNew_base byteAdd byteAdd_of_le)

/-- `BumpSlice::data_ptr`. -/
def dataPtr (S : Storage w) : ℕ := S.base

/-- `BumpSlice::get_unchecked`. -/
def getUnchecked (b : Build) (S : Storage w) (index : ℕ) (V : Ty w) (level : Level) :
    Except Stop Allocation := do
  debugAssert b (level < S.len) "level.0 < self.capacity()"
  debugAssert b (level ≤ index) "Tried to access an allocation that does not yet exist"
  let alloc ← byteAdd S level
  let ptr ← unwrap (nonNullNew alloc)
  debugAssert b (V.align ∣ ptr) "Tried to access an allocation with improper type"
  return ⟨ptr, level⟩

variable {b : Build} {S : Storage w} {V : Ty w} {e index : ℕ}

/-- They hold here as well, if there is any data behind the level. -/
theorem getUnchecked_eq (hlen : e < S.len) (hlevel : e ≤ index) (halign : V.align ∣ S.base + e) :
    getUnchecked b S index V e = .ok ⟨S.base + e, e⟩ := by
  rw [getUnchecked, debugAssert_true hlen, ok_bind, debugAssert_true hlevel, ok_bind,
    byteAdd_of_le hlen.le, ok_bind, nonNullNew_base, unwrap_some, ok_bind,
    debugAssert_true halign]
  rfl

end Unsync

namespace Bump

variable {b : Build} {S : Storage w} {ι : Type*} {consumed n : ℕ} {c : Call w}

/-! ## Results -/

/-- A successful result of `get` or `get_at`, or of `get_slice`. -/
inductive Result (w : ℕ) where
  | one (V : Ty w) (a : Allocation)
  | slice (V : Ty w) (a : SliceAllocation)

namespace Result

/-- The type of a value, or of the elements. -/
def ty : Result w → Ty w
  | one V _ | slice V _ => V

def ptr : Result w → ℕ
  | one _ a => a.ptr
  | slice _ a => a.ptr

/-- The level in the result. -/
def level : Result w → ℕ
  | one _ a => a.level
  | slice _ a => a.level

/-- The number of bytes. -/
def size : Result w → ℕ
  | one V _ => V.size
  | slice V a => V.size * a.len

def levelStart (b : Build) : Result w → Except Stop Level
  | one V a => a.levelStart b V
  | slice V a => a.levelStart b V

/-- The block ends at the level, and starts at an aligned address. -/
structure Placed (S : Storage w) (r : Result w) : Prop where
  ptr_eq : S.base + (r.level - r.size) = r.ptr
  size_le : r.size ≤ r.level
  aligned : r.ty.align ∣ r.ptr

/-- `level_start` gives the offset of the block, and `get_unchecked` at it the block. -/
def Inverted (b : Build) (data : ℕ) (getUnchecked : Ty w → Level → Except Stop Allocation)
    (r : Result w) : Prop :=
  ∃ start, r.levelStart b = .ok start ∧ data + start = r.ptr ∧ start + r.size = r.level ∧
    getUnchecked r.ty start = .ok ⟨r.ptr, start⟩

variable {r : Result w}

/-- Nothing overflows. -/
theorem levelStart_eq (hsize : r.size ≤ r.level) (hlevel : r.level ≤ S.len) :
    r.levelStart b = .ok (r.level - r.size) := by
  have hfits := S.fits
  have hpos := S.nonnull
  cases r with
  | one V a => exact subUsize_of_le hsize
  | slice V a =>
    have hword : V.size * a.len < 2 ^ w := lt_of_le_of_lt (hsize.trans hlevel) (by omega)
    rw [levelStart, SliceAllocation.levelStart, mulUsize_of_lt hword, ok_bind]
    exact subUsize_of_le hsize

/-- A block at its placement. -/
theorem Placed.of_placement {l : Layout w} {e : ℕ} (hptr : r.ptr = S.base + placement S l e)
    (hlevel : r.level = placement S l e + l.size) (hsize : r.size = l.size)
    (halign : r.ty.align = l.align) : r.Placed S where
  ptr_eq := by rw [hptr, hlevel, hsize, Nat.add_sub_cancel]
  size_le := by
    rw [hlevel, hsize]
    exact Nat.le_add_left _ _
  aligned := by
    rw [hptr, halign]
    exact dvd_placement

theorem Placed.aligned_start (h : r.Placed S) :
    r.ty.align ∣ S.base + (r.level - r.size) := by
  rw [h.ptr_eq]
  exact h.aligned

/-- **A placed block is found again**, at every later level. -/
theorem Placed.inverted (h : r.Placed S) (hlevel : r.level ≤ consumed) (hlen : consumed ≤ S.len) :
    r.Inverted b (dataPtr S) (BumpView.getUnchecked b S consumed) := by
  refine ⟨_, levelStart_eq h.size_le (hlevel.trans hlen), h.ptr_eq,
    Nat.sub_add_cancel h.size_le, ?_⟩
  rw [BumpView.getUnchecked_eq (by omega) (by omega) h.aligned_start, h.ptr_eq]

theorem Placed.unsync_inverted (h : r.Placed S) (hpos : 0 < r.size) (hlevel : r.level ≤ consumed)
    (hlen : consumed ≤ S.len) :
    r.Inverted b (Unsync.dataPtr S) (Unsync.getUnchecked b S consumed) := by
  have hsize := h.size_le
  refine ⟨_, levelStart_eq hsize (hlevel.trans hlen), h.ptr_eq, Nat.sub_add_cancel hsize, ?_⟩
  rw [Unsync.getUnchecked_eq (by omega) (by omega) h.aligned_start, h.ptr_eq]

end Result

/-! ## The shared arena -/

/-- The result of a finished call, if it is a typed allocation. -/
def Entry.result? (e : Entry ι w) : Option (Result w) :=
  match e.call, e.reply with
  | .get V, .granted a => some (.one V a)
  | .getAt V _, .granted a => some (.one V a)
  | .getSlice V _, .slice ptr len level => some (.slice V ⟨ptr, len, level⟩)
  | _, _ => none

/-- A result with bytes is a block that ends at the level afterwards; one without is at
the level that was observed. -/
theorem Returns.result {r : Reply} {level : ℕ} (h : Returns S level c r n) {t : ι} {x : Result w}
    (hx : (⟨t, c, r⟩ : Entry ι w).result? = some x) :
    (0 < x.size → x.Placed S ∧ x.level = n) ∧ (x.size = 0 → x.level = level) := by
  cases h with
  | @granted l tries size_pos fits =>
    obtain ⟨hsize, halign⟩ := tries.requests
    have hblock : ∀ {x : Result w}, x.ptr = S.base + placement S l level →
        x.level = placement S l level + l.size → x.size = c.size → x.ty.align = c.align →
        (0 < x.size → x.Placed S ∧ x.level = placement S l level + l.size) ∧
          (x.size = 0 → x.level = level) := by
      intro x hptr hlevel hx hx'
      rw [hsize] at hx
      exact ⟨fun _ => ⟨.of_placement hptr hlevel hx (hx'.trans halign), hlevel⟩,
        fun h => absurd (hx.symm.trans h) size_pos.ne'⟩
    cases c with
    | get V | getAt V _ | getSlice V _ =>
      obtain rfl := Option.some.inj hx
      exact hblock rfl rfl rfl rfl
    | tryAlloc | alloc | getLayout | allocAt | getLayoutAt =>
      exact absurd hx (by simp [Entry.result?])
  | exhausted => cases c <;> exact absurd hx (by simp [Entry.result?, Call.exhausted])
  | mismatch | gaveUp | stopped => exact absurd hx (by simp [Entry.result?])
  | observed observe =>
    have hserves := c.serves_body
    rw [observe] at hserves
    have hzero : ∀ {x : Result w}, x.level = n → x.size = c.size →
        (0 < x.size → x.Placed S ∧ x.level = n) ∧ (x.size = 0 → x.level = n) := by
      intro x hlevel hx
      exact ⟨fun hpos => absurd (hx.trans hserves) hpos.ne', fun _ => hlevel⟩
    cases c with
    | get V | getSlice V _ =>
      obtain rfl := Option.some.inj hx
      exact hzero rfl rfl
    | getAt V expected =>
      rw [Call.observed] at hx
      split at hx
      · exact absurd hx (by simp [Entry.result?])
      · obtain rfl := Option.some.inj hx
        exact hzero rfl rfl
    | tryAlloc | alloc | getLayout | allocAt | getLayoutAt =>
      exact absurd hx (by simp [Entry.result?])

namespace Arena

variable [DecidableEq ι]

/-- **In every interleaving, and ever after.** -/
theorem results_inverted (b : Build) (S : Storage w) (program : ι → List (Call w)) (consumed : ℕ)
    (hc : consumed ≤ S.len) (schedule rest : List ι) :
    let σ := (start program consumed).run S schedule
    ∀ e ∈ σ.log, ∀ x, e.result? = some x →
      (0 < x.size →
        x.Inverted b (dataPtr S) (BumpView.getUnchecked b S (σ.run S rest).consumed)) ∧
      (x.size = 0 → x.levelStart b = .ok x.level ∧
        ∃ k ≤ schedule.length, x.level = ((start program consumed).run S
          (schedule.take k)).consumed) := by
  intro σ e he x hx
  have hstart : (start program consumed).Tracked S := fun _ => trivial
  obtain hmem | ⟨k, hk, hreturns⟩ := run_answered schedule hstart he
  · exact absurd hmem List.not_mem_nil
  have hτ := reachable_invariant (reachable_run S program hc (schedule ++ rest))
  have hle := run_take_le (S := S) program consumed (schedule ++ rest)
  rw [run_append] at hτ hle
  have hafter := hle (k + 1)
  have hbefore := hle k
  rw [List.take_append_of_le_length hk] at hafter
  rw [List.take_append_of_le_length hk.le] at hbefore
  obtain ⟨hplaced, hzero⟩ := hreturns.result hx
  refine ⟨fun hpos => ?_, fun hsize => ⟨?_, k, hk.le, hzero hsize⟩⟩
  · obtain ⟨hplaced, hlevel⟩ := hplaced hpos
    exact hplaced.inverted (hlevel ▸ hafter) hτ.level_le
  · have hlevel : x.level ≤ S.len := by
      rw [hzero hsize]
      exact hbefore.trans hτ.level_le
    rw [Result.levelStart_eq (hsize ▸ Nat.zero_le _) hlevel, hsize, Nat.sub_zero]

end Arena

end Bump

/-! ## The unsynchronized arena -/

namespace Unsync

open StaticAlloc.Bump (Level Failure Allocation Result placement)

/-- What a user of the arena may call. -/
inductive Call (w : ℕ) where
  | alloc (layout : Layout w)
  | allocAt (layout : Layout w) (level : Level)
  | get (V : Ty w)
  | getAt (V : Ty w) (level : Level)
  | bumpBox (T : Ty w)
  | bumpArray (T : Ty w) (n : ℕ)
  | reset

/-- The index after a call, and the typed allocation it returned. -/
def Call.exec (b : Build) (S : Storage w) (index : ℕ) :
    Call w → Except Stop (ℕ × Option (Result w))
  | alloc layout => do
    let (index, _) ← Unsync.alloc b S index layout
    return (index, none)
  | allocAt layout level => do
    let (index, _) ← Unsync.allocAt b S index layout level
    return (index, none)
  | get V => do
    let (index, r) ← Unsync.get b S index V
    return (index, r.map (.one V))
  | getAt V level => do
    let (index, r) ← Unsync.getAt b S index V level
    return (index, r.toOption.map (.one V))
  | bumpBox T => do
    let (index, _) ← Unsync.bumpBox b S index T
    return (index, none)
  | bumpArray T n => do
    let (index, _) ← Unsync.bumpArray b S index T n
    return (index, none)
  | reset => .ok (Unsync.reset index, none)

/-- How an attempt may end: the index afterwards, and the allocation. -/
inductive Attempted (S : Storage w) (l : Layout w) (index : ℕ) :
    ℕ → Option Allocation → Prop where
  | placed (size_pos : 0 < l.size) (fits : placement S l index + l.size ≤ S.len) :
      Attempted S l index (placement S l index + l.size)
        (some ⟨S.base + placement S l index, placement S l index + l.size⟩)
  | refused : Attempted S l index index none

variable {b : Build} {S : Storage w} {l : Layout w} {index index' : ℕ}

theorem Attempted.le {o : Option Allocation} (h : Attempted S l index index' o) :
    index ≤ index' := by
  cases h with
  | placed => exact Bump.le_placement.trans (Nat.le_add_right _ _)
  | refused => exact le_rfl

theorem Attempted.le_len {o : Option Allocation} (h : Attempted S l index index' o)
    (hi : index ≤ S.len) : index' ≤ S.len := by
  cases h with
  | placed size_pos fits => exact fits
  | refused => exact hi

theorem Attempted.result {V : Ty w} {o : Option Allocation} {x : Result w}
    (h : Attempted S V.toLayout index index' o) (hx : o.map (.one V) = some x) :
    x.Placed S ∧ 0 < x.size ∧ x.level = index' := by
  cases h with
  | placed size_pos fits =>
    obtain rfl := Option.some.inj hx
    exact ⟨.of_placement rfl rfl rfl rfl, size_pos, rfl⟩
  | refused => exact absurd hx (by simp)

theorem tryAllocAt_attempted {e : ℕ} {r : Except Failure Allocation}
    (h : tryAllocAt b S index l e = .ok (index', r)) :
    Attempted S l index index' r.toOption := by
  rcases Nat.eq_zero_or_pos l.size with hs | hs
  · exact absurd ((tryAllocAt_of_size_eq_zero hs).symm.trans h) (by simp)
  rcases Nat.lt_or_ge S.len e with he | he
  · exact absurd ((tryAllocAt_of_lt hs he).symm.trans h) (by simp)
  rw [tryAllocAt_eq hs he] at h
  split at h
  · rename_i hfit
    split at h
    · rename_i heq
      subst heq
      obtain ⟨rfl, rfl⟩ := ok_pair_inj h
      exact .placed hs hfit
    · obtain ⟨rfl, rfl⟩ := ok_pair_inj h
      exact .refused
  · obtain ⟨rfl, rfl⟩ := ok_pair_inj h
    exact .refused

theorem tryAlloc_attempted {r : Except Level Allocation}
    (h : tryAlloc b S index l = .ok (index', r)) : Attempted S l index index' r.toOption := by
  obtain ⟨⟨i, o⟩, hattempt, hrest⟩ := of_bind_ok h
  have hend := tryAllocAt_attempted hattempt
  cases o with
  | ok a =>
    obtain ⟨rfl, rfl⟩ := ok_pair_inj hrest
    exact hend
  | error failure =>
    cases failure with
    | exhausted =>
      obtain ⟨rfl, rfl⟩ := ok_pair_inj hrest
      exact hend
    | mismatch => exact absurd hrest (by simp)

theorem alloc_attempted {r : Option ℕ} (h : alloc b S index l = .ok (index', r)) :
    ∃ o, Attempted S l index index' o := by
  obtain ⟨⟨i, o⟩, hattempt, hrest⟩ := of_bind_ok h
  have hend := tryAlloc_attempted hattempt
  cases o with
  | ok a =>
    obtain ⟨rfl, -⟩ := ok_pair_inj hrest
    exact ⟨_, hend⟩
  | error level =>
    obtain ⟨rfl, -⟩ := ok_pair_inj hrest
    exact ⟨_, hend⟩

theorem get_attempted {V : Ty w} {r : Option Allocation}
    (h : get b S index V = .ok (index', r)) : Attempted S V.toLayout index index' r := by
  obtain ⟨⟨i, o⟩, hattempt, hrest⟩ := of_bind_ok h
  have hend := tryAlloc_attempted hattempt
  cases o with
  | ok a =>
    obtain ⟨rfl, rfl⟩ := ok_pair_inj hrest
    exact hend
  | error level =>
    obtain ⟨rfl, rfl⟩ := ok_pair_inj hrest
    exact hend

theorem allocAt_attempted {e : Level} {r : Except Failure ℕ}
    (h : allocAt b S index l e = .ok (index', r)) : ∃ o, Attempted S l index index' o := by
  obtain ⟨⟨i, o⟩, hattempt, hrest⟩ := of_bind_ok h
  have hend := tryAllocAt_attempted hattempt
  cases o with
  | ok a =>
    obtain ⟨rfl, -⟩ := ok_pair_inj hrest
    exact ⟨_, hend⟩
  | error failure =>
    obtain ⟨rfl, -⟩ := ok_pair_inj hrest
    exact ⟨_, hend⟩

theorem bumpBox_attempted {T : Ty w} {r : Except Failure ℕ}
    (h : bumpBox b S index T = .ok (index', r)) :
    ∃ o, Attempted S T.toLayout index index' o := by
  obtain ⟨⟨i, o⟩, hattempt, hrest⟩ := of_bind_ok h
  have hend := tryAllocAt_attempted hattempt
  cases o with
  | ok a =>
    obtain ⟨rfl, -⟩ := ok_pair_inj hrest
    exact ⟨_, hend⟩
  | error failure =>
    obtain ⟨rfl, -⟩ := ok_pair_inj hrest
    exact ⟨_, hend⟩

theorem bumpArray_attempted {T : Ty w} {n : ℕ} {r : Except Failure RawSlice}
    (h : bumpArray b S index T n = .ok (index', r)) :
    ∃ l o, Attempted S l index index' o := by
  rw [bumpArray] at h
  cases harr : Layout.array T n with
  | none =>
    rw [harr] at h
    obtain ⟨rfl, -⟩ := ok_pair_inj h
    exact ⟨T.toLayout, none, .refused⟩
  | some layout =>
    rw [harr] at h
    obtain ⟨⟨i, o⟩, halloc, hrest⟩ := of_bind_ok h
    obtain ⟨o', hend⟩ := alloc_attempted halloc
    cases o with
    | none =>
      obtain ⟨rfl, -⟩ := ok_pair_inj hrest
      exact ⟨layout, o', hend⟩
    | some raw =>
      obtain ⟨rfl, -⟩ := ok_pair_inj hrest
      exact ⟨layout, o', hend⟩

/-- **What a call does.**  Unless it resets the arena it raises the index, inside the
data, and the block it returns ends there. -/
theorem Call.exec_ok {c : Call w} {r : Option (Result w)} (hc : c ≠ .reset)
    (h : c.exec b S index = .ok (index', r)) :
    index ≤ index' ∧ (index ≤ S.len → index' ≤ S.len) ∧
      ∀ x, r = some x → x.Placed S ∧ 0 < x.size ∧ x.level = index' := by
  have hnone : ∀ {l o}, r = none → Attempted S l index index' o →
      index ≤ index' ∧ (index ≤ S.len → index' ≤ S.len) ∧
        ∀ x, r = some x → x.Placed S ∧ 0 < x.size ∧ x.level = index' := by
    rintro l o rfl hend
    exact ⟨hend.le, hend.le_len, fun x hx => absurd hx (by simp)⟩
  cases c with
  | alloc layout =>
    obtain ⟨⟨i, o⟩, hcall, hrest⟩ := of_bind_ok h
    obtain ⟨rfl, rfl⟩ := ok_pair_inj hrest
    obtain ⟨o', hend⟩ := alloc_attempted hcall
    exact hnone rfl hend
  | allocAt layout level =>
    obtain ⟨⟨i, o⟩, hcall, hrest⟩ := of_bind_ok h
    obtain ⟨rfl, rfl⟩ := ok_pair_inj hrest
    obtain ⟨o', hend⟩ := allocAt_attempted hcall
    exact hnone rfl hend
  | get V =>
    obtain ⟨⟨i, o⟩, hcall, hrest⟩ := of_bind_ok h
    obtain ⟨rfl, rfl⟩ := ok_pair_inj hrest
    have hend := get_attempted hcall
    exact ⟨hend.le, hend.le_len, fun x hx => hend.result hx⟩
  | getAt V level =>
    obtain ⟨⟨i, o⟩, hcall, hrest⟩ := of_bind_ok h
    obtain ⟨rfl, rfl⟩ := ok_pair_inj hrest
    have hend := tryAllocAt_attempted hcall
    exact ⟨hend.le, hend.le_len, fun x hx => hend.result hx⟩
  | bumpBox T =>
    obtain ⟨⟨i, o⟩, hcall, hrest⟩ := of_bind_ok h
    obtain ⟨rfl, rfl⟩ := ok_pair_inj hrest
    obtain ⟨o', hend⟩ := bumpBox_attempted hcall
    exact hnone rfl hend
  | bumpArray T n =>
    obtain ⟨⟨i, o⟩, hcall, hrest⟩ := of_bind_ok h
    obtain ⟨rfl, rfl⟩ := ok_pair_inj hrest
    obtain ⟨l', o', hend⟩ := bumpArray_attempted hcall
    exact hnone rfl hend
  | reset => exact absurd rfl hc

/-- An arena, and the typed allocations made since it was last reset. -/
structure Session (w : ℕ) where
  index : ℕ
  results : List (Result w)

namespace Session

/-- A call that panics leaves the arena as it was. -/
def step (b : Build) (S : Storage w) (s : Session w) (c : Call w) : Session w :=
  match c, c.exec b S s.index with
  | .reset, .ok (index, _) => ⟨index, []⟩
  | _, .ok (index, r) => ⟨index, r.toList ++ s.results⟩
  | _, .error _ => s

/-- Calls one after the other. -/
def run (b : Build) (S : Storage w) (s : Session w) (calls : List (Call w)) : Session w :=
  calls.foldl (step b S) s

/-- What holds after every call: the index is inside the data, and the results are
blocks that end at or below it. -/
structure Invariant (S : Storage w) (s : Session w) : Prop where
  index_le : s.index ≤ S.len
  placed : ∀ x ∈ s.results, x.Placed S ∧ 0 < x.size ∧ x.level ≤ s.index

/-- How a call changes a session that it does not reset. -/
structure Extends (S : Storage w) (s s' : Session w) : Prop where
  index_le : s.index ≤ s'.index
  le_len : s.index ≤ S.len → s'.index ≤ S.len
  results : ∃ new, s'.results = new ++ s.results ∧
    ∀ x ∈ new, x.Placed S ∧ 0 < x.size ∧ x.level = s'.index

theorem step_extends (s : Session w) {c : Call w} (hc : c ≠ .reset) :
    Extends S s (s.step b S c) := by
  have hstep : s.step b S c = match c.exec b S s.index with
      | .ok (index, r) => ⟨index, r.toList ++ s.results⟩
      | .error _ => s := by
    cases c with
    | reset => exact absurd rfl hc
    | _ =>
      unfold step
      split <;> simp_all
  rw [hstep]
  cases h : c.exec b S s.index with
  | error stop => exact ⟨le_rfl, id, [], rfl, fun x hx => absurd hx List.not_mem_nil⟩
  | ok p =>
    obtain ⟨hle, hlen, hresult⟩ := Call.exec_ok hc h
    exact ⟨hle, hlen, p.2.toList, rfl, fun x hx => hresult x (Option.mem_toList.mp hx)⟩

theorem Extends.invariant {s s' : Session w} (h : Extends S s s') (hs : s.Invariant S) :
    s'.Invariant S := by
  obtain ⟨new, hnew, hplaced⟩ := h.results
  refine ⟨h.le_len hs.index_le, ?_⟩
  rw [hnew]
  intro x hx
  rcases List.mem_append.mp hx with hx | hx
  · obtain ⟨hx, hpos, hlevel⟩ := hplaced x hx
    exact ⟨hx, hpos, hlevel.le⟩
  · obtain ⟨hx, hpos, hlevel⟩ := hs.placed x hx
    exact ⟨hx, hpos, hlevel.trans h.index_le⟩

/-- **The step lemma.** -/
theorem step_invariant {s : Session w} (h : s.Invariant S) (c : Call w) :
    (s.step b S c).Invariant S := by
  by_cases hc : c = .reset
  · subst hc
    exact ⟨Nat.zero_le _, fun x hx => absurd hx List.not_mem_nil⟩
  · exact (step_extends s hc).invariant h

/-- **The run lemma.** -/
theorem run_invariant {s : Session w} (h : s.Invariant S) (calls : List (Call w)) :
    (s.run b S calls).Invariant S := by
  induction calls generalizing s with
  | nil => exact h
  | cons c calls ih => exact ih (step_invariant h c)

/-- As long as the arena is not reset, no result is lost. -/
theorem run_results {s : Session w} {calls : List (Call w)} (h : ∀ c ∈ calls, c ≠ .reset)
    {x : Result w} (hx : x ∈ s.results) : x ∈ (s.run b S calls).results := by
  induction calls generalizing s with
  | nil => exact hx
  | cons c calls ih =>
    obtain ⟨new, hnew, -⟩ := (step_extends (b := b) (S := S) s (h c List.mem_cons_self)).results
    refine ih (fun c hc => h c (List.mem_cons_of_mem _ hc)) ?_
    rw [hnew]
    exact List.mem_append_right _ hx

/-- **Along every list of calls, and until the next reset.** -/
theorem results_inverted {index : ℕ} (hi : index ≤ S.len) {calls rest : List (Call w)}
    (hrest : ∀ c ∈ rest, c ≠ .reset) {x : Result w}
    (hx : x ∈ (run b S ⟨index, []⟩ calls).results) :
    x.Inverted b (dataPtr S)
      (getUnchecked b S ((run b S ⟨index, []⟩ calls).run b S rest).index) := by
  have hstart : Invariant S ⟨index, []⟩ := ⟨hi, fun x hx => absurd hx List.not_mem_nil⟩
  have hend := run_invariant (b := b) (run_invariant (b := b) hstart calls) rest
  obtain ⟨hplaced, hpos, hlevel⟩ := hend.placed x (run_results hrest hx)
  exact hplaced.unsync_inverted hpos hlevel hend.index_le

end Session

end Unsync

namespace Bump

open Unsync (Session)

/-- **`level_start` and `get_unchecked` invert allocation.**  In either arena, for every
typed allocation of at least one byte that was made in any run, and in every state after
it until the arena is reset: `level_start` is the offset of the block, so many bytes
below the level returned, and `get_unchecked` there passes its assertions and returns the
pointer again.

An allocation of no bytes, which only the shared arena makes, starts at the level it
observed. -/
theorem level_start_inverts {ι : Type*} [DecidableEq ι] (b : Build) (S : Storage w) :
    (∀ (program : ι → List (Call w)) (consumed : ℕ), consumed ≤ S.len →
      ∀ schedule rest : List ι, let σ := (Arena.start program consumed).run S schedule
      ∀ e ∈ σ.log, ∀ x, e.result? = some x →
        (0 < x.size →
          x.Inverted b (dataPtr S) (BumpView.getUnchecked b S (σ.run S rest).consumed)) ∧
        (x.size = 0 → x.levelStart b = .ok x.level ∧
          ∃ k ≤ schedule.length, x.level = ((Arena.start program consumed).run S
            (schedule.take k)).consumed)) ∧
    (∀ index : ℕ, index ≤ S.len → ∀ calls rest : List (Unsync.Call w),
      (∀ c ∈ rest, c ≠ .reset) → let s := Session.run b S ⟨index, []⟩ calls
      ∀ x ∈ s.results,
        x.Inverted b (Unsync.dataPtr S) (Unsync.getUnchecked b S (s.run b S rest).index)) :=
  ⟨fun program consumed hc schedule rest =>
      Arena.results_inverted b S program consumed hc schedule rest,
    fun _ hi _ _ hrest _ hx => Session.results_inverted hi hrest hx⟩

theorem oneWord_fits : 4096 + 8 ≤ 2 ^ 64 := by decide

/-- An arena of eight bytes. -/
def oneWord : Storage 64 := ⟨4096, 8, page_pos, oneWord_fits⟩

/-- A word that fills the arena. -/
theorem level_start_inverts_word :
    (Result.one Ty.word ⟨4096, 8⟩).Inverted .debug 4096 (BumpView.getUnchecked .debug oneWord 8) ∧
      (Result.one Ty.word ⟨4096, 8⟩).Inverted .debug 4096
        (Unsync.getUnchecked .debug oneWord 8) := by
  refine ⟨?_, ?_⟩
  · have hlog : ((Arena.start (fun _ : Unit => [.get Ty.word]) 0).run oneWord [(), (), ()]).log =
        [⟨(), .get Ty.word, .granted ⟨4096, 8⟩⟩] := by rfl
    have h := (level_start_inverts .debug oneWord).1 (fun _ : Unit => [.get Ty.word]) 0
      (Nat.zero_le _) [(), (), ()] [()] ⟨(), .get Ty.word, .granted ⟨4096, 8⟩⟩
      (hlog ▸ List.mem_singleton_self _) (.one Ty.word ⟨4096, 8⟩) rfl
    exact h.1 (by decide)
  · have hresults : (Session.run .debug oneWord ⟨0, []⟩ [.get Ty.word]).results =
        [.one Ty.word ⟨4096, 8⟩] := by rfl
    exact (level_start_inverts (ι := Unit) .debug oneWord).2 0 (Nat.zero_le _) [.get Ty.word] []
      (fun c hc => absurd hc List.not_mem_nil) (.one Ty.word ⟨4096, 8⟩)
      (hresults ▸ List.mem_singleton_self _)

end Bump
end StaticAlloc
