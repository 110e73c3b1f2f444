import StaticAlloc.AllocatorApi.Shrink
import StaticAlloc.Alloca.Room
import StaticAlloc.Bump.FromMemory

/-!
# Requests for no bytes

A layout of no bytes is nothing an arena can allocate: both assert, deep in
`try_alloc_at`, that the size is positive.  Whether a request for no bytes gets that
far is decided by each entry point on its own.  The typed ones of the shared arena
look at the size first and make up a pointer to an empty array.  The typed ones of the
unsynchronized arena do not, nor do `Allocator::allocate` of either and `Alloca`, which
is built on the latter arena.

`Request` is a call of one of these, `Served` what a caller who asks for no bytes may
expect.  `detour_served` and `zero_size_panics` are the two halves of
`zero_size_served_iff`.
-/

namespace StaticAlloc

open Toolkit

variable {w : ℕ} {β : Type}

namespace Bump

/-- `BumpView::get_at`. -/
def BumpView.getAt (S : Storage w) (counter : ℕ) (V : Ty w) (level : Level) :
    Except Stop (ℕ × Except Failure Allocation) := do
  if V.size = 0 then
    let fake : Allocation := ⟨V.align, counter⟩
    if fake.level ≠ level then
      return (counter, .error (.mismatch fake.level))
    return (counter, .ok fake)
  tryAllocAt S counter V.toLayout level

/-- `LeakError`. -/
structure LeakError (α : Type) where
  val : α
  failure : Failure

/-- `Bump::leak`: where the value is on success. -/
def leak {α : Type} (S : Storage w) (counter : ℕ) (V : Ty w) (val : α) :
    Except Stop (ℕ × Except (LeakError α) (ℕ × α)) := do
  match ← BumpView.get S counter V with
  | (counter, some alloc) => return (counter, .ok (alloc.ptr, val))
  | (counter, none) => return (counter, .error ⟨val, .exhausted⟩)

variable {S : Storage w} {counter : ℕ} {V : Ty w}

theorem BumpView.get_of_size_eq_zero (h : V.size = 0) :
    get S counter V = .ok (counter, some ⟨V.align, counter⟩) := if_pos h

theorem BumpView.getAt_of_size_eq_zero (h : V.size = 0) :
    getAt S counter V counter = .ok (counter, .ok ⟨V.align, counter⟩) := by
  rw [getAt, if_pos h, if_neg (not_not_intro rfl)]
  rfl

theorem BumpView.getSlice_of_size_eq_zero {σ : Memory β} {len : ℕ} (h : V.size * len = 0) :
    getSlice S σ V len = .ok (σ, some ⟨V.align, len, σ.consumed⟩) := by
  have harr : V.size * len + V.align ≤ 2 ^ (w - 1) := by
    rw [h, Nat.zero_add]
    exact V.align_le
  rw [getSlice]
  by_cases hlen : len = 0
  · rw [if_pos hlen, hlen]
    rfl
  · rw [if_neg hlen, Layout.array_of_le harr]
    exact if_pos h

theorem leak_of_size_eq_zero {α : Type} {val : α} (h : V.size = 0) :
    leak S counter V val = .ok (counter, .ok (V.align, val)) := by
  rw [leak, BumpView.get_of_size_eq_zero h]
  rfl

end Bump

namespace AllocatorApi

open Bump (Memory)

/-- `Allocator::allocate` for `BumpView`. -/
def BumpView.allocate (S : Storage w) (σ : Memory β) (layout : Layout w) :
    Except Stop (Memory β × Except AllocError Span) := do
  let len := layout.size
  match ← Bump.BumpView.getLayout S σ layout with
  | (σ, none) => return (σ, .error .mk)
  | (σ, some allocation) => return (σ, .ok ⟨allocation.ptr, len⟩)

/-- `Allocator::allocate` for `unsync::BumpSlice`. -/
def UnsyncBumpSlice.allocate (b : Build) (S : Storage w) (σ : Memory β) (layout : Layout w) :
    Except Stop (Memory β × Except AllocError Span) := do
  let len := layout.size
  match ← Unsync.alloc b S σ.consumed layout with
  | (index, none) => return ({ σ with consumed := index }, .error .mk)
  | (index, some allocation) => return ({ σ with consumed := index }, .ok ⟨allocation, len⟩)

/-- `Allocator::allocate`: the other three arenas forward to one of the two. -/
def Arena.allocate (b : Build) (S : Storage w) (σ : Memory β) (layout : Layout w) :
    Arena → Except Stop (Memory β × Except AllocError Span)
  | .bumpView | .bump | .bumpSlice => BumpView.allocate S σ layout
  | .unsyncBumpSlice | .unsyncBump => UnsyncBumpSlice.allocate b S σ layout

theorem Arena.allocate_of_size_eq_zero {b : Build} {S : Storage w} {σ : Memory β}
    {layout : Layout w} {arena : Arena} (h : layout.size = 0) :
    arena.allocate b S σ layout = .error (.panic "layout.size() > 0") := by
  have hview : BumpView.allocate S σ layout = .error (.panic "layout.size() > 0") := by
    rw [BumpView.allocate, Bump.BumpView.getLayout, Bump.tryAlloc_of_size_eq_zero h]
    rfl
  have hunsync : UnsyncBumpSlice.allocate b S σ layout = .error (.panic "layout.size() > 0") := by
    rw [UnsyncBumpSlice.allocate, Unsync.alloc_of_size_eq_zero h]
    rfl
  cases arena
  · exact hview
  · exact hview
  · exact hview
  · exact hunsync
  · exact hunsync

/-! ## The entry points -/

/-- A call of an entry point that does not document a panic.  The calls with a level
are made at the current one. -/
inductive Request (w : ℕ) where
  | get (V : Ty w)
  | getAt (V : Ty w)
  | getSlice (V : Ty w) (len : ℕ)
  | leak (V : Ty w)
  | unsyncGet (V : Ty w)
  | unsyncGetAt (V : Ty w)
  | bumpBox (T : Ty w)
  | bumpArray (T : Ty w) (n : ℕ)
  | allocate (arena : Arena) (layout : Layout w)
  | alloca (K : Stack w) (T : Ty w) (a : Alloca T)

namespace Request

/-- The number of bytes asked for. -/
def size : Request w → ℕ
  | get V | getAt V | leak V | unsyncGet V | unsyncGetAt V | bumpBox V => V.size
  | getSlice V len => V.size * len
  | bumpArray T n => T.size * n
  | allocate _ layout => layout.size
  | alloca _ T a => T.size * a.len

/-- The alignment asked for. -/
def align : Request w → ℕ
  | get V | getAt V | leak V | unsyncGet V | unsyncGetAt V | bumpBox V => V.align
  | getSlice V _ => V.align
  | bumpArray T _ => T.align
  | allocate _ layout => layout.align
  | alloca _ T _ => T.align

/-- The length asked for: one element of a typed entry point, the elements of a
slice, the bytes of a layout. -/
def count : Request w → ℕ
  | get _ | getAt _ | leak _ | unsyncGet _ | unsyncGetAt _ | bumpBox _ => 1
  | getSlice _ len => len
  | bumpArray _ n => n
  | allocate _ layout => layout.size
  | alloca _ _ a => a.len

/-- `Allocator::allocate` may answer with an error. -/
def MayFail : Request w → Prop
  | allocate _ _ => True
  | _ => False

/-- The call on an arena, or on the stack: the level afterwards and, if the call
succeeded, the pointer with its length. -/
def serve (b : Build) (S : Storage w) (σ : Memory β) :
    Request w → Except Stop (ℕ × Option RawSlice)
  | get V => do
    let (level, r) ← Bump.BumpView.get S σ.consumed V
    return (level, r.map fun a => ⟨a.ptr, 1⟩)
  | getAt V => do
    let (level, r) ← Bump.BumpView.getAt S σ.consumed V σ.consumed
    return (level, r.toOption.map fun a => ⟨a.ptr, 1⟩)
  | getSlice V len => do
    let (σ, r) ← Bump.BumpView.getSlice S σ V len
    return (σ.consumed, r.map fun a => ⟨a.ptr, a.len⟩)
  | leak V => do
    let (level, r) ← Bump.leak S σ.consumed V ()
    return (level, r.toOption.map fun place => ⟨place.1, 1⟩)
  | unsyncGet V => do
    let (level, r) ← Unsync.get b S σ.consumed V
    return (level, r.map fun a => ⟨a.ptr, 1⟩)
  | unsyncGetAt V => do
    let (level, r) ← Unsync.getAt b S σ.consumed V σ.consumed
    return (level, r.toOption.map fun a => ⟨a.ptr, 1⟩)
  | bumpBox T => do
    let (level, r) ← Unsync.bumpBox b S σ.consumed T
    return (level, r.toOption.map fun ptr => ⟨ptr, 1⟩)
  | bumpArray T n => do
    let (level, r) ← Unsync.bumpArray b S σ.consumed T n
    return (level, r.toOption)
  | allocate arena layout => do
    let (σ, r) ← arena.allocate b S σ layout
    return (σ.consumed, r.toOption.map fun block => ⟨block.start, block.size⟩)
  | alloca K _ a => do
    let slice ← a.run b K id
    return (σ.consumed, some slice)

/-- The call returned and left the level alone; it returned a pointer of the length and
alignment asked for, or failed if it may. -/
def Served (r : Request w) (level : ℕ) (answer : Except Stop (ℕ × Option RawSlice)) : Prop :=
  ∃ reply, answer = .ok (level, reply) ∧ (reply = none → r.MayFail) ∧
    ∀ slice, reply = some slice → slice.len = r.count ∧ 0 < slice.ptr ∧ r.align ∣ slice.ptr

/-- The entry points that look at the size before they allocate. -/
def Detours : Request w → Prop
  | get _ | getAt _ | getSlice _ _ | leak _ => True
  | _ => False

/-! ## With a detour -/

variable {b : Build} {S : Storage w} {σ : Memory β} {r : Request w}

/-- A reply at the level there was, with a pointer to an empty array. -/
theorem served_align {len : ℕ} (hlen : len = r.count) (hr : 0 < r.align) :
    r.Served σ.consumed (.ok (σ.consumed, some ⟨r.align, len⟩)) := by
  refine ⟨some ⟨r.align, len⟩, rfl, fun h => absurd h (by simp), ?_⟩
  rintro slice h
  obtain rfl := Option.some.inj h
  exact ⟨hlen, hr, Nat.dvd_refl _⟩

theorem detour_served (hr : r.size = 0) (h : r.Detours) :
    r.Served σ.consumed (r.serve b S σ) := by
  cases r with
  | get V =>
    rw [serve, Bump.BumpView.get_of_size_eq_zero hr]
    exact served_align (r := .get V) rfl V.align_pos
  | getAt V =>
    rw [serve, Bump.BumpView.getAt_of_size_eq_zero hr]
    exact served_align (r := .getAt V) rfl V.align_pos
  | getSlice V len =>
    rw [serve, Bump.BumpView.getSlice_of_size_eq_zero hr]
    exact served_align (r := .getSlice V len) rfl V.align_pos
  | leak V =>
    rw [serve, Bump.leak_of_size_eq_zero hr]
    exact served_align (r := .leak V) rfl V.align_pos
  | unsyncGet | unsyncGetAt | bumpBox | bumpArray | allocate | alloca => exact h.elim

/-! ## Without one -/

theorem zero_size_panics (hr : r.size = 0) (h : ¬ r.Detours) :
    ∃ msg, r.serve b S σ = .error (.panic msg) := by
  cases r with
  | get | getAt | getSlice | leak => exact absurd trivial h
  | unsyncGet V =>
    refine ⟨"layout.size() > 0", ?_⟩
    rw [serve, Unsync.get_of_size_eq_zero hr]
    rfl
  | unsyncGetAt V =>
    refine ⟨"layout.size() > 0", ?_⟩
    rw [serve, Unsync.getAt, Unsync.tryAllocAt_of_size_eq_zero hr]
    rfl
  | bumpBox T =>
    refine ⟨"layout.size() > 0", ?_⟩
    rw [serve, Unsync.bumpBox_of_size_eq_zero hr]
    rfl
  | bumpArray T n =>
    refine ⟨"layout.size() > 0", ?_⟩
    rw [serve, Unsync.bumpArray_of_size_eq_zero hr]
    rfl
  | allocate arena layout =>
    refine ⟨"layout.size() > 0", ?_⟩
    rw [serve, Arena.allocate_of_size_eq_zero hr]
    rfl
  | alloca K T a =>
    obtain ⟨msg, hrun⟩ : ∃ msg, a.run b K id = .error (.panic msg) :=
      Alloca.run_of_size_eq_zero hr
    refine ⟨msg, ?_⟩
    rw [serve, hrun]
    rfl

/-- **Which requests for no bytes are served.**  In every state of the arena and for
every alignment and number of elements: exactly those of the entry points of the shared
arena that look at the size.  All others panic, wherever they are called. -/
theorem zero_size_served_iff (b : Build) (S : Storage w) (σ : Memory β) (r : Request w)
    (hr : r.size = 0) : r.Served σ.consumed (r.serve b S σ) ↔ r.Detours := by
  constructor
  · rintro ⟨reply, hok, -⟩
    by_contra h
    obtain ⟨msg, hpanic⟩ := zero_size_panics (b := b) (S := S) (σ := σ) hr h
    exact absurd (hpanic.symm.trans hok) (by simp)
  · exact detour_served hr

/-- A request that is served, and one that is not. -/
theorem zero_size_served_iff_units :
    Served (.getSlice (Ty.unit 64) 3) 0
        (serve .debug ⟨4096, 0, page_pos, by decide⟩ ⟨0, fun _ => 0⟩ (.getSlice (Ty.unit 64) 3)) ∧
      ¬ Served (.bumpBox (Ty.unit 64)) 0
        (serve .debug ⟨4096, 0, page_pos, by decide⟩ ⟨0, fun _ => 0⟩ (.bumpBox (Ty.unit 64))) :=
  ⟨(zero_size_served_iff .debug _ ⟨0, fun _ => 0⟩ (.getSlice (Ty.unit 64) 3) rfl).mpr trivial,
    fun h => (zero_size_served_iff .debug _ ⟨0, fun _ => 0⟩ (.bumpBox (Ty.unit 64)) rfl).mp h⟩

/-- An array of no words, in an arena that has room for eight. -/
theorem empty_array_not_served :
    ¬ ∀ (b : Build) (S : Storage 64) (σ : Memory ℕ) (r : Request 64), σ.consumed ≤ S.len →
      r.size = 0 → r.Served σ.consumed (r.serve b S σ) := by
  intro h
  obtain ⟨reply, hok, -⟩ := h .release ⟨4096, 64, page_pos, by decide⟩ ⟨0, fun _ => 0⟩
    (.bumpArray Ty.word 0) (by decide) rfl
  rw [serve, Unsync.bumpArray_of_size_eq_zero rfl] at hok
  exact absurd hok (by simp)

end Request

end AllocatorApi
end StaticAlloc
