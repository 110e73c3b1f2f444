import StaticAlloc.Library.Cells
import StaticAlloc.Library.Runs
import StaticAlloc.Library.Sources
import StaticAlloc.Uninit.View
import Mathlib.Data.Finset.Erase
import Mathlib.Data.Finset.Insert
import Mathlib.Data.Multiset.AddSub

/-!
# `FixedVec`

A `FixedVec` is a slice view and a length.  It has no allocation of its own: each
operation cuts the view at the length, takes an element from one of the two
halves, and adjusts the length.  The view is not cut for good by this, since the
operations work on a copy of it; `split_and_shrink_to` and `shrink_to_fit` are the
two that give memory away.

Elements are stored in a memory of cells of the size of the element type.
Reading a cell that holds no element is undefined, and dropping an element reads
its cell, so no operation can drop or return what was never stored.  Reading
leaves the cell as it is; that an element is not read twice is a matter of
ownership, and is recorded in `Shelf` by who got hold of what.

Several vectors may share a memory: `split_borrowed` makes a vector that borrows
the receiver, and `split_and_shrink_to` one that is independent of it.  `Shelf` is
the state of all of them, and a vector that is lent out can only be used again
when none of those that borrow it is left.

The counts in these definitions do not overflow: a length never exceeds the
capacity, which never exceeds `usize::MAX`.
-/

namespace StaticAlloc

open Toolkit

variable {w : ℕ} {α : Type}

/-- An element type: its layout, and that values without bytes are all alike. -/
structure Element (w : ℕ) (α : Type) where
  ty : Ty w
  single : ty.size = 0 → Subsingleton α

/-- `FixedVec`. -/
structure FixedVec (T : Ty w) where
  uninit : UninitSlice T
  length : ℕ

namespace FixedVec

variable {T : Ty w}

/-- `ptr::read`, and what `ptr::drop_in_place` does before it drops. -/
def readCell (m : Cells α) (p : ℕ) : Except Stop α :=
  match m p with
  | some a => .ok a
  | none => .error (.undefined "the element is not initialized")

/-- `FixedVec::new`. -/
def new (uninit : UninitSlice T) : FixedVec T := ⟨uninit, 0⟩

/-- `FixedVec::capacity`. -/
def capacity (v : FixedVec T) : ℕ := v.uninit.capacity

/-- `FixedVec::head_tail_mut`. -/
def headTailMut (v : FixedVec T) : Except Stop (UninitSlice T × UninitSlice T) := do
  unwrap (← v.uninit.splitAt v.length)

/-- `FixedVec::end_mut_ptr`. -/
def endMutPtr (v : FixedVec T) : ℕ := v.uninit.ptr + v.length * T.size

/-- `FixedVec::push`. -/
def push (m : Cells α) (v : FixedVec T) (val : α) :
    Except Stop (Cells α × FixedVec T × Except α Unit) :=
  if v.length = usizeMax w then .ok (m, v, .error val) else do
    let (_, tail) ← v.headTailMut
    match ← tail.splitFirst with
    | none => .ok (m, v, .error val)
    | some (_, init) =>
      .ok (m.write T.size init.ptr val, { v with length := v.length + 1 }, .ok ())

/-- `FixedVec::pop`. -/
def pop (m : Cells α) (v : FixedVec T) : Except Stop (FixedVec T × Option α) :=
  if v.length = 0 then .ok (v, none) else do
    let (head, _) ← v.headTailMut
    let (_, last) ← unwrap (← head.splitLast)
    let val ← readCell m last.ptr
    .ok ({ v with length := v.length - 1 }, some val)

/-- The loop of `truncate`, `n` times: the local length, the dropped elements in
order, and whether the last of them panicked. -/
def truncateLoop (T : Ty w) (m : Cells α) (panics : α → Bool) :
    ℕ → ℕ → ℕ → Except Stop (ℕ × List α × Bool)
  | 0, localLen, _ => .ok (localLen, [], false)
  | n + 1, localLen, ptr => do
    let a ← readCell m (ptr - T.size)
    if panics a then .ok (localLen - 1, [a], true) else do
      let (localLen, dropped, panicked) ←
        truncateLoop T m panics n (localLen - 1) (ptr - T.size)
      .ok (localLen, a :: dropped, panicked)

/-- `FixedVec::truncate`.  The guard writes the local length back, also when a
destructor panics. -/
def truncate (m : Cells α) (panics : α → Bool) (v : FixedVec T) (len : ℕ) :
    Except Stop (FixedVec T × List α × Bool) := do
  let (localLen, dropped, panicked) ←
    truncateLoop T m panics (v.length - len) v.length v.endMutPtr
  .ok ({ v with length := localLen }, dropped, panicked)

/-- `FixedVec::clear`. -/
def clear (m : Cells α) (panics : α → Bool) (v : FixedVec T) :
    Except Stop (FixedVec T × List α × Bool) :=
  v.truncate m panics 0

/-- `FixedVec::split_borrowed`: the receiver, and the vector that borrows it. -/
def splitBorrowed (v : FixedVec T) (at' : ℕ) : Except Stop (FixedVec T × FixedVec T) := do
  assert (at' ≤ v.capacity) "`at` out of bounds"
  -- it is a copy of the view that is split
  let (_, newUninit) ← unwrap (← v.uninit.splitAt at')
  let newLen := saturatingSub v.length at'
  .ok ({ v with length := v.length - newLen }, ⟨newUninit, newLen⟩)

/-- `FixedVec::split_and_shrink_to`: the receiver, and the other part. -/
def splitAndShrinkTo (v : FixedVec T) (at' : ℕ) : Except Stop (FixedVec T × FixedVec T) := do
  assert (at' ≤ v.capacity) "`at` out of bounds"
  let (uninit, newUninit) ← unwrap (← v.uninit.splitAt at')
  let newLen := saturatingSub v.length at'
  .ok (⟨uninit, v.length - newLen⟩, ⟨newUninit, newLen⟩)

/-- The loop of `fill`, with at most `n` items still to take. -/
def fillLoop : ℕ → Cells α → FixedVec T → Source α → Cells α × FixedVec T × Source α × List α
  | 0, m, v, iter => (m, v, iter, [])
  | n + 1, m, v, iter =>
    match iter.next with
    | (none, iter) => (m, v, iter, [])
    | (some item, iter) =>
      let (m, v, iter, items) :=
        fillLoop n (m.write T.size v.endMutPtr item) { v with length := v.length + 1 } iter
      (m, v, iter, item :: items)

/-- `FixedVec::fill`: besides the memory and the receiver, the rest of the
iterator and the items that were taken. -/
def fill (m : Cells α) (v : FixedVec T) (iter : Source α) :
    Cells α × FixedVec T × Source α × List α :=
  fillLoop (v.capacity - v.length) m v iter

/-- `Extend::extend`.  An item that does not fit makes it panic, and is dropped. -/
def extend (m : Cells α) (v : FixedVec T) (iter : Source α) :
    Cells α × FixedVec T × List α × Option α :=
  let (m, v, iter, items) := v.fill m iter
  (m, v, items, iter.next.1)

/-- `FixedVec::shrink_to_fit`: the receiver, and the trailing bytes. -/
def shrinkToFit (v : FixedVec T) : Except Stop (FixedVec T × UninitView (Ty.unit w)) := do
  let (uninit, rest) ← v.uninit.shrinkToFit
  .ok ({ v with uninit := uninit }, rest)

/-- The elements of a slice are dropped from the first to the last. -/
def dropSlice (T : Ty w) (m : Cells α) (ptr : ℕ) : ℕ → Except Stop (List α)
  | 0 => .ok []
  | n + 1 => do
    let a ← readCell m ptr
    let rest ← dropSlice T m (ptr + T.size) n
    .ok (a :: rest)

/-- `Drop for FixedVec`, with destructors that do not panic: what was dropped. -/
def drop (m : Cells α) (v : FixedVec T) : Except Stop (List α) :=
  dropSlice T m v.uninit.ptr v.length

end FixedVec

/-! ## Many vectors -/

namespace FixedVec

/-- The vectors over one memory, by name, and where the elements went. -/
structure Shelf (T : Ty w) (I α : Type) where
  mem : Cells α
  live : Finset I
  vec : I → FixedVec T
  /-- whom a vector borrows from, directly or not -/
  lenders : I → Finset I
  /-- the trailing bytes given back by `shrink_to_fit` -/
  trailing : List (UninitView (Ty.unit w))
  entered : Multiset α
  returned : Multiset α
  dropped : Multiset α

/-- The operations; a new vector is given its name. -/
inductive Op (I α : Type) where
  | push (i : I) (val : α)
  | pop (i : I)
  | truncate (i : I) (len : ℕ)
  | clear (i : I)
  | fill (i : I) (iter : Source α)
  | extend (i : I) (iter : Source α)
  | splitBorrowed (i : I) (k : ℕ) (new : I)
  | splitAndShrinkTo (i : I) (k : ℕ) (new : I)
  | shrinkToFit (i : I)
  | drop (i : I)

/-- What an operation returns. -/
inductive Reply (α : Type) where
  | done
  /-- `Err(val)` -/
  | refused (val : α)
  | popped (val : Option α)
  /-- the rest of the iterator -/
  | rest (iter : Source α)
  /-- a panic, or worse -/
  | stopped (s : Stop)

/-- The vector an operation is called on. -/
def Op.target {I : Type} : Op I α → I
  | push i _ | pop i | truncate i _ | clear i | fill i _ | extend i _ | splitBorrowed i _ _
  | splitAndShrinkTo i _ _ | shrinkToFit i | drop i => i

/-- The vector an operation makes. -/
def Op.makes {I : Type} : Op I α → Option I
  | splitBorrowed _ _ new | splitAndShrinkTo _ _ new => some new
  | _ => none

namespace Shelf

variable {I : Type} [DecidableEq I] {T : Ty w}

/-- One vector is replaced. -/
def setVec (σ : Shelf T I α) (i : I) (v : FixedVec T) : Shelf T I α :=
  { σ with vec := Function.update σ.vec i v }

/-- One vector is replaced and another one added, with the given lenders. -/
def addVec (σ : Shelf T I α) (i : I) (v : FixedVec T) (new : I) (part : FixedVec T)
    (lenders : Finset I) : Shelf T I α :=
  { σ with
    live := insert new σ.live
    vec := Function.update (Function.update σ.vec i v) new part
    lenders := Function.update σ.lenders new lenders }

/-- The elements that were dropped are recorded. -/
def logDropped (σ : Shelf T I α) (l : List α) : Shelf T I α :=
  { σ with dropped := σ.dropped + l }

/-- An operation on one of the vectors; no destructor panics. -/
def exec (σ : Shelf T I α) : Op I α → Shelf T I α × Reply α
  | .push i val =>
    match (σ.vec i).push σ.mem val with
    | .error s => (σ, .stopped s)
    | .ok (m, v, .ok ()) =>
      ({ σ with mem := m, entered := val ::ₘ σ.entered }.setVec i v, .done)
    | .ok (m, v, .error val) => ({ σ with mem := m }.setVec i v, .refused val)
  | .pop i =>
    match (σ.vec i).pop σ.mem with
    | .error s => (σ, .stopped s)
    | .ok (v, none) => (σ.setVec i v, .popped none)
    | .ok (v, some val) =>
      ({ σ with returned := val ::ₘ σ.returned }.setVec i v, .popped (some val))
  | .truncate i len =>
    match (σ.vec i).truncate σ.mem (fun _ => false) len with
    | .error s => (σ, .stopped s)
    | .ok (v, dropped, _) => ((σ.setVec i v).logDropped dropped, .done)
  | .clear i =>
    match (σ.vec i).clear σ.mem (fun _ => false) with
    | .error s => (σ, .stopped s)
    | .ok (v, dropped, _) => ((σ.setVec i v).logDropped dropped, .done)
  | .fill i iter =>
    let (m, v, rest, items) := (σ.vec i).fill σ.mem iter
    ({ σ with mem := m, entered := σ.entered + items }.setVec i v, .rest rest)
  | .extend i iter =>
    match (σ.vec i).extend σ.mem iter with
    | (m, v, items, none) =>
      ({ σ with mem := m, entered := σ.entered + items }.setVec i v, .done)
    | (m, v, items, some spill) =>
      (({ σ with mem := m, entered := spill ::ₘ (σ.entered + items) }.setVec i v).logDropped
        [spill], .stopped (.panic "FixedVec memory exhausted"))
  | .splitBorrowed i k new =>
    match (σ.vec i).splitBorrowed k with
    | .error s => (σ, .stopped s)
    | .ok (v, part) => (σ.addVec i v new part (insert i (σ.lenders i)), .done)
  | .splitAndShrinkTo i k new =>
    match (σ.vec i).splitAndShrinkTo k with
    | .error s => (σ, .stopped s)
    | .ok (v, part) => (σ.addVec i v new part (σ.lenders i), .done)
  | .shrinkToFit i =>
    match (σ.vec i).shrinkToFit with
    | .error s => (σ, .stopped s)
    | .ok (v, rest) => ({ σ with trailing := rest :: σ.trailing }.setVec i v, .done)
  | .drop i =>
    match (σ.vec i).drop σ.mem with
    | .error s => (σ, .stopped s)
    | .ok dropped => ({ σ with live := σ.live.erase i }.logDropped dropped, .done)

/-- An operation is called on a vector that nobody borrows, and a new vector has a
new name. -/
def Enabled (σ : Shelf T I α) (op : Op I α) : Prop :=
  op.target ∈ σ.live ∧ (∀ j ∈ σ.live, op.target ∉ σ.lenders j) ∧
    ∀ new, op.makes = some new → new ∉ σ.live

/-- All vectors that come from one backing slice view, in a memory with any
contents.  A step is labelled by the operation and by what it returned. -/
def machine (T : Ty w) (I α : Type) [DecidableEq I] :
    Machine (Shelf T I α) (Op I α × Reply α) where
  init σ := ∃ mem uninit i, σ =
    { mem := mem, live := {i}, vec := fun _ => FixedVec.new uninit, lenders := fun _ => ∅,
      trailing := [], entered := 0, returned := 0, dropped := 0 }
  step σ l σ' := σ.Enabled l.1 ∧ σ.exec l.1 = (σ', l.2)

end Shelf

end FixedVec

end StaticAlloc
