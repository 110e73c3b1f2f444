import StaticAlloc.Library.Ledgers
import StaticAlloc.Library.Runs
import StaticAlloc.FixedVec.Panics

/-!
# `VecBuffer`

A `VecBuffer<T>` keeps the allocation of a vector between uses.  `use_for` takes the
vector out of it, makes a vector of another type with the same layout of the
allocation, and lends that out as a `TempVec`.  When the `TempVec` is dropped its
vector is cleared, made a vector of the first type again and put back.  Both ways
the elements are forgotten, not dropped, and the types of the old elements are
forgotten with them.

Two things can go wrong with this, and both are undefined behaviour in the model.
A destructor may be run on memory that holds no value, or one of another type: a
pointer comes with the values in the memory behind it, also those that were moved
out or dropped already (`Pointer.memory`), and `dropInPlace` reads them.  And a block
may be given back twice or with another layout than it was requested with: the heap
keeps both ledgers, and `Heap.dealloc` asks them.

A destructor may panic.  The elements after it are dropped all the same, and so are
the local vectors of the functions that the panic leaves; a second panic meanwhile
aborts the process.

The program around the buffer is any safe one.  `Step` is what it can do to the
vectors, buffers and views it owns, and a vector operation is any exchange of elements
(`Exchange`) and any reallocation.
-/

namespace StaticAlloc
namespace SameAlloc

open Toolkit
open FixedVec (Ending)

variable {w : ℕ}

/-- A type: its layout, and what tells it from the other types with this layout. -/
structure Kind (w : ℕ) extends Ty w where
  name : ℕ
  deriving DecidableEq

/-- A value, which is told from all the others by a number. -/
structure Value (w : ℕ) where
  ty : Kind w
  id : ℕ
  deriving DecidableEq

/-- An allocation, with the layout that was requested. -/
structure Block where
  id : ℕ
  size : ℕ
  align : ℕ
  deriving DecidableEq, Repr

/-- The global allocator: the blocks ever allocated, and those freed. -/
structure Heap where
  allocated : Multiset Block
  freed : Multiset Block

/-- `alloc`, which numbers the blocks. -/
def Heap.alloc (heap : Heap) (size align : ℕ) : Heap × ℕ :=
  let id := heap.allocated.card
  ({ heap with allocated := ⟨id, size, align⟩ ::ₘ heap.allocated }, id)

/-- `dealloc`, with the layout that the owner believes the block to have. -/
def Heap.dealloc (heap : Heap) (b : Block) : Except Stop Heap :=
  if b ∈ heap.allocated ∧ b ∉ heap.freed then .ok { heap with freed := b ::ₘ heap.freed }
  else .error (.undefined "no block with this layout is allocated there")

/-- A pointer to elements: the number of the block, and the values behind it.  Of
elements without bytes there is no block, but there are values. -/
structure Pointer (w : ℕ) where
  block : ℕ
  memory : List (Value w)

/-- `Vec<T>`. -/
structure Vec (T : Kind w) where
  ptr : Pointer w
  /-- the capacity as it is stored, which is zero for elements without bytes -/
  cap : ℕ
  len : ℕ

/-! ## Vectors -/

/-- `drop_in_place` of `n` elements: whose destructors were started, and how it ended.
A panic does not keep the other elements from being dropped; a second one, or one in
a thread that is unwinding already, aborts. -/
def dropInPlace (panics : Value w → Bool) (T : Kind w) :
    Bool → List (Value w) → ℕ → Except Stop (List (Value w) × Ending)
  | _, _, 0 => .ok ([], .returned)
  | _, [], _ + 1 => .error (.undefined "the element is not initialized")
  | unwinding, a :: memory, n + 1 =>
    if a.ty ≠ T then .error (.undefined "the element is a value of another type")
    else if panics a then
      if unwinding then .ok ([a], .aborted) else do
        let (rest, ending) ← dropInPlace panics T true memory n
        .ok (a :: rest, if ending = .aborted then .aborted else .unwinding)
    else do
      let (rest, ending) ← dropInPlace panics T unwinding memory n
      .ok (a :: rest, ending)

namespace Vec

variable {T : Kind w}

/-- `Vec::new`: nothing is allocated. -/
def new (T : Kind w) : Vec T := ⟨⟨0, []⟩, 0, 0⟩

/-- `Vec::capacity`. -/
def capacity (v : Vec T) : ℕ := if T.size = 0 then usizeMax w else v.cap

/-- The elements. -/
def contents (v : Vec T) : List (Value w) := v.ptr.memory.take v.len

/-- `Vec::from_raw_parts`. -/
def fromRawParts (ptr : Pointer w) (len cap : ℕ) : Vec T :=
  ⟨ptr, if T.size = 0 then 0 else cap, len⟩

/-- `RawVec::current_memory`: the block, with the layout it is freed with. -/
def currentMemory (v : Vec T) : Option Block :=
  if T.size = 0 ∨ v.cap = 0 then none else some ⟨v.ptr.block, T.size * v.cap, T.align⟩

/-- The block a vector owns, if it does. -/
def blocks (v : Vec T) : Multiset Block := v.currentMemory.toList

/-- `Vec::with_capacity`. -/
def withCapacity (heap : Heap) (T : Kind w) (cap : ℕ) : Except Stop (Heap × Vec T) :=
  if T.size = 0 then .ok (heap, new T)
  else
    match Layout.array T.toTy cap with
    | none => .error (.panic "capacity overflow")
    | some layout =>
      if cap = 0 then .ok (heap, new T)
      else
        let (heap, id) := heap.alloc layout.size layout.align
        .ok (heap, ⟨⟨id, []⟩, cap, 0⟩)

/-- `Drop for RawVec`. -/
def freeMemory (heap : Heap) (v : Vec T) : Except Stop Heap :=
  match v.currentMemory with
  | none => .ok heap
  | some b => heap.dealloc b

/-- A reallocation; `realloc` keeps as many bytes as both blocks have. -/
def reallocate (heap : Heap) (v : Vec T) (cap : ℕ) : Except Stop (Heap × Vec T) :=
  if T.size = 0 then .ok (heap, v)
  else
    match Layout.array T.toTy cap with
    | none => .error (.panic "capacity overflow")
    | some layout => do
      let memory := v.ptr.memory.take cap
      let heap ← v.freeMemory heap
      if cap = 0 then .ok (heap, { v with ptr := ⟨0, memory⟩, cap := 0 })
      else
        let (heap, id) := heap.alloc layout.size layout.align
        .ok (heap, { v with ptr := ⟨id, memory⟩, cap := cap })

/-- `Vec::clear`, which sets the length before it drops the elements. -/
def clear (panics : Value w → Bool) (unwinding : Bool) (v : Vec T) :
    Except Stop (Vec T × List (Value w) × Ending) := do
  let (dropped, ending) ← dropInPlace panics T unwinding v.ptr.memory v.len
  .ok ({ v with len := 0 }, dropped, ending)

/-- Dropping a vector: the elements, and the block also if one of them panics. -/
def drop (panics : Value w → Bool) (unwinding : Bool) (heap : Heap) (v : Vec T) :
    Except Stop (Heap × List (Value w) × Ending) := do
  let (dropped, ending) ← dropInPlace panics T unwinding v.ptr.memory v.len
  match ending with
  | .aborted => .ok (heap, dropped, .aborted)
  | ending => .ok (← v.freeMemory heap, dropped, ending)

/-- What a panic, on its way out of a function, does to a local vector. -/
def unwind (panics : Value w → Bool) (heap : Heap) (v : Vec T) :
    Ending → Except Stop (Heap × List (Value w) × Ending)
  | .unwinding => do
    let (heap, dropped, ending) ← v.drop panics true heap
    .ok (heap, dropped, if ending = .aborted then .aborted else .unwinding)
  | ending => .ok (heap, [], ending)

end Vec

/-! ## The buffer and its views -/

/-- `SameLayout`. -/
structure SameLayout (A B : Kind w) : Prop where
  size : A.size = B.size
  align : A.align = B.align

/-- `SameLayout::transpose`. -/
theorem SameLayout.transpose {A B : Kind w} (marker : SameLayout A B) : SameLayout B A :=
  ⟨marker.size.symm, marker.align.symm⟩

/-- `SameLayout::forget_vec`.  The vector is in a `ManuallyDrop`, and not dropped. -/
def SameLayout.forgetVec {A B : Kind w} (_ : SameLayout A B) (vec : Vec A) : Vec B :=
  let cap := vec.capacity
  let ptr := vec.ptr
  Vec.fromRawParts ptr 0 cap

/-- `VecBuffer`. -/
structure VecBuffer (T : Kind w) where
  elementBuffer : Vec T

/-- `TempVec<U>`, with the vector of the buffer that it borrows; the type `T` of that one
is erased by the source. -/
structure TempVec (T U : Kind w) where
  elements : Vec T
  marker : SameLayout T U
  vec : Vec U

namespace VecBuffer

variable {T U : Kind w}

/-- `VecBuffer::new`, and `Default`. -/
def new (T : Kind w) : VecBuffer T := ⟨Vec.new T⟩

/-- `VecBuffer::with_capacity`. -/
def withCapacity (heap : Heap) (T : Kind w) (cap : ℕ) : Except Stop (Heap × VecBuffer T) := do
  let (heap, elementBuffer) ← Vec.withCapacity heap T cap
  .ok (heap, ⟨elementBuffer⟩)

/-- `From<Vec<T>>`.  If a destructor panics there is no buffer. -/
def fromVec (panics : Value w → Bool) (unwinding : Bool) (heap : Heap) (v : Vec T) :
    Except Stop (Heap × Option (VecBuffer T) × List (Value w) × Ending) := do
  let (elementBuffer, dropped, ending) ← v.clear panics unwinding
  match ending with
  | .returned => .ok (heap, some ⟨elementBuffer⟩, dropped, .returned)
  | ending => do
    let (heap, more, ending) ← elementBuffer.unwind panics heap ending
    .ok (heap, none, dropped ++ more, ending)

/-- `VecBuffer::use_for`. -/
def useFor (b : VecBuffer T) (marker : SameLayout T U) : TempVec T U :=
  -- `take` leaves an empty vector
  let elements := b.elementBuffer
  let vec := marker.forgetVec elements
  ⟨Vec.new T, marker, vec⟩

/-- Dropping a buffer. -/
def drop (panics : Value w → Bool) (unwinding : Bool) (heap : Heap) (b : VecBuffer T) :
    Except Stop (Heap × List (Value w) × Ending) :=
  b.elementBuffer.drop panics unwinding heap

end VecBuffer

/-- `Wrap::swap_internal_with`: besides the heap, the vector of the buffer, that of
the view, and the elements that were dropped. -/
def swapInternalWith {T U : Kind w} (panics : Value w → Bool) (unwinding : Bool) (heap : Heap)
    (elements : Vec T) (marker : SameLayout T U) (v : Vec U) :
    Except Stop (Heap × Vec T × Vec U × List (Value w) × Ending) := do
  -- `take` leaves an empty vector
  let taken := Vec.new U
  let (temp, dropped, ending) ← v.clear panics unwinding
  match ending with
  | .returned => do
    let temp := marker.transpose.forgetVec temp
    let (elements, temp) := (temp, elements)
    let (temp, dropped', ending) ← temp.clear panics unwinding
    match ending with
    | .returned => do
      -- the assignment drops what was there
      let (heap, more, ending) ← taken.drop panics unwinding heap
      .ok (heap, elements, marker.forgetVec temp, dropped ++ dropped' ++ more, ending)
    | ending => do
      let (heap, more, ending) ← temp.unwind panics heap ending
      .ok (heap, elements, taken, dropped ++ dropped' ++ more, ending)
  | ending => do
    let (heap, more, ending) ← temp.unwind panics heap ending
    .ok (heap, elements, taken, dropped ++ more, ending)

/-- `Drop for TempVec`, and then the drop of its vector, also after a panic: the buffer
as it is given back. -/
def TempVec.drop {T U : Kind w} (panics : Value w → Bool) (unwinding : Bool) (heap : Heap)
    (t : TempVec T U) : Except Stop (Heap × VecBuffer T × List (Value w) × Ending) := do
  let (heap, elements, vec, dropped, ending) ←
    swapInternalWith panics unwinding heap t.elements t.marker t.vec
  match ending with
  | .aborted => .ok (heap, ⟨elements⟩, dropped, .aborted)
  | .returned => do
    let (heap, more, ending) ← vec.drop panics unwinding heap
    .ok (heap, ⟨elements⟩, dropped ++ more, ending)
  | .unwinding => do
    let (heap, more, ending) ← vec.unwind panics heap .unwinding
    .ok (heap, ⟨elements⟩, dropped ++ more, ending)

/-! ## The program -/

namespace Vec

variable {T : Kind w}

/-- The first elements are there and of the type of the vector, and there is capacity
for them. -/
structure Valid (v : Vec T) : Prop where
  initialized : v.len ≤ v.ptr.memory.length
  typed : ∀ a ∈ v.contents, a.ty = T
  bounded : v.len ≤ v.capacity

/-- What a vector operation within the capacity can do: some elements are put in,
some are taken out, and the others may be moved.  `held` is what the caller has. -/
structure Exchange (v v' : Vec T) (held held' : Multiset (Value w)) : Prop where
  block : v'.ptr.block = v.ptr.block
  cap : v'.cap = v.cap
  valid : v'.Valid
  moved : (v'.contents : Multiset (Value w)) + held' = v.contents + held

end Vec

/-- What a program owns, of all types. -/
inductive Thing (w : ℕ) where
  | vec {T : Kind w} (v : Vec T)
  | buffer {T : Kind w} (b : VecBuffer T)
  | view {T U : Kind w} (t : TempVec T U)

namespace Thing

/-- The elements in it. -/
def contents : Thing w → Multiset (Value w)
  | vec v => v.contents
  | buffer b => b.elementBuffer.contents
  | view t => (t.elements.contents : Multiset (Value w)) + t.vec.contents

/-- The blocks it owns. -/
def blocks : Thing w → Multiset Block
  | vec v => v.blocks
  | buffer b => b.elementBuffer.blocks
  | view t => t.elements.blocks + t.vec.blocks

end Thing

/-- The places of a vector that the program can use: its own ones, and those in a
view. -/
inductive Place {U : Kind w} : (Vec U → Thing w) → Prop where
  | own : Place Thing.vec
  | view {T : Kind w} (elements : Vec T) (marker : SameLayout T U) :
      Place fun vec => Thing.view ⟨elements, marker, vec⟩

/-- The heap, what the program owns, and what became of the values it made: it holds
them, they are elements of what it owns, or they are dropped. -/
structure State (w : ℕ) where
  heap : Heap
  things : Multiset (Thing w)
  made : Multiset (Value w)
  held : Multiset (Value w)
  dropped : Multiset (Value w)

/-- What a program can do. -/
inductive Event where
  | make
  | discard
  | newVec
  | operate
  | reallocate
  | swap
  | dropVec
  | new
  | withCapacity
  | fromVec
  | useFor
  | dropView
  | dropBuffer

/-- One step of a program, with destructors that may panic.  None is taken that aborts
the process. -/
inductive Step (panics : Value w → Bool) : State w → Event → State w → Prop where
  | make {heap things made held dropped} (a : Value w) (fresh : a ∉ made) :
      Step panics ⟨heap, things, made, held, dropped⟩ .make
        ⟨heap, things, a ::ₘ made, a ::ₘ held, dropped⟩
  | discard {heap things made held dropped} (a : Value w) :
      Step panics ⟨heap, things, made, a ::ₘ held, dropped⟩ .discard
        ⟨heap, things, made, held, a ::ₘ dropped⟩
  | newVec {heap things made held dropped} (T : Kind w) :
      Step panics ⟨heap, things, made, held, dropped⟩ .newVec
        ⟨heap, .vec (Vec.new T) ::ₘ things, made, held, dropped⟩
  | operate {heap things made held dropped} {U : Kind w} {put : Vec U → Thing w} {v v' : Vec U}
      {held' : Multiset (Value w)} (place : Place put) (exchange : v.Exchange v' held held') :
      Step panics ⟨heap, put v ::ₘ things, made, held, dropped⟩ .operate
        ⟨heap, put v' ::ₘ things, made, held', dropped⟩
  | reallocate {heap things made held dropped} {U : Kind w} {put : Vec U → Thing w}
      {v v' : Vec U} {cap : ℕ} {heap' : Heap} (place : Place put) (room : v.len ≤ cap)
      (done : v.reallocate heap cap = .ok (heap', v')) :
      Step panics ⟨heap, put v ::ₘ things, made, held, dropped⟩ .reallocate
        ⟨heap', put v' ::ₘ things, made, held, dropped⟩
  | swap {heap things made held dropped} {U : Kind w} {put put' : Vec U → Thing w}
      {v v' : Vec U} (place : Place put) (place' : Place put') :
      Step panics ⟨heap, put v ::ₘ put' v' ::ₘ things, made, held, dropped⟩ .swap
        ⟨heap, put v' ::ₘ put' v ::ₘ things, made, held, dropped⟩
  | dropVec {heap things made held dropped} {T : Kind w} {v : Vec T} {unwinding : Bool}
      {heap' : Heap} {l : List (Value w)} {ending : Ending} (alive : ending ≠ .aborted)
      (done : v.drop panics unwinding heap = .ok (heap', l, ending)) :
      Step panics ⟨heap, .vec v ::ₘ things, made, held, dropped⟩ .dropVec
        ⟨heap', things, made, held, l + dropped⟩
  | new {heap things made held dropped} (T : Kind w) :
      Step panics ⟨heap, things, made, held, dropped⟩ .new
        ⟨heap, .buffer (VecBuffer.new T) ::ₘ things, made, held, dropped⟩
  | withCapacity {heap things made held dropped} {T : Kind w} {cap : ℕ} {heap' : Heap}
      {b : VecBuffer T} (done : VecBuffer.withCapacity heap T cap = .ok (heap', b)) :
      Step panics ⟨heap, things, made, held, dropped⟩ .withCapacity
        ⟨heap', .buffer b ::ₘ things, made, held, dropped⟩
  | fromVec {heap things made held dropped} {T : Kind w} {v : Vec T} {unwinding : Bool}
      {heap' : Heap} {b : Option (VecBuffer T)} {l : List (Value w)} {ending : Ending}
      (alive : ending ≠ .aborted)
      (done : VecBuffer.fromVec panics unwinding heap v = .ok (heap', b, l, ending)) :
      Step panics ⟨heap, .vec v ::ₘ things, made, held, dropped⟩ .fromVec
        ⟨heap', (b.toList.map Thing.buffer : Multiset (Thing w)) + things, made, held, l + dropped⟩
  | useFor {heap things made held dropped} {T U : Kind w} {b : VecBuffer T}
      (marker : SameLayout T U) :
      Step panics ⟨heap, .buffer b ::ₘ things, made, held, dropped⟩ .useFor
        ⟨heap, .view (b.useFor marker) ::ₘ things, made, held, dropped⟩
  | dropView {heap things made held dropped} {T U : Kind w} {t : TempVec T U}
      {unwinding : Bool} {heap' : Heap} {b : VecBuffer T} {l : List (Value w)} {ending : Ending}
      (alive : ending ≠ .aborted)
      (done : t.drop panics unwinding heap = .ok (heap', b, l, ending)) :
      Step panics ⟨heap, .view t ::ₘ things, made, held, dropped⟩ .dropView
        ⟨heap', .buffer b ::ₘ things, made, held, l + dropped⟩
  | dropBuffer {heap things made held dropped} {T : Kind w} {b : VecBuffer T}
      {unwinding : Bool} {heap' : Heap} {l : List (Value w)} {ending : Ending}
      (alive : ending ≠ .aborted)
      (done : b.drop panics unwinding heap = .ok (heap', l, ending)) :
      Step panics ⟨heap, .buffer b ::ₘ things, made, held, dropped⟩ .dropBuffer
        ⟨heap', things, made, held, l + dropped⟩

/-- A program that owns nothing yet. -/
def State.empty : State w := ⟨⟨0, 0⟩, 0, 0, 0, 0⟩

/-- The programs. -/
def machine (w : ℕ) (panics : Value w → Bool) : Machine (State w) Event where
  init σ := σ = State.empty
  step := Step panics

end SameAlloc
end StaticAlloc
