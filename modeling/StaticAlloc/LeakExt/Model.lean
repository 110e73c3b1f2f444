import StaticAlloc.Core.Memory
import StaticAlloc.FixedVec.Model
import StaticAlloc.Rc.Model
import StaticAlloc.Uninit.Copies
import StaticAlloc.Uninit.Split

/-!
# Owners of memory from an allocator

`LocalAllocLeakExt` asks an allocator for memory and wraps it: as an `Uninit`, a `Box`, a
`FixedVec`, an `Rc`, or a reference to a copy.  None of these gives the memory back to the
allocator, but they can be made of each other.  A `Box` gives its `Uninit` back when its value
is taken out, an `Uninit` can be cast and cut into pieces, and each piece can become a `Box`, a
`FixedVec` or an `Rc` again.

The allocator is any that does what `LocalAlloc` asks for (`Allocator`), with a state of its
own.  What it has handed out it does not hand out again, since nobody deallocates.

A value is the list of its bytes here; the destructor of a value is a look at them.  Writing
and reading are undefined outside of the memory of the allocator, unless there is nothing to
write or read.

A program is its variables.  `Enabled` is what the types of the functions ask for, and for the
traversals of an `Uninit` that their byte-level split is a split (`Traversal.Exact`); what is
done with the elements of a vector is any access to its bytes.
-/

namespace StaticAlloc

open Toolkit
open AllocTraits (NonZeroLayout)

variable {w : ℕ} {β ι : Type}

/-- What an allocation adds to the addresses that were handed out before. -/
structure Allocates (layout : NonZeroLayout w) (a : AllocTraits.Allocation w)
    (before after : Set ℕ) : Prop where
  nonnull : 0 < a.ptr
  aligned : layout.align ∣ a.ptr
  large : layout.size ≤ a.layout.size
  fresh : Disjoint a.span.addresses before
  subset : a.span.addresses ⊆ after

/-- An allocator with a state, as `LocalAlloc` asks for it. -/
structure Allocator (w : ℕ) (σ : Type) where
  /-- `LocalAlloc::alloc` -/
  alloc : σ → NonZeroLayout w → Except Stop (σ × Option (AllocTraits.Allocation w))
  /-- The memory that the blocks are in. -/
  region : Span
  /-- The states the allocator can be in. -/
  Ready : σ → Prop
  /-- The addresses handed out so far. -/
  used : σ → Set ℕ
  used_subset : ∀ {s}, Ready s → used s ⊆ region.addresses
  returns : ∀ {s}, Ready s → ∀ layout, ∃ s' r, alloc s layout = .ok (s', r) ∧ Ready s' ∧
    used s ⊆ used s' ∧ ∀ a ∈ r, Allocates layout a (used s) (used s')

/-! ## Values in memory -/

/-- `core::ptr::write`, of a value with these bytes. -/
def ptrWrite (region : Span) (m : Bytes β) (dst : ℕ) (val : List β) : Except Stop (Bytes β) :=
  if val.length = 0 ∨ InRegion region dst val.length then .ok (m.put dst val)
  else .error (.undefined "write to bytes that may not be accessed")

/-- `core::ptr::read`, of a value with so many bytes. -/
def ptrRead (region : Span) (m : Bytes β) (src n : ℕ) : Except Stop (List β) :=
  if n = 0 ∨ InRegion region src n then .ok (m.get src n)
  else .error (.undefined "read of bytes that may not be accessed")

/-- `core::ptr::copy` from what may be read. -/
def ptrCopyTo (region : Span) (m : Bytes β) (src dst n : ℕ) : Except Stop (Bytes β) :=
  if n = 0 ∨ InRegion region dst n then .ok (m.copy src dst n)
  else .error (.undefined "copy to bytes that may not be accessed")

/-- `NonNull::<T>::dangling`, to no bytes. -/
def dangling (T : Ty w) : Span := ⟨T.align, 0⟩

theorem dangling_pos (T : Ty w) : 0 < (dangling T).start := T.align_pos

theorem dangling_lt_word (T : Ty w) : (dangling T).size < 2 ^ w := Nat.two_pow_pos w

namespace UninitView

/-- `Uninit::init`: the reference. -/
def init {T : Ty w} (region : Span) (m : Bytes β) (u : UninitView T) (val : List β) :
    Except Stop (Bytes β × ℕ) := do
  let m ← ptrWrite region m u.ptr val
  return (m, u.ptr)

/-- `Uninit::invent_for_zst`. -/
def inventForZst (T : Ty w) : Except Stop (UninitView T) := do
  assert (T.size = 0) "Invented ZST uninit invoked with non-ZST"
  let raw := fromMemory (dangling T).start (dangling T).size (dangling_pos T) (dangling_lt_word T)
  unwrapOk (raw.cast T)

end UninitView

/-- `without_alloc::Box<'_, T>`. -/
structure Box (T : Ty w) where
  inner : UninitView T

namespace Box

variable {T : Ty w}

/-- `Box::new`. -/
def new (region : Span) (m : Bytes β) (val : List β) (into : UninitView T) :
    Except Stop (Bytes β × Box T) := do
  let (m, _) ← into.init region m val
  return (m, ⟨into⟩)

/-- `Box::into_raw`. -/
def intoRaw (b : Box T) : UninitView T :=
  ⟨b.inner.ptr, b.inner.len, b.inner.nonnull, b.inner.word, b.inner.aligned, b.inner.large⟩

/-- `Box::from_raw`. -/
def fromRaw (init : UninitView T) : Box T := ⟨init⟩

/-- `Box::take`. -/
def take (region : Span) (m : Bytes β) (b : Box T) : Except Stop (List β × UninitView T) := do
  let val ← ptrRead region m b.inner.ptr T.size
  return (val, intoRaw b)

/-- `Box::leak`: the reference. -/
def leak (b : Box T) : ℕ := (intoRaw b).ptr

/-- `Drop for Box`: what the destructor of the value finds. -/
def drop (region : Span) (m : Bytes β) (b : Box T) : Except Stop (List β) :=
  ptrRead region m b.inner.ptr T.size

end Box

/-- The memory side of `Rc::new`: the value is the whole `RcBox`. -/
def Rc.place (region : Span) (m : Bytes β) (B : Rc.Types w) (val : List β)
    (memory : UninitView (Ty.unit w)) : Except Stop (Bytes β × UninitView B.box) := do
  assert (fits memory.ptr memory.len B.box.toLayout) "Provided memory must fit the inner layout"
  let memory ← unwrapOk (memory.cast B.box)
  let (m, _) ← memory.init region m val
  return (m, memory)

/-! ## Asking for memory -/

namespace LeakExt

open LocalAllocLeakExt (castSlice)

variable {σ : Type} (A : Allocator w σ)

theorem allocation_lt_word (alloc : AllocTraits.Allocation w) : alloc.span.size < 2 ^ w :=
  alloc.layout.size_lt_word

/-- `LocalAllocLeakExt::alloc_layout`. -/
def allocLayout (s : σ) (layout : NonZeroLayout w) :
    Except Stop (σ × Option (UninitView (Ty.unit w))) := do
  match ← A.alloc s layout with
  | (s, none) => return (s, none)
  | (s, some alloc) =>
    if h : 0 < alloc.ptr then
      return (s, some (.fromMemory alloc.ptr alloc.layout.size h (allocation_lt_word alloc)))
    else .error (.undefined "NonNull of a null pointer")

/-- `LeakedAllocation::cast`. -/
def cast {T : Ty w} (U : Ty w) (allocation : UninitView T) : Option (UninitView U) :=
  (allocation.cast U).toOption

/-- `LocalAllocLeakExt::alloc_t`. -/
def allocT (s : σ) (V : Ty w) : Except Stop (σ × Option (UninitView V)) :=
  match NonZeroLayout.fromLayout V.toLayout with
  | none => do
    let uninit ← UninitView.inventForZst V
    return (s, some uninit)
  | some layout => do
    match ← allocLayout A s layout with
    | (s, none) => return (s, none)
    | (s, some allocation) =>
      let rightType ← unwrap (cast V allocation)
      return (s, some rightType)

/-- `LocalAllocLeakExt::boxed`. -/
def boxed (s : σ) (m : Bytes β) (V : Ty w) (val : List β) :
    Except Stop (σ × Bytes β × Option (Box V)) := do
  match ← allocT A s V with
  | (s, none) => return (s, m, none)
  | (s, some uninit) =>
    let (m, b) ← Box.new A.region m val uninit
    return (s, m, some b)

/-- `LocalAllocLeakExt::fixed_vec`. -/
def fixedVec (s : σ) (V : Ty w) (capacity : ℕ) : Except Stop (σ × Option (FixedVec V)) :=
  match (checkedMul w V.size capacity).bind (Layout.fromSizeAlign w · V.align) with
  | none => .ok (s, none)
  | some layout =>
    match NonZeroLayout.fromLayout layout with
    | none => .ok (s, some (FixedVec.new (.empty V)))
    | some layout => do
      match ← allocLayout A s layout with
      | (s, none) => return (s, none)
      | (s, some allocation) =>
        let rightType ← unwrap (castSlice V allocation)
        return (s, some (FixedVec.new rightType))

/-- `LocalAllocLeakExt::rc`. -/
def rc (s : σ) (m : Bytes β) (B : Rc.Types w) (val : List β) :
    Except Stop (σ × Bytes β × Option (UninitView B.box)) := do
  let layout ← unwrap (NonZeroLayout.fromLayout B.box.toLayout)
  match ← allocLayout A s layout with
  | (s, none) => return (s, m, none)
  | (s, some alloc) =>
    let (m, inner) ← Rc.place A.region m B val alloc
    return (s, m, some inner)

/-- `LocalAllocLeakExt::copy_slice`. -/
def copySlice {T : Ty w} (s : σ) (m : Bytes β) (slice : SliceRef T) :
    Except Stop (σ × Bytes β × Option RawSlice) := do
  let (s, uninit) ← match NonZeroLayout.fromLayout slice.layout with
    | none => .ok (s, some (UninitSlice.empty T))
    | some layout => do
      match ← allocLayout A s layout with
      | (s, none) => pure (s, none)
      | (s, some allocation) =>
        let rightType ← unwrap (castSlice T allocation)
        pure (s, some rightType)
  match uninit with
  | none => return (s, m, none)
  | some uninit =>
    let m ← ptrCopyTo A.region m slice.ptr uninit.ptr (slice.len * T.size)
    return (s, m, some uninit.intoMut)

/-- `LocalAllocLeakExt::copy_dst`, of a value with this layout.  A reference that is not
aligned is undefined behaviour. -/
def copyDst (s : σ) (m : Bytes β) (layout : Layout w) (val : ℕ) :
    Except Stop (σ × Bytes β × Option ℕ) := do
  let (s, uninit) ← match NonZeroLayout.fromLayout layout with
    | none => do
      let uninit ← UninitView.inventForZst (Ty.unit w)
      pure (s, some uninit)
    | some layout => allocLayout A s layout
  match uninit with
  | none => return (s, m, none)
  | some uninit =>
    let m ← ptrCopyTo A.region m val uninit.ptr layout.size
    if layout.align ∣ uninit.ptr then
      return (s, m, some uninit.ptr)
    else .error (.undefined "a reference that is not aligned")

end LeakExt

/-! ## A program -/

namespace LeakExt

/-- What a variable holds. -/
inductive Handle (w : ℕ) where
  /-- `Uninit<T>` or `Uninit<[T]>` -/
  | view (v : AnyView w)
  | boxed (T : Ty w) (b : Box T)
  | vec (T : Ty w) (v : FixedVec T)
  /-- `Rc<T>`, by its `inner` -/
  | rc (B : Rc.Types w) (inner : UninitView B.box)
  /-- `&mut T` -/
  | reference (T : Ty w) (ptr : ℕ)
  /-- `&mut [T]` -/
  | slice (T : Ty w) (s : RawSlice)
  /-- a reference to a value that is not sized -/
  | dst (layout : Layout w) (ptr : ℕ)

namespace Handle

/-- The bytes that belong to a handle. -/
def span : Handle w → Span
  | view v => v.span
  | boxed _ b => b.inner.span
  | vec _ v => v.uninit.span
  | rc _ inner => inner.span
  | reference T ptr => ⟨ptr, T.size⟩
  | slice T s => ⟨s.ptr, s.len * T.size⟩
  | dst layout ptr => ⟨ptr, layout.size⟩

/-- How many of them may be read and written through it. -/
def accessible : Handle w → ℕ
  | view _ => 0
  | boxed T _ => T.size
  | h => h.span.size

end Handle

/-- What the program may do.  A copied value comes with the bytes it has. -/
inductive Act (w : ℕ) (ι β : Type) where
  | allocLayout (x : ι) (layout : NonZeroLayout w)
  | allocT (x : ι) (V : Ty w)
  | boxed (x : ι) (V : Ty w) (val : List β)
  | fixedVec (x : ι) (V : Ty w) (capacity : ℕ)
  | rc (x : ι) (B : Rc.Types w) (val : List β)
  | copySlice (x : ι) (T : Ty w) (slice : SliceRef T) (val : List β)
  | copyDst (x : ι) (layout : Layout w) (ptr : ℕ) (val : List β)
  /-- A traversal of the `Uninit` in `x`; what it returns is in `y`. -/
  | traverse (x y : ι) (op : Traversal w)
  | init (x : ι) (val : List β)
  | boxNew (x : ι) (val : List β)
  | vecNew (x : ι)
  | rcNew (x : ι) (B : Rc.Types w) (val : List β)
  /-- `FixedVec::shrink_to_fit` -/
  | vecShrink (x y : ι)
  | boxTake (x : ι) (T : Ty w)
  | boxIntoRaw (x : ι)
  | boxFromRaw (x : ι)
  | boxLeak (x : ι) (T : Ty w)
  | boxDrop (x : ι) (T : Ty w)
  | write (x : ι) (k : ℕ) (b : β)
  | read (x : ι) (k : ℕ)
  /-- A handle is forgotten, or a reference ends. -/
  | release (x : ι)

/-- What the program learns from it. -/
inductive Reply (β : Type) where
  | done
  | refused
  | saw (bytes : List β)

/-- An allocator, the memory, and the variables of a program. -/
structure State (w : ℕ) (ι β σ : Type) where
  alloc : σ
  bytes : Bytes β
  vars : ι → Option (Handle w)

namespace State

variable {σ : Type} [DecidableEq ι] (A : Allocator w σ)

/-- A variable is assigned to. -/
def assign (s : State w ι β σ) (x : ι) (h : Option (Handle w)) : State w ι β σ :=
  { s with vars := Function.update s.vars x h }

/-- What a request returned is assigned to a variable, if it was granted. -/
def receive (s : State w ι β σ) (alloc : σ) (bytes : Bytes β) (x : ι) :
    Option (Handle w) → State w ι β σ × Reply β
  | some h => ({ s.assign x (some h) with alloc := alloc, bytes := bytes }, .done)
  | none => ({ s with alloc := alloc, bytes := bytes }, .refused)

/-- One act; an act that is not enabled does nothing. -/
def exec (s : State w ι β σ) : Act w ι β → Except Stop (State w ι β σ × Reply β)
  | .allocLayout x layout => do
    let (alloc, r) ← LeakExt.allocLayout A s.alloc layout
    return s.receive alloc s.bytes x (r.map fun u => .view (.sized _ u))
  | .allocT x V => do
    let (alloc, r) ← LeakExt.allocT A s.alloc V
    return s.receive alloc s.bytes x (r.map fun u => .view (.sized V u))
  | .boxed x V val => do
    let (alloc, bytes, r) ← LeakExt.boxed A s.alloc s.bytes V val
    return s.receive alloc bytes x (r.map (.boxed V))
  | .fixedVec x V capacity => do
    let (alloc, r) ← LeakExt.fixedVec A s.alloc V capacity
    return s.receive alloc s.bytes x (r.map (.vec V))
  | .rc x B val => do
    let (alloc, bytes, r) ← LeakExt.rc A s.alloc s.bytes B val
    return s.receive alloc bytes x (r.map (.rc B))
  | .copySlice x T slice _ => do
    let (alloc, bytes, r) ← LeakExt.copySlice A s.alloc s.bytes slice
    return s.receive alloc bytes x (r.map (.slice T))
  | .copyDst x layout ptr _ => do
    let (alloc, bytes, r) ← LeakExt.copyDst A s.alloc s.bytes layout ptr
    return s.receive alloc bytes x (r.map (.dst layout))
  | .traverse x y op =>
    match s.vars x with
    | some (.view v) =>
      match op.exec v with
      | some r => do
        let (v', new) ← r
        return ((s.assign x (some (.view v'))).assign y (new.map .view), .done)
      | none => .ok (s, .done)
    | _ => .ok (s, .done)
  | .init x val =>
    match s.vars x with
    | some (.view (.sized T u)) => do
      let (bytes, ptr) ← u.init A.region s.bytes val
      return ({ s.assign x (some (.reference T ptr)) with bytes := bytes }, .done)
    | _ => .ok (s, .done)
  | .boxNew x val =>
    match s.vars x with
    | some (.view (.sized T u)) => do
      let (bytes, b) ← Box.new A.region s.bytes val u
      return ({ s.assign x (some (.boxed T b)) with bytes := bytes }, .done)
    | _ => .ok (s, .done)
  | .vecNew x =>
    match s.vars x with
    | some (.view (.slice T u)) => .ok (s.assign x (some (.vec T (FixedVec.new u))), .done)
    | _ => .ok (s, .done)
  | .rcNew x B val =>
    match s.vars x with
    | some (.view v) => do
      -- `Uninit::as_memory` makes any view one of untyped memory
      let memory := match v with
        | .sized _ u => u.decast
        | .slice _ u => u.decast
      let (bytes, inner) ← Rc.place A.region s.bytes B val memory
      return ({ s.assign x (some (.rc B inner)) with bytes := bytes }, .done)
    | _ => .ok (s, .done)
  | .vecShrink x y =>
    match s.vars x with
    | some (.vec T v) => do
      let (v', rest) ← v.shrinkToFit
      return ((s.assign x (some (.vec T v'))).assign y (some (.view (.sized _ rest))), .done)
    | _ => .ok (s, .done)
  | .boxTake x _ =>
    match s.vars x with
    | some (.boxed T b) => do
      let (val, u) ← b.take A.region s.bytes
      return (s.assign x (some (.view (.sized T u))), .saw val)
    | _ => .ok (s, .done)
  | .boxIntoRaw x =>
    match s.vars x with
    | some (.boxed T b) => .ok (s.assign x (some (.view (.sized T b.intoRaw))), .done)
    | _ => .ok (s, .done)
  | .boxFromRaw x =>
    match s.vars x with
    | some (.view (.sized T u)) => .ok (s.assign x (some (.boxed T (.fromRaw u))), .done)
    | _ => .ok (s, .done)
  | .boxLeak x _ =>
    match s.vars x with
    | some (.boxed T b) => .ok (s.assign x (some (.reference T b.leak)), .done)
    | _ => .ok (s, .done)
  | .boxDrop x _ =>
    match s.vars x with
    | some (.boxed _ b) => do
      let val ← b.drop A.region s.bytes
      return (s.assign x none, .saw val)
    | _ => .ok (s, .done)
  | .write x k b =>
    match s.vars x with
    | some h => do
      let bytes ← ptrWrite A.region s.bytes (h.span.start + k) [b]
      return ({ s with bytes := bytes }, .done)
    | none => .ok (s, .done)
  | .read x k =>
    match s.vars x with
    | some h => do
      let val ← ptrRead A.region s.bytes (h.span.start + k) 1
      return (s, .saw val)
    | none => .ok (s, .done)
  | .release x => .ok (s.assign x none, .done)

/-- What the types of the functions ask for and what `Rc::new` asserts.  Of an empty value
`copy_dst` may only be asked for if any pointer is aligned for it (`copyDst_ok_iff`). -/
def Enabled (s : State w ι β σ) : Act w ι β → Prop
  | .allocLayout x _ | .allocT x _ | .fixedVec x _ _ => s.vars x = none
  | .boxed x V val => s.vars x = none ∧ val.length = V.size
  -- a counter has bytes
  | .rc x B val => s.vars x = none ∧ 0 < B.usize.size ∧ val.length = B.box.size
  | .copySlice x T slice val =>
    s.vars x = none ∧ s.bytes.get slice.ptr (slice.len * T.size) = val
  | .copyDst x layout ptr val => s.vars x = none ∧ s.bytes.get ptr layout.size = val ∧
      (0 < layout.size ∨ layout.align = 1)
  | .traverse x y op => ∃ v, s.vars x = some (.view v) ∧ s.vars y = none ∧
      (∃ r, op.exec v = some r) ∧ op.Exact v
  | .init x val | .boxNew x val =>
    ∃ T u, s.vars x = some (.view (.sized T u)) ∧ val.length = T.size
  | .vecNew x => ∃ T u, s.vars x = some (.view (.slice T u))
  | .rcNew x B val => ∃ v, s.vars x = some (.view v) ∧
      fits v.span.start v.span.size B.box.toLayout ∧ val.length = B.box.size
  | .vecShrink x y => (∃ T v, s.vars x = some (.vec T v)) ∧ s.vars y = none
  | .boxTake x T | .boxLeak x T | .boxDrop x T => ∃ b, s.vars x = some (.boxed T b)
  | .boxIntoRaw x => ∃ T b, s.vars x = some (.boxed T b)
  | .boxFromRaw x => ∃ T u, s.vars x = some (.view (.sized T u))
  | .write x k _ | .read x k => ∃ h, s.vars x = some h ∧ k < h.accessible
  | .release x => s.vars x ≠ none

/-- All runs of a program, on an allocator in any state and whatever the memory. -/
def machine : Machine (State w ι β σ) (Act w ι β × Reply β) where
  init s := A.Ready s.alloc ∧ ∀ x, s.vars x = none
  step s l s' := s.Enabled l.1 ∧ s.exec A l.1 = .ok (s', l.2)

end State

end LeakExt
end StaticAlloc
