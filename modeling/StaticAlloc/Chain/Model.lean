import StaticAlloc.Library.Linked
import StaticAlloc.Library.Runs
import StaticAlloc.Unsync.Bump
import Mathlib.Data.Multiset.AddSub
import Mathlib.Logic.Function.Basic

/-!
# Chains of arenas

A `Chain` owns a list of links on the heap, each an arena with a pointer to the next
link.  Allocation uses the first link only.  `chain` puts the first link of another
chain in front and frees the rest of that chain; dropping a chain frees its links one
after the other.  Ownership is a raw pointer that a cell is emptied of or refilled
with, so nothing in the types says that a link has one owner.

The state is the heap, the roots of the chains alive, and two ledgers: the links ever
allocated, and the links freed.  Using or freeing a link that is not on the heap is
undefined behaviour.  Where a new link lies is up to the global allocator, which
promises that its block lies apart from every block on the heap (`Fresh`).

Two destructors walk the list, one for `Chain` and one for `Link`, and each drops
boxes whose own destructor is the second; `boxDropBy` is what dropping a box does,
given what the loop of that destructor does.  The loops run on fuel.
-/

namespace StaticAlloc
namespace Chain

open Toolkit
open Bump (Failure)

variable {w : ℕ}

/-- The target's layouts of `Cell<usize>` and of `Cell<LinkPtr>`. -/
structure Target (w : ℕ) where
  header : Ty w
  linkCell : Ty w
  linkCell_pos : 0 < linkCell.size
  deriving DecidableEq

variable {T : Target w}

/-- `Link::layout_from_size`; the second component is the offset of the arena in the
link. -/
def linkLayout (T : Target w) (size : ℕ) : Option (Layout w × ℕ) := do
  T.linkCell.extend (← Unsync.layoutFromSize T.header size)

/-- `NonNull<Link>`: an address, and the capacity of the arena in the link. -/
structure LinkPtr (T : Target w) where
  addr : ℕ
  capacity : ℕ
  layout : Layout w
  bumpOffset : ℕ
  laidOut : linkLayout T capacity = some (layout, bumpOffset)
  nonnull : 0 < addr
  fits : addr + layout.size ≤ 2 ^ w
  deriving DecidableEq

/-- The bytes of a link. -/
def LinkPtr.block (p : LinkPtr T) : Span := ⟨p.addr, p.layout.size⟩

/-- What a link holds: its successor, and the index of its arena. -/
structure Link (T : Target w) where
  next : Option (LinkPtr T)
  index : ℕ

/-- The heap, the chains alive with their roots, and the links ever allocated and
freed. -/
structure State (T : Target w) (I : Type) where
  links : LinkPtr T → Option (Link T)
  roots : I → Option (Option (LinkPtr T))
  allocated : Multiset (LinkPtr T)
  freed : Multiset (LinkPtr T)

/-- `RawAllocFailure`. -/
inductive RawAllocFailure where
  | exhausted
  | layout
  deriving DecidableEq, Repr

/-- `RawAllocError`, also inside a `TryNewError`. -/
structure RawAllocError where
  allocationSize : ℕ
  kind : RawAllocFailure
  deriving DecidableEq, Repr

variable {I : Type}

/-! ## Links and boxes -/

/-- Overwrite a link on the heap. -/
def State.setLink (σ : State T I) (p : LinkPtr T) (l : Link T) : State T I :=
  { σ with links := Function.update σ.links p (some l) }

/-- The block of a link goes back to the global allocator. -/
def State.free (σ : State T I) (p : LinkPtr T) : State T I :=
  { σ with links := Function.update σ.links p none, freed := p ::ₘ σ.freed }

/-- `Link::take_next`. -/
def takeNext (σ : State T I) (p : LinkPtr T) : Except Stop (State T I × Option (LinkPtr T)) :=
  match σ.links p with
  | none => .error (.undefined "use after free")
  | some l => .ok (σ.setLink p { l with next := none }, l.next)

/-- The deallocation at the end of a box's drop. -/
def dealloc (σ : State T I) (p : LinkPtr T) : Except Stop (State T I) :=
  match σ.links p with
  | none => .error (.undefined "double free")
  | some _ => .ok (σ.free p)

/-- Dropping a `Box<Link>`: `Drop for Link`, and then the deallocation.  `none` says
that the fuel of the loop is spent. -/
def boxDropBy (loop : State T I → Option (LinkPtr T) → Except Stop (Option (State T I)))
    (σ : State T I) (p : LinkPtr T) : Except Stop (Option (State T I)) := do
  let (σ, current) ← takeNext σ p
  match ← loop σ current with
  | none => return none
  | some σ => return some (← dealloc σ p)

/-- The loop of `Drop for Link`: at the end of each turn the box taken is dropped. -/
def linkLoop : ℕ → State T I → Option (LinkPtr T) → Except Stop (Option (State T I))
  | _, σ, none => .ok (some σ)
  | 0, _, some _ => .ok none
  | fuel + 1, σ, some link => do
    let (σ, current) ← takeNext σ link
    match ← boxDropBy (linkLoop fuel) σ link with
    | none => return none
    | some σ => linkLoop fuel σ current

/-- The loop of `Drop for Chain`. -/
def chainLoop : ℕ → State T I → Option (LinkPtr T) → Except Stop (Option (State T I))
  | _, σ, none => .ok (some σ)
  | 0, _, some _ => .ok none
  | fuel + 1, σ, some nonNull => do
    let (σ, current) ← takeNext σ nonNull
    match ← boxDropBy (linkLoop fuel) σ nonNull with
    | none => return none
    | some σ => chainLoop fuel σ current

/-- `Link::set_next`. -/
def setNext (fuel : ℕ) (σ : State T I) (p : LinkPtr T) (next : Option (LinkPtr T)) :
    Except Stop (Option (State T I)) :=
  match σ.links p with
  | none => .error (.undefined "use after free")
  | some l =>
    let σ := σ.setLink p { l with next := next }
    match l.next with
    | none => .ok (some σ)
    | some old => boxDropBy (linkLoop fuel) σ old

/-! ## Roots -/

/-- The root of a chain. -/
def State.root (σ : State T I) (i : I) : Option (LinkPtr T) := (σ.roots i).getD none

variable [DecidableEq I]

/-- Overwrite the root of a chain. -/
def State.setRoot (σ : State T I) (i : I) (r : Option (LinkPtr T)) : State T I :=
  { σ with roots := Function.update σ.roots i (some r) }

/-- The chain is gone. -/
def State.forget (σ : State T I) (i : I) : State T I :=
  { σ with roots := Function.update σ.roots i none }

/-! ## The operations -/

/-- `Link::alloc`.  The memory is zeroed, so the link has no successor and its arena
is empty; `grant` is what the global allocator returned. -/
def linkAlloc (σ : State T I) (capacity : ℕ) (grant : Option (LinkPtr T)) :
    State T I × Except RawAllocError (LinkPtr T) :=
  match linkLayout T capacity with
  | none => (σ, .error ⟨capacity, .layout⟩)
  | some (layout, _) =>
    match grant with
    | none => (σ, .error ⟨layout.size, .exhausted⟩)
    | some p => ({ σ.setLink p ⟨none, 0⟩ with allocated := p ::ₘ σ.allocated }, .ok p)

/-- `Chain::new`; on success the chain is called `i`. -/
def new (σ : State T I) (i : I) (size : ℕ) (grant : Option (LinkPtr T)) :
    State T I × Except RawAllocError Unit :=
  match linkAlloc σ size grant with
  | (σ, .error e) => (σ, .error e)
  | (σ, .ok link) => (σ.setRoot i (some link), .ok ())

/-- The data of the arena in a link. -/
def LinkPtr.storage (p : LinkPtr T) : Storage w where
  base := p.addr + p.bumpOffset + T.header.size
  len := p.capacity
  nonnull := by
    have := p.nonnull
    omega
  fits := by
    have hfits := p.fits
    have hlaid := p.laidOut
    rw [linkLayout] at hlaid
    obtain ⟨bump, hbump, hlink⟩ := Option.bind_eq_some_iff.mp hlaid
    obtain ⟨dataTail, hdata, hrest⟩ := Option.bind_eq_some_iff.mp hbump
    obtain ⟨⟨header, offset⟩, hheader, hpad⟩ := Option.bind_eq_some_iff.mp hrest
    obtain rfl := Option.some.inj hpad
    have hsize := (Layout.fromSizeAlign_some hdata).1
    obtain ⟨hle, -, hsize', -, -⟩ := Layout.extend_some hheader
    obtain ⟨-, -, hsize'', -, -⟩ := Layout.extend_some hlink
    have hround : header.size ≤ header.padToAlign.size := le_roundUp
    omega

/-- `Chain::bump_box`. -/
def bumpBox (b : Build) (σ : State T I) (i : I) (V : Ty w) :
    Except Stop (State T I × Except Failure ℕ) :=
  match σ.root i with
  | none => .ok (σ, .error .exhausted)
  | some root =>
    match σ.links root with
    | none => .error (.undefined "use after free")
    | some l => do
      let (index, r) ← Unsync.bumpBox b root.storage l.index V
      return (σ.setLink root { l with index := index }, r)

/-- `Drop for Chain`. -/
def drop (fuel : ℕ) (σ : State T I) (i : I) : Except Stop (Option (State T I)) := do
  let current := σ.root i
  match ← chainLoop fuel (σ.setRoot i none) current with
  | none => return none
  | some σ => return some (σ.forget i)

/-- `Chain::chain`; the argument is dropped at the end. -/
def chain (fuel : ℕ) (σ : State T I) (i new : I) : Except Stop (Option (State T I)) := do
  let selfBump := σ.root i
  let σ := σ.setRoot i none
  match σ.root new with
  | none => drop fuel (σ.setRoot i selfBump) new
  | some root =>
    match ← setNext fuel σ root selfBump with
    | none => return none
    | some σ =>
      let newRoot := σ.root new
      drop fuel ((σ.setRoot new none).setRoot i newRoot) new

/-- `Chain::capacity`. -/
def capacity (σ : State T I) (i : I) : ℕ :=
  match σ.root i with
  | none => 0
  | some root => root.capacity

/-- `Chain::remaining_capacity`. -/
def remainingCapacity (b : Build) (σ : State T I) (i : I) : Except Stop ℕ :=
  match σ.root i with
  | none => .ok 0
  | some root =>
    match σ.links root with
    | none => .error (.undefined "use after free")
    | some l => subUsize b w (capacity σ i) l.index

/-! ## The system -/

/-- What may be done with any number of chains. -/
inductive Op (T : Target w) (I : Type) where
  | new (i : I) (size : ℕ) (grant : Option (LinkPtr T))
  | bumpBox (i : I) (V : Ty w)
  | chain (i new : I)
  | drop (i : I)

/-- One operation. -/
def exec (b : Build) (fuel : ℕ) (σ : State T I) : Op T I → Except Stop (Option (State T I))
  | .new i size grant => .ok (some (new σ i size grant).1)
  | .bumpBox i V => do
    let (σ, _) ← bumpBox b σ i V
    return some σ
  | .chain i new => chain fuel σ i new
  | .drop i => drop fuel σ i

/-- What the global allocator promises of a new block. -/
def Fresh (σ : State T I) (p : LinkPtr T) : Prop :=
  ∀ q l, σ.links q = some l → p.block.Apart q.block

/-- What the language lets a program do, and what the global allocator does. -/
def Enabled (σ : State T I) : Op T I → Prop
  | .new i size grant => σ.roots i = none ∧ ∀ p ∈ grant, p.capacity = size ∧ Fresh σ p
  | .bumpBox i _ => σ.roots i ≠ none
  | .chain i new => σ.roots i ≠ none ∧ σ.roots new ≠ none ∧ i ≠ new
  | .drop i => σ.roots i ≠ none

/-- What the operation does with enough fuel. -/
def Ends (b : Build) (σ : State T I) (op : Op T I) (τ : State T I) : Prop :=
  ∃ n, ∀ fuel, n ≤ fuel → exec b fuel σ op = .ok (some τ)

/-- The operation panics, whatever the fuel. -/
def Panics (b : Build) (σ : State T I) (op : Op T I) : Prop :=
  ∃ msg, ∀ fuel, exec b fuel σ op = .error (.panic msg)

/-- No chain, and nothing on the heap. -/
def State.empty (T : Target w) (I : Type) : State T I := ⟨fun _ => none, fun _ => none, 0, 0⟩

/-- All runs.  Only `bump_box` panics, at an assertion before it has written anything;
a program that catches the panic goes on from the same state. -/
def machine (b : Build) (T : Target w) (I : Type) [DecidableEq I] :
    Machine (State T I) (Op T I) where
  init σ := σ = State.empty T I
  step σ op τ := Enabled σ op ∧ (Ends b σ op τ ∨ Panics b σ op ∧ τ = σ)

end Chain
end StaticAlloc
