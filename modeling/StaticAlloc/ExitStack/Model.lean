import StaticAlloc.Library.Linked
import StaticAlloc.Library.Objects
import StaticAlloc.Library.Runs
import StaticAlloc.Unsync.Bump

/-!
# The exit stack

An exit stack pins values of any types into an arena of its own and drops them,
last pinned first, when it is popped.  The values are threaded on a list: a slot
holds a link and a value, and `top` is the handle of the slot pinned last.  Two
cursors are therefore reset separately, the head of the list by `top.take()` and
the arena by `memory.reset()`.

What a destructor does is not the stack's business, but whether it panics is:
`panics` says so for every value.  A call can then end in one of three ways
(`Exit`): it returns, it unwinds, or the process aborts.  The loops follow links
in memory, so they run on fuel; a call that still runs when its fuel is spent says
so, and `Ends` is about what a call does with any amount of fuel that is large
enough.

The memory of the arena holds objects of different sizes, each with the type it
was written at.  Dropping through a handle that does not find a live value of the
handle's own type there is undefined behaviour.
-/

namespace StaticAlloc
namespace ExitStack

open Toolkit
open Bump (nonNullNew)

variable {w : ℕ} {V : Type}

/-- The type `PinSlot<T>`.  Its last field may be unsized, so it stays behind the
link, at the first offset its alignment allows. -/
structure PinSlot (link : Ty w) where
  /-- `T`. -/
  value : Ty w
  fields : Layout w
  valueOffset : ℕ
  laidOut : link.extend value.toLayout = some (fields, valueOffset)
  deriving DecidableEq

/-- The layout of the struct. -/
def PinSlot.ty {link : Ty w} (T : PinSlot link) : Ty w := T.fields.padToAlign

/-- `ExitHandle`: a pointer, with the vtable of the type it points to. -/
structure ExitHandle (link : Ty w) where
  ptr : ℕ
  vtable : PinSlot link
  deriving DecidableEq

/-- What a `PinSlot<T>` in memory holds; the value is gone once it is dropped. -/
structure Entry (link : Ty w) (V : Type) where
  type : PinSlot link
  link : Option (ExitHandle link)
  value : Option V

/-- The size of the struct. -/
def Entry.size {link : Ty w} (e : Entry link V) : ℕ := e.type.ty.size

/-- `Slot<'_, T>`: a slot handed out and not yet filled. -/
structure Slot (link : Ty w) where
  value : ℕ
  type : PinSlot link

/-- What an observer sees of a stack. -/
inductive Event (link : Ty w) (V : Type) where
  /-- A value was pinned at a handle. -/
  | pinned (h : ExitHandle link) (v : V)
  /-- The destructor of the value at a handle was started. -/
  | dropped (h : ExitHandle link) (v : V)
  /-- The arena was reset. -/
  | reset
  /-- A call was left by unwinding. -/
  | unwound

/-- What is fixed about one `ExitStack<Mem>`: the target's layouts of `usize` and
of a handle, the type and the place of the arena, and the destructors. -/
structure Setup (w : ℕ) (V : Type) where
  build : Build
  /-- `Cell<usize>`. -/
  header : Ty w
  /-- `Option<ExitHandle>`. -/
  link : Ty w
  link_pos : 0 < link.size
  /-- `PinSlot<Mem>`. -/
  mem : PinSlot link
  /-- `memory`, where it is pinned. -/
  memory : Unsync.Bump header mem.ty
  /-- Whether the destructor of a value panics. -/
  panics : V → Bool

/-- The fields of the stack, the memory of its arena, the slots its user holds,
and what happened so far. -/
structure State (E : Setup w V) where
  index : ℕ
  top : Option (ExitHandle E.link)
  memory : Objects (Entry E.link V)
  slots : List (Slot E.link)
  alive : Bool
  log : List (Event E.link V)

/-- How a call ends, if it does. -/
inductive Exit where
  | returned
  | unwinding
  | aborted
  /-- The fuel is spent and the call has not ended. -/
  | running
  deriving DecidableEq

variable {E : Setup w V}

/-! ## Memory -/

/-- The entry a handle points to. -/
def entryAt (m : Objects (Entry E.link V)) (h : ExitHandle E.link) : Option (Entry E.link V) :=
  (m h.ptr).filter fun e => decide (e.type = h.vtable)

/-- Write a `PinSlot<T>`. -/
def writeEntry (m : Objects (Entry E.link V)) (ptr : ℕ) (e : Entry E.link V) :
    Objects (Entry E.link V) :=
  m.write Entry.size ptr e

/-- `drop_in_place(&mut slot.value)`; the second component says whether the
destructor panicked. -/
def dropInPlace (σ : State E) (h : ExitHandle E.link) : Except Stop (State E × Bool) :=
  match entryAt σ.memory h with
  | some ⟨type, link, some v⟩ =>
    .ok ({ σ with
            memory := writeEntry σ.memory h.ptr ⟨type, link, none⟩
            log := σ.log ++ [.dropped h v] }, E.panics v)
  | _ => .error (.undefined "drop_in_place of what is not a live value")

/-- `slot.link`. -/
def linkOf (σ : State E) (h : ExitHandle E.link) :
    Except Stop (Option (ExitHandle E.link)) :=
  match entryAt σ.memory h with
  | some e => .ok e.link
  | none => .error (.undefined "read through a dangling handle")

/-! ## Popping -/

/-- `UnwindFlag::drop`, for what is left in `self.chain`. -/
def unwindFlagDrop : ℕ → State E → Option (ExitHandle E.link) → Except Stop (State E × Exit)
  | _, σ, none => .ok (σ, .returned)
  | 0, σ, some _ => .ok (σ, .running)
  | fuel + 1, σ, some exitHandle => do
    match ← dropInPlace σ exitHandle with
    -- the unwinding drops `abort_flag`, which was not forgotten yet
    | (σ, true) => return (σ, .aborted)
    | (σ, false) => unwindFlagDrop fuel σ (← linkOf σ exitHandle)

/-- The loop of `inner_pop_all_with_unsafe_self_and_pinned`, with `flag.chain`. -/
def popLoop : ℕ → State E → Option (ExitHandle E.link) →
    Except Stop (State E × Option (ExitHandle E.link) × Exit)
  | _, σ, none => .ok (σ, none, .returned)
  | 0, σ, chain@(some _) => .ok (σ, chain, .running)
  | fuel + 1, σ, some exitHandle => do
    -- `flag.chain.take()`: from here to the end of the turn the flag holds nothing
    match ← dropInPlace σ exitHandle with
    | (σ, true) => return (σ, none, .unwinding)
    | (σ, false) => popLoop fuel σ (← linkOf σ exitHandle)

/-- `self.memory.reset()`. -/
def reset (σ : State E) : State E := { σ with index := 0, log := σ.log ++ [.reset] }

/-- `inner_pop_all_with_unsafe_self_and_pinned`; `panicking` says that the thread
is unwinding already, so that one more panic aborts it. -/
def innerPopAll (panicking : Bool) (fuel : ℕ) (σ : State E) :
    Except Stop (State E × Exit) := do
  let flag := σ.top
  let σ := { σ with top := none }
  match ← popLoop fuel σ flag with
  | (σ, flag, .unwinding) =>
    match ← unwindFlagDrop fuel σ flag with
    | (σ, .returned) =>
      if panicking then
        return (σ, .aborted)
      else
        return ({ σ with log := σ.log ++ [.unwound] }, .unwinding)
    | stopped => return stopped
  | (σ, flag, .returned) => unwindFlagDrop fuel (reset σ) flag
  | (σ, _, exit) => return (σ, exit)

/-! ## The operations -/

/-- `ExitStack::slot`. -/
def slot (σ : State E) (T : PinSlot E.link) : Except Stop (State E × Option (Slot E.link)) := do
  match ← Unsync.bumpBox E.build E.memory.storage σ.index T.ty with
  | (index, .error _) => return ({ σ with index := index }, none)
  | (index, .ok value) => return ({ σ with index := index }, some ⟨value, T⟩)

/-- `Slot::pin`. -/
def pin (σ : State E) (self : Slot E.link) (value : V) : State E :=
  let link := σ.top
  { σ with
    memory := writeEntry σ.memory self.value ⟨self.type, link, some value⟩
    top := (nonNullNew self.value).map fun ptr => ⟨ptr, self.type⟩
    log := σ.log ++ [.pinned ⟨self.value, self.type⟩ value] }

/-- `ExitStack::pop_all`, and what `Drop for ExitStack` does.  It needs the stack
for itself, so no slot is held any longer. -/
def popAll (panicking : Bool) (fuel : ℕ) (σ : State E) : Except Stop (State E × Exit) :=
  innerPopAll panicking fuel { σ with slots := [] }

/-- `ExitStack::set`. -/
def set (panicking : Bool) (fuel : ℕ) (σ : State E) (val : V) :
    Except Stop (State E × Exit) := do
  match ← popAll panicking fuel σ with
  | (σ, .returned) =>
    match ← slot σ E.mem with
    | (σ, some self) => return (pin σ self val, .returned)
    | (_, none) => .error (.panic ("internal error: entered unreachable code: " ++
        "The memory can allocate at least one slot"))
  -- the unwinding drops the argument
  | (σ, .unwinding) => return (σ, if E.panics val then .aborted else .unwinding)
  | stopped => return stopped

/-- What the user of a stack may do. -/
inductive Op (E : Setup w V) where
  | slot (T : PinSlot E.link)
  /-- Give up the `i`-th slot held. -/
  | abandon (i : ℕ)
  /-- Pin a value into the `i`-th slot held. -/
  | pin (i : ℕ) (value : V)
  | popAll (panicking : Bool)
  | set (panicking : Bool) (val : V)
  | drop (panicking : Bool)

/-- One operation. -/
def exec (fuel : ℕ) (σ : State E) : Op E → Except Stop (State E × Exit)
  | .slot T => do
    match ← slot σ T with
    | (σ, some self) => return ({ σ with slots := σ.slots ++ [self] }, .returned)
    | (σ, none) => return (σ, .returned)
  | .abandon i => .ok ({ σ with slots := σ.slots.eraseIdx i }, .returned)
  | .pin i value =>
    match σ.slots[i]? with
    | some self => .ok (pin { σ with slots := σ.slots.eraseIdx i } self value, .returned)
    | none => .ok (σ, .returned)
  | .popAll panicking => popAll panicking fuel σ
  | .set panicking val => set panicking fuel σ val
  | .drop panicking => popAll panicking fuel { σ with alive := false }

/-- What the language lets the user do: the stack is there, and so is the slot. -/
def Enabled (σ : State E) : Op E → Prop
  | .abandon i => σ.alive = true ∧ i < σ.slots.length
  | .pin i _ => σ.alive = true ∧ i < σ.slots.length
  | _ => σ.alive = true

/-- What the operation does with enough fuel. -/
def Ends (σ : State E) (op : Op E) (τ : State E) (exit : Exit) : Prop :=
  ∃ n, ∀ fuel, n ≤ fuel → exec fuel σ op = .ok (τ, exit)

/-- `ExitStack::new`. -/
def new (E : Setup w V) : State E where
  index := 0
  top := none
  memory := Objects.empty
  slots := []
  alive := true
  log := []

/-- All runs of one stack; an operation left by unwinding may be followed by more. -/
def machine (E : Setup w V) : Machine (State E) (Op E) where
  init σ := σ = new E
  step σ op τ := Enabled σ op ∧ (Ends σ op τ .returned ∨ Ends σ op τ .unwinding)

end ExitStack
end StaticAlloc
