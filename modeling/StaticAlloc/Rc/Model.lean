import StaticAlloc.Library.Runs
import StaticAlloc.Uninit.View
import Mathlib.Data.Finset.Card

/-!
# Reference counting in borrowed memory

An `Rc` box is a value and two counters in memory the caller provided.  All
handles of one box carry the same view of that memory, so a state of the box
(`World`) is that view, the contents of the memory, and which handles exist.
Handles are names: an operation that makes a handle says what the new one is
called, and an operation that consumes one removes its name, whether or not its
`Drop` runs.

Between `into_raw` and `from_raw` there is no handle; the caller holds the
memory as an `Uninit<T>` with the value still in it, and may change the value.
`Rc::drop` of the last handle is two steps.  The first moves the counters and
starts the destructor of the value, the second is the end of the destructor; in
between, whoever still has a `Weak` may use it.

The counters are machine words and every `+ 1` and `- 1` on them is the plain
operator, so each operation depends on the build profile, and an overflow is a
panic in one profile and a wrong counter in the other.
-/

namespace StaticAlloc
namespace Rc

open Toolkit

/-- The layout of `RcBox<T>`, a `repr(C)` record of the value and two counters. -/
def boxLayout {w : ℕ} (T usize : Ty w) : Option (Ty w) := do
  let (l, _) ← T.extend usize.toLayout
  let (l, _) ← l.extend usize.toLayout
  some l.padToAlign

/-- The types around one `Rc<T>`. -/
structure Types (w : ℕ) where
  T : Ty w
  usize : Ty w
  box : Ty w
  box_eq : boxLayout T usize = some box

/-- The memory of the value inside a box. -/
inductive Slot (V : Type) where
  /-- initialized -/
  | stored (v : V)
  /-- its destructor is running -/
  | dropping (v : V)
  /-- dropped, or moved out -/
  | gone
  deriving DecidableEq, Repr

/-- `RcBox`. -/
structure RcBox (V : Type) where
  val : Slot V
  strong : ℕ
  weak : ℕ
  deriving DecidableEq, Repr

/-- How a value ended. -/
inductive Fate (V : Type) where
  | dropped (v : V)
  | movedOut (v : V)
  deriving DecidableEq, Repr

variable {w : ℕ} {V H : Type}

namespace RcBox

/-- `Rc::inc_strong`. -/
def incStrong (b : Build) (w : ℕ) (x : RcBox V) : Except Stop (RcBox V) := do
  let val ← addUsize b w x.strong 1
  .ok { x with strong := val }

/-- `Rc::dec_strong`. -/
def decStrong (b : Build) (w : ℕ) (x : RcBox V) : Except Stop (RcBox V) := do
  let val ← subUsize b w x.strong 1
  .ok { x with strong := val }

/-- `Rc::inc_weak` and `Weak::inc_weak`. -/
def incWeak (b : Build) (w : ℕ) (x : RcBox V) : Except Stop (RcBox V) := do
  let val ← addUsize b w x.weak 1
  .ok { x with weak := val }

/-- `Rc::dec_weak` and `Weak::dec_weak`. -/
def decWeak (b : Build) (w : ℕ) (x : RcBox V) : Except Stop (RcBox V) := do
  let val ← subUsize b w x.weak 1
  .ok { x with weak := val }

/-- `Rc::is_unique`. -/
def isUnique (x : RcBox V) : Prop := x.strong = 1 ∧ x.weak = 1

instance (x : RcBox V) : Decidable x.isUnique := inferInstanceAs (Decidable (_ ∧ _))

/-- `Weak::is_unique_to_rc_memory`. -/
def isUniqueToRcMemory (x : RcBox V) : Prop := x.strong = 0 ∧ x.weak = 1

instance (x : RcBox V) : Decidable x.isUniqueToRcMemory := inferInstanceAs (Decidable (_ ∧ _))

/-- The value behind a pointer that the caller may dereference. -/
def read (x : RcBox V) : Except Stop V :=
  match x.val with
  | .stored v => .ok v
  | _ => .error (.undefined "the value is not initialized")

end RcBox

/-- One box and everything that points at it. -/
structure World (B : Types w) (H V : Type) where
  /-- the `inner` of every handle -/
  inner : UninitView B.box
  /-- the contents of the memory -/
  box : RcBox V
  /-- the live `Rc` handles -/
  rcs : Finset H
  /-- the live `Weak` handles -/
  weaks : Finset H
  /-- what `into_raw` returned, until `from_raw` takes it back -/
  raw : Option (UninitView B.T)
  /-- the memory `Weak::try_unwrap` handed back -/
  returned : Option (UninitView (Ty.unit w))
  /-- the ends of the value, latest first -/
  fates : List (Fate V)

/-- The operations, with the handles they are called on and the names of those
they make.  `fromRaw` and `getMut` also say what the caller writes to the value. -/
inductive Op (H V : Type) where
  | clone (h new : H)
  | drop (h : H)
  /-- the destructor that `drop` started returns -/
  | dropEnd
  | downgrade (h new : H)
  | tryUnwrap (h new : H)
  | intoRaw (h : H)
  | fromRaw (v : V) (new : H)
  | getMut (h : H) (v : V)
  | weakClone (h new : H)
  | weakDrop (h : H)
  | upgrade (h new : H)
  | weakTryUnwrap (h : H)

/-- What an operation returns. -/
inductive Reply (B : Types w) (V : Type) where
  | done
  /-- `None`, or `Err` with the handle the operation was given -/
  | refused
  | value (v : V)
  | raw (init : UninitView B.T)
  | memory (mem : UninitView (Ty.unit w))

section

variable {B : Types w} [DecidableEq H] (b : Build)

/-- `Rc::new`; the handle is called `h`. -/
def new (B : Types w) (val : V) (memory : UninitView (Ty.unit w)) (h : H) :
    Except Stop (World B H V) := do
  assert (fits memory.ptr memory.len B.box.toLayout) "Provided memory must fit the inner layout"
  let memory ← unwrapOk (memory.cast B.box)
  .ok {
    inner := memory
    box := ⟨.stored val, 1, 1⟩
    rcs := {h}
    weaks := ∅
    raw := none
    returned := none
    fates := [] }

namespace World

/-- `Rc::into_raw`.  On success the handle is forgotten. -/
def intoRaw (σ : World B H V) (h : H) : Except Stop (World B H V × Reply B V) :=
  if ¬ σ.box.isUnique then .ok (σ, .refused) else do
    let memory := UninitView.fromMemory σ.inner.ptr σ.inner.len σ.inner.nonnull σ.inner.word
    let init ← unwrapOk (memory.cast B.T)
    .ok ({ σ with rcs := σ.rcs.erase h, raw := some init }, .raw init)

/-- `Rc::from_raw`, on what `into_raw` returned. -/
def fromRaw (σ : World B H V) (v : V) (new : H) : Except Stop (World B H V × Reply B V) :=
  match σ.raw with
  | none => .error (.undefined "there is no raw value")
  | some init => do
    debugAssert b (fits init.ptr init.len B.box.toLayout)
      "Provided memory must fit the inner layout"
    let inner ← unwrapOk (init.cast B.box)
    .ok ({ σ with
      inner := inner
      box := { σ.box with val := .stored v }
      rcs := insert new σ.rcs
      raw := none }, .done)

/-- `Rc::try_unwrap`.  On success the handle is forgotten and a `Weak` made. -/
def tryUnwrap (σ : World B H V) (h new : H) : Except Stop (World B H V × Reply B V) :=
  if σ.box.strong ≠ 1 then .ok (σ, .refused) else do
    let box ← σ.box.decStrong b w
    let val ← box.read
    .ok ({ σ with
      box := { box with val := .gone }
      rcs := σ.rcs.erase h
      weaks := insert new σ.weaks
      fates := .movedOut val :: σ.fates }, .value val)

/-- `Rc::downgrade`. -/
def downgrade (σ : World B H V) (new : H) : Except Stop (World B H V × Reply B V) := do
  let box ← σ.box.incWeak b w
  .ok ({ σ with box := box, weaks := insert new σ.weaks }, .done)

/-- `Rc::get_mut`, and what is written through the reference. -/
def getMut (σ : World B H V) (v : V) : Except Stop (World B H V × Reply B V) :=
  if σ.box.isUnique then do
    let _ ← σ.box.read
    .ok ({ σ with box := { σ.box with val := .stored v } }, .done)
  else .ok (σ, .refused)

/-- `Rc::clone`. -/
def clone (σ : World B H V) (new : H) : Except Stop (World B H V × Reply B V) := do
  let box ← σ.box.incStrong b w
  .ok ({ σ with box := box, rcs := insert new σ.rcs }, .done)

/-- `Rc::drop`, up to the point where the destructor of the value starts. -/
def drop (σ : World B H V) (h : H) : Except Stop (World B H V × Reply B V) := do
  let box ← σ.box.decStrong b w
  if box.strong = 0 then do
    let box ← box.decWeak b w
    let val ← box.read
    .ok ({ σ with box := { box with val := .dropping val }, rcs := σ.rcs.erase h }, .done)
  else
    .ok ({ σ with box := box, rcs := σ.rcs.erase h }, .done)

/-- The destructor of the value returns. -/
def dropEnd (σ : World B H V) : Except Stop (World B H V × Reply B V) :=
  match σ.box.val with
  | .dropping v =>
    .ok ({ σ with box := { σ.box with val := .gone }, fates := .dropped v :: σ.fates }, .done)
  | _ => .error (.undefined "no destructor is running")

/-- `Weak::clone`. -/
def weakClone (σ : World B H V) (new : H) : Except Stop (World B H V × Reply B V) := do
  let box ← σ.box.incWeak b w
  .ok ({ σ with box := box, weaks := insert new σ.weaks }, .done)

/-- `Weak::drop`. -/
def weakDrop (σ : World B H V) (h : H) : Except Stop (World B H V × Reply B V) := do
  let box ← σ.box.decWeak b w
  .ok ({ σ with box := box, weaks := σ.weaks.erase h }, .done)

/-- `Weak::upgrade`. -/
def upgrade (σ : World B H V) (new : H) : Except Stop (World B H V × Reply B V) :=
  if σ.box.strong = 0 then .ok (σ, .refused) else do
    let box ← σ.box.incStrong b w
    .ok ({ σ with box := box, rcs := insert new σ.rcs }, .done)

/-- `Weak::try_unwrap`.  The handle goes out of scope at the end. -/
def weakTryUnwrap (σ : World B H V) (h : H) : Except Stop (World B H V × Reply B V) :=
  if ¬ σ.box.isUniqueToRcMemory then .ok (σ, .refused) else do
    let memory := UninitView.fromMemory σ.inner.ptr σ.inner.len σ.inner.nonnull σ.inner.word
    let box ← σ.box.decWeak b w
    .ok ({ σ with
      box := box
      weaks := σ.weaks.erase h
      returned := some memory }, .memory memory)

/-- An operation on the box. -/
def exec (σ : World B H V) : Op H V → Except Stop (World B H V × Reply B V)
  | .clone _ new => σ.clone b new
  | .drop h => σ.drop b h
  | .dropEnd => σ.dropEnd
  | .downgrade _ new => σ.downgrade b new
  | .tryUnwrap h new => σ.tryUnwrap b h new
  | .intoRaw h => σ.intoRaw h
  | .fromRaw v new => σ.fromRaw b v new
  | .getMut _ v => σ.getMut v
  | .weakClone _ new => σ.weakClone b new
  | .weakDrop h => σ.weakDrop b h
  | .upgrade _ new => σ.upgrade b new
  | .weakTryUnwrap h => σ.weakTryUnwrap b h

/-- There may be one more handle, and still fewer than `usize::MAX`. -/
def Room (σ : World B H V) : Prop := σ.rcs.card + σ.weaks.card + 1 < usizeMax w

instance (σ : World B H V) : Decidable σ.Room := inferInstanceAs (Decidable (_ < _))

/-- Who may call what: an operation is called on a live handle of its kind, a new
handle has a new name, and `from_raw` follows `into_raw`. -/
def Enabled (σ : World B H V) : Op H V → Prop
  | .clone h new => h ∈ σ.rcs ∧ new ∉ σ.rcs ∧ σ.Room
  | .drop h => h ∈ σ.rcs
  | .dropEnd => ∃ v, σ.box.val = .dropping v
  | .downgrade h new => h ∈ σ.rcs ∧ new ∉ σ.weaks ∧ σ.Room
  | .tryUnwrap h new => h ∈ σ.rcs ∧ new ∉ σ.weaks
  | .intoRaw h => h ∈ σ.rcs
  | .fromRaw _ _ => σ.raw ≠ none
  | .getMut h _ => h ∈ σ.rcs
  | .weakClone h new => h ∈ σ.weaks ∧ new ∉ σ.weaks ∧ σ.Room
  | .weakDrop h => h ∈ σ.weaks
  | .upgrade h new => h ∈ σ.weaks ∧ new ∉ σ.rcs ∧ σ.Room
  | .weakTryUnwrap h => h ∈ σ.weaks

end World

/-- The life of one box, from `Rc::new` on, with the destructor of its value as
code that may call any of the operations. -/
def machine (B : Types w) (H V : Type) [DecidableEq H] (b : Build) :
    Machine (World B H V) (Op H V) where
  init σ := ∃ val memory h, new B val memory h = .ok σ
  step σ op σ' := σ.Enabled op ∧ ∃ r, σ.exec b op = .ok (σ', r)

end

end Rc
end StaticAlloc
