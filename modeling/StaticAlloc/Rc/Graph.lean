import StaticAlloc.Rc.Reentrant
import StaticAlloc.Library.Ledgers
import Mathlib.Algebra.BigOperators.Group.Finset.Basic
import Mathlib.Algebra.Order.Group.Multiset
import Mathlib.Logic.Function.Basic

/-!
# Values that own reference counts

The value in an `Rc` box may own handles: `Rc`s and `Weak`s of other boxes, of boxes that lead back
to this one, and of its own box.  A program with such values has a graph in its memory, whose nodes
are boxes and whose edges are handles.  `Graph` is the state of such a program: its boxes, each of
them a `World` as before, and who has the handles.  The program has some of them itself, others are
owned by the values it has and by those that are stored in boxes, and some were forgotten.

When the last `Rc` of a box is dropped the destructor of its value runs, and then the handles the
value owns are dropped one after the other; so one drop may end in the drop of many values.  What
is still to be done in the calls that are running is the `stack`: handles to drop, and boxes whose
value is gone when all before it is done.  Destructors are code of the program, and may do what the
program can do at any time; they may also take handles out of their value, which are not dropped
then (`Act.rescue`).

Memory that `Weak::try_unwrap` hands back is used for new boxes, for values of any type.
-/

namespace StaticAlloc
namespace Rc

open Toolkit

variable {w : ℕ} {I H : Type}

/-! ## Handles and values -/

/-- `Rc` or `Weak`. -/
inductive HandleKind where
  | rc
  | weak
  deriving DecidableEq, Repr

/-- A handle of a box. -/
structure Handle (I H : Type) where
  kind : HandleKind
  box : I
  name : H
  deriving DecidableEq

/-- A value, which is told from all the others by a number, and the handles it owns, in the order of
its fields. -/
structure Val (I H : Type) where
  id : ℕ
  fields : List (Handle I H)
  deriving DecidableEq

/-- What is to be done in a call that is running. -/
inductive Task (I H : Type) where
  | drop (h : Handle I H)
  /-- the destructor of the value in a box returns -/
  | finish (i : I)
  deriving DecidableEq

/-- The drop glue: the fields are dropped in order. -/
def Val.drops (v : Val I H) : List (Task I H) := v.fields.map .drop

/-! ## Who owns which handles -/

def Val.handles (v : Val I H) : Multiset (Handle I H) := v.fields

/-- A handle that is to be dropped is owned by the call that is to drop it. -/
def Task.handles : Task I H → Multiset (Handle I H)
  | .drop h => {h}
  | .finish _ => 0

/-- A stored value owns its fields.  Once its destructor runs, they are on the stack. -/
def Slot.handles : Slot (Val I H) → Multiset (Handle I H)
  | .stored v => v.handles
  | .dropping _ | .gone => 0

/-! ## The state of a program -/

/-- The boxes, and who has the handles. -/
structure Graph {w : ℕ} {I : Type} (B : I → Types w) (H : Type) where
  boxes : Finset I
  world : (i : I) → World (B i) H (Val I H)
  /-- the handles of the program -/
  hands : Multiset (Handle I H)
  /-- the values of the program -/
  values : List (Val I H)
  forgotten : Multiset (Handle I H)
  stack : List (Task I H)
  /-- memory without a box -/
  free : List (UninitView (Ty.unit w))
  /-- the values that were ever made, those whose destructor was started, and those that were taken
  apart -/
  (made dropped apart : Multiset ℕ)

/-- A call on a handle. -/
inductive Call (H : Type) where
  | clone (new : H)
  | downgrade (new : H)
  | tryUnwrap (new : H)
  | intoRaw
  | weakClone (new : H)
  | upgrade (new : H)
  | weakTryUnwrap
  deriving DecidableEq

namespace Call

/-- The kind of the handle. -/
def kind : Call H → HandleKind
  | clone _ | downgrade _ | tryUnwrap _ | intoRaw => .rc
  | weakClone _ | upgrade _ | weakTryUnwrap => .weak

/-- The call takes the handle and not a reference to it. -/
def Consumes : Call H → Prop
  | tryUnwrap _ | intoRaw | weakTryUnwrap => True
  | _ => False

/-- The operation on the box. -/
def op {V : Type} (h : H) : Call H → Op H V
  | clone new => .clone h new
  | downgrade new => .downgrade h new
  | tryUnwrap new => .tryUnwrap h new
  | intoRaw => .intoRaw h
  | weakClone new => .weakClone h new
  | upgrade new => .upgrade h new
  | weakTryUnwrap => .weakTryUnwrap h

/-- The new handle has a new name, and there are fewer than `usize::MAX`. -/
def Fresh {B : Types w} {V : Type} (W : World B H V) : Call H → Prop
  | clone new | upgrade new => new ∉ W.rcs ∧ W.Room
  | downgrade new | weakClone new => new ∉ W.weaks ∧ W.Room
  | tryUnwrap new => new ∉ W.weaks
  | intoRaw | weakTryUnwrap => True

end Call

/-- What a program does.  Values and pieces of memory it has are referred to by their place. -/
inductive Act (I H : Type) where
  /-- make a value of handles -/
  | make (id : ℕ) (fields : List (Handle I H))
  /-- take a value apart -/
  | takeApart (k : ℕ)
  | dropValue (k : ℕ)
  /-- `Rc::new` in the `m`-th piece of memory -/
  | new (i : I) (m k : ℕ) (h : H)
  | call (h : Handle I H) (c : Call H)
  /-- `mem::replace` on what `Rc::get_mut` returns -/
  | getMut (h : Handle I H) (k : ℕ)
  | fromRaw (i : I) (new : H)
  /-- `RefCell::replace` on the value, or a write to what `Rc::into_raw` returned -/
  | replace (i : I) (k : ℕ)
  | drop (h : Handle I H)
  /-- `mem::forget` -/
  | forget (h : Handle I H)
  /-- a destructor takes a handle out of its value -/
  | rescue (h : Handle I H)
  /-- the running call goes on -/
  | work

namespace Graph

variable {B : I → Types w} [DecidableEq I] [DecidableEq H]

/-- The handles that are not in a box: those of the program and of its values, those that the
running calls will drop, and those forgotten. -/
def outside (σ : Graph B H) : Multiset (Handle I H) :=
  σ.hands + σ.forgotten + holdings Val.handles (σ.values : Multiset (Val I H)) +
    holdings Task.handles (σ.stack : Multiset (Task I H))

/-- The handles that the values in boxes own. -/
def inside (σ : Graph B H) : Multiset (Handle I H) :=
  ∑ i ∈ σ.boxes, (σ.world i).box.val.handles

/-- One box is replaced. -/
def setWorld (σ : Graph B H) (i : I) (W : World (B i) H (Val I H)) : Graph B H :=
  { σ with world := Function.update σ.world i W }

/-- A call on a handle has returned. -/
def conclude (σ : Graph B H) (h : Handle I H) (c : Call H) (W : World (B h.box) H (Val I H)) :
    Reply (B h.box) (Val I H) → Graph B H × Bool
  | .refused => (σ, false)
  | .value v =>
    match c with
    | .tryUnwrap new => ({ σ.setWorld h.box W with
        hands := ⟨.weak, h.box, new⟩ ::ₘ σ.hands.erase h, values := v :: σ.values }, true)
    | _ => (σ, false)
  | .raw _ => ({ σ.setWorld h.box W with hands := σ.hands.erase h }, true)
  | .memory m =>
    ({ σ.setWorld h.box W with hands := σ.hands.erase h, free := m :: σ.free }, true)
  | .done =>
    match c with
    | .clone new | .upgrade new =>
      ({ σ.setWorld h.box W with hands := ⟨.rc, h.box, new⟩ ::ₘ σ.hands }, true)
    | .downgrade new | .weakClone new =>
      ({ σ.setWorld h.box W with hands := ⟨.weak, h.box, new⟩ ::ₘ σ.hands }, true)
    | _ => (σ, false)

/-- The running call goes on: `Rc::drop` or `Weak::drop` of a field, or the end of a destructor. -/
def work (b : Build) (σ : Graph B H) : Except Stop (Graph B H × Bool) :=
  match σ.stack with
  | [] => .ok (σ, false)
  | .drop ⟨.rc, i, n⟩ :: rest => do
    let (W, _) ← (σ.world i).exec b (.drop n)
    match W.box.val with
    | .dropping v =>
      -- the user's part of the destructor, and then the drop glue
      .ok ({ σ.setWorld i W with
        stack := v.drops ++ .finish i :: rest, dropped := v.id ::ₘ σ.dropped }, true)
    | _ => .ok ({ σ.setWorld i W with stack := rest }, true)
  | .drop ⟨.weak, i, n⟩ :: rest => do
    let (W, _) ← (σ.world i).exec b (.weakDrop n)
    .ok ({ σ.setWorld i W with stack := rest }, true)
  | .finish i :: rest => do
    let (W, _) ← (σ.world i).exec b .dropEnd
    .ok ({ σ.setWorld i W with stack := rest }, true)

/-- One act: the state after it, and whether it was granted. -/
def exec (b : Build) (σ : Graph B H) : Act I H → Except Stop (Graph B H × Bool)
  | .make id fields => .ok ({ σ with
      hands := σ.hands - fields, values := ⟨id, fields⟩ :: σ.values, made := id ::ₘ σ.made }, true)
  | .takeApart k =>
    match σ.values[k]? with
    | none => .ok (σ, false)
    | some v => .ok ({ σ with
        hands := v.fields + σ.hands, values := σ.values.eraseIdx k
        apart := v.id ::ₘ σ.apart }, true)
  | .dropValue k =>
    match σ.values[k]? with
    | none => .ok (σ, false)
    | some v => .ok ({ σ with
        values := σ.values.eraseIdx k, stack := v.drops ++ σ.stack
        dropped := v.id ::ₘ σ.dropped }, true)
  | .new i m k h =>
    match σ.free[m]?, σ.values[k]? with
    | some memory, some v => do
      let W ← Rc.new (B i) v memory h
      .ok ({ σ.setWorld i W with
        boxes := insert i σ.boxes, hands := ⟨.rc, i, h⟩ ::ₘ σ.hands
        values := σ.values.eraseIdx k, free := σ.free.eraseIdx m }, true)
    | _, _ => .ok (σ, false)
  | .call h c => do
    let (W, r) ← (σ.world h.box).exec b (c.op h.name)
    .ok (σ.conclude h c W r)
  | .getMut h k =>
    match σ.values[k]? with
    | none => .ok (σ, false)
    | some v => do
      match ← (σ.world h.box).exec b (.getMut h.name v) with
      | (_, .refused) => .ok (σ, false)
      | (W, _) => do
        let u ← (σ.world h.box).box.read
        .ok ({ σ.setWorld h.box W with values := u :: σ.values.eraseIdx k }, true)
  | .fromRaw i new => do
    let v ← (σ.world i).box.read
    let (W, _) ← (σ.world i).exec b (.fromRaw v new)
    .ok ({ σ.setWorld i W with hands := ⟨.rc, i, new⟩ ::ₘ σ.hands }, true)
  | .replace i k =>
    match σ.values[k]? with
    | none => .ok (σ, false)
    | some v => do
      let u ← (σ.world i).box.read
      .ok ({ σ.setWorld i { σ.world i with box := { (σ.world i).box with val := .stored v } } with
        values := u :: σ.values.eraseIdx k }, true)
  | .drop h => .ok ({ σ with hands := σ.hands.erase h, stack := .drop h :: σ.stack }, true)
  | .forget h => .ok ({ σ with
      hands := σ.hands.erase h, forgotten := h ::ₘ σ.forgotten }, true)
  | .rescue h => .ok ({ σ with hands := h ::ₘ σ.hands, stack := σ.stack.erase (.drop h) }, true)
  | .work => σ.work b

/-- Who may do what.  The program uses the handles, the values and the memory it has; to a handle
that a value owns, wherever the value is, it has a reference.  It makes a handle only if the box has
fewer than `usize::MAX` then, those that were forgotten included, and a box only in memory that
fits.  It does not ask for the memory of a box through the only handle while the destructor of the
value runs. -/
def Enabled (σ : Graph B H) : Act I H → Prop
  | .make _ fields => (fields : Multiset (Handle I H)) ≤ σ.hands
  | .takeApart k | .dropValue k => k < σ.values.length
  | .new i m k _ => i ∉ σ.boxes ∧ k < σ.values.length ∧
      ∃ memory, σ.free[m]? = some memory ∧ fits memory.ptr memory.len (B i).box.toLayout
  | .call h c => h ∈ σ.outside + σ.inside ∧ (c.Consumes → h ∈ σ.hands) ∧ h.kind = c.kind ∧
      c.Fresh (σ.world h.box) ∧ Outlived (σ.world h.box) (c.op h.name)
  | .getMut h k => h ∈ σ.hands ∧ h.kind = .rc ∧ k < σ.values.length
  | .fromRaw i _ => i ∈ σ.boxes ∧ (σ.world i).raw ≠ none
  | .replace i k => k < σ.values.length ∧
      ((∃ n, ⟨.rc, i, n⟩ ∈ σ.outside + σ.inside) ∨ (i ∈ σ.boxes ∧ (σ.world i).raw ≠ none))
  | .drop h | .forget h => h ∈ σ.hands
  | .rescue h => .drop h ∈ σ.stack
  | .work => σ.stack ≠ []

/-- The memory a program begins with. -/
def start (world : (i : I) → World (B i) H (Val I H)) (free : List (UninitView (Ty.unit w))) :
    Graph B H where
  boxes := ∅
  world := world
  hands := 0
  values := []
  forgotten := 0
  stack := []
  free := free
  made := 0
  dropped := 0
  apart := 0

/-- All programs that begin with this memory. -/
def machine (B : I → Types w) (H : Type) [DecidableEq H] (b : Build)
    (free : List (UninitView (Ty.unit w))) : Machine (Graph B H) (Act I H × Bool) where
  init σ := ∃ world, σ = start world free
  step σ l σ' := σ.Enabled l.1 ∧ σ.exec b l.1 = .ok (σ', l.2)

end Graph

end Rc
end StaticAlloc
