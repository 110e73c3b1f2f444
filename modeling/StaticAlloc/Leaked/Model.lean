import StaticAlloc.AllocatorApi.ZeroSize
import StaticAlloc.Library.Objects
import StaticAlloc.Library.Runs

/-!
# Boxes in an arena

A `LeakBox` is a pointer to a value in the memory of an arena.  The box owns the value:
it drops it when it is dropped itself, and gives it up when it is turned into a pointer or
a reference.  The memory is never given back.

Values can own boxes, as the links of the list do that the documentation of `leak_box`
builds.  Dropping a value runs its own destructor and then drops its fields, so the drop
glue follows pointers through the arena.  It runs on fuel here; a call that is still
running when its fuel is spent returns `none`.

The memory holds at each address the value that was written there, until it is moved out or
dropped.  Reading anything else is undefined behaviour, and so is access through a pointer that is
null or not aligned.  Values of a type without bytes are not in the memory at all: a type has at
most one of them, and it is there wherever a pointer to it points.

A program is its variables.  What one holds is its own value, or a pointer with a
meaning (`Kind`); what may be done with which kind is what the signatures and the `unsafe`
contracts of the functions say (`Enabled`).
-/

namespace StaticAlloc
namespace Leaked

open Toolkit

variable {w : ℕ} {τ δ ι : Type} [DecidableEq τ] [DecidableEq ι]

/-! ## Values in memory -/

/-- The types of a program. -/
structure Types (w : ℕ) (τ δ : Type) where
  layout : τ → Ty w
  /-- The data of the value of a type that has no bytes, if it has a value. -/
  only : τ → Option δ

/-- `LeakBox<'_, T>`: a pointer, with the type of what it points to. -/
structure LeakBox (τ : Type) where
  pointer : ℕ
  type : τ
  deriving DecidableEq

/-- A value: its own data, and the fields that are boxes. -/
structure Value (τ δ : Type) where
  type : τ
  data : δ
  boxes : List (LeakBox τ)

/-- What a destructor leaves behind for an observer: the type and the data of the value. -/
abbrev Log (τ δ : Type) := List (τ × δ)

namespace Types

variable (T : Types w τ δ)

/-- `size_of_val`. -/
def sizeOf (v : Value τ δ) : ℕ := (T.layout v.type).size

/-- `core::ptr::read`, and any other access to a value through a pointer to it. -/
def read (m : Objects (Value τ δ)) (b : LeakBox τ) : Except Stop (Value τ δ) :=
  if b.pointer = 0 ∨ ¬ (T.layout b.type).align ∣ b.pointer then
    .error (.undefined "access through an invalid pointer")
  else if (T.layout b.type).size = 0 then
    match T.only b.type with
    | some data => .ok ⟨b.type, data, []⟩
    | none => .error (.undefined "a value of a type without values")
  else
    match (m b.pointer).filter (·.type = b.type) with
    | some v => .ok v
    | none => .error (.undefined "access to what is not a live value")

/-- `core::ptr::write`. -/
def write (m : Objects (Value τ δ)) (pointer : ℕ) (val : Value τ δ) :
    Except Stop (Objects (Value τ δ)) :=
  if pointer = 0 ∨ ¬ (T.layout val.type).align ∣ pointer then
    .error (.undefined "write through an invalid pointer")
  else if T.sizeOf val = 0 then .ok m
  else .ok (m.write T.sizeOf pointer val)

/-- Write a `MaybeUninit` that is not initialized. -/
def clear (m : Objects (Value τ δ)) (pointer : ℕ) (type : τ) : Objects (Value τ δ) :=
  if (T.layout type).size = 0 then m else m.clear T.sizeOf ⟨pointer, (T.layout type).size⟩

/-- The bytes of a value in a box, if it has any. -/
def spans (b : LeakBox τ) : List Span :=
  if (T.layout b.type).size = 0 then [] else [⟨b.pointer, (T.layout b.type).size⟩]

/-- What is left where a value was moved out or dropped. -/
def vacate (m : Objects (Value τ δ)) (b : LeakBox τ) : Objects (Value τ δ) := m.erase (T.spans b)

end Types

/-! ## Drop glue -/

/-- Drop the fields of a value that are boxes, in their order. -/
def dropBoxes (dropInPlace : Objects (Value τ δ) → LeakBox τ →
      Except Stop (Option (Objects (Value τ δ) × Log τ δ))) :
    Objects (Value τ δ) → List (LeakBox τ) →
      Except Stop (Option (Objects (Value τ δ) × Log τ δ))
  | m, [] => .ok (some (m, []))
  | m, b :: boxes => do
    match ← dropInPlace m b with
    | none => return none
    | some (m, log) =>
      match ← dropBoxes dropInPlace m boxes with
      | none => return none
      | some (m, log') => return some (m, log ++ log')

/-- `core::ptr::drop_in_place`, which is what `Drop for LeakBox` does. -/
def dropInPlace (T : Types w τ δ) : ℕ → Objects (Value τ δ) → LeakBox τ →
    Except Stop (Option (Objects (Value τ δ) × Log τ δ))
  | 0, _, _ => .ok none
  | fuel + 1, m, b => do
    let v ← T.read m b
    match ← dropBoxes (dropInPlace T fuel) (T.vacate m b) v.boxes with
    | none => return none
    | some (m, log) => return some (m, (v.type, v.data) :: log)

/-- Drop a value that is not in the memory. -/
def dropValue (T : Types w τ δ) (fuel : ℕ) (m : Objects (Value τ δ)) (v : Value τ δ) :
    Except Stop (Option (Objects (Value τ δ) × Log τ δ)) := do
  match ← dropBoxes (dropInPlace T fuel) m v.boxes with
  | none => return none
  | some (m, log) => return some (m, (v.type, v.data) :: log)

/-! ## The box -/

namespace LeakBox

variable (T : Types w τ δ)

/-- `LeakBox::new_from_raw_non_null`. -/
def newFromRawNonNull (m : Objects (Value τ δ)) (pointer : ℕ) (val : Value τ δ) :
    Except Stop (Objects (Value τ δ) × LeakBox τ) := do
  let m ← T.write m pointer val
  return (m, ⟨pointer, val.type⟩)

/-- `LeakBox::into_raw`. -/
def intoRaw (this : LeakBox τ) : ℕ := this.pointer

/-- `LeakBox::from_raw`, at the type of the pointer. -/
def fromRaw (b : Build) (type : τ) (pointer : ℕ) : Except Stop (LeakBox τ) := do
  debugAssert b (pointer ≠ 0) "Null pointer passed to LeakBox::from_raw"
  if pointer = 0 then
    .error (.undefined "NonNull::new_unchecked(null)")
  else
    return ⟨pointer, type⟩

/-- `LeakBox::from_mut_unchecked`. -/
def fromMutUnchecked (b : Build) (type : τ) (val : ℕ) : Except Stop (LeakBox τ) :=
  fromRaw b type val

/-- `LeakBox::leak`: the reference. -/
def leak (this : LeakBox τ) : ℕ := intoRaw this

/-- `LeakBox::take`. -/
def take (m : Objects (Value τ δ)) (this : LeakBox τ) :
    Except Stop (Objects (Value τ δ) × Value τ δ) := do
  let v ← T.read m this
  return (T.vacate m this, v)

/-- `LeakBox::assume_init`: `MaybeUninit<T>` has the layout of `T`. -/
def assumeInit (this : LeakBox τ) : LeakBox τ := this

/-- `LeakBox::write`. -/
def write (m : Objects (Value τ δ)) (this : LeakBox τ) (val : Value τ δ) :
    Except Stop (Objects (Value τ δ) × LeakBox τ) := do
  let m ← T.write m this.pointer val
  return (m, assumeInit this)

/-- `core::mem::replace` through `DerefMut`. -/
def replace (m : Objects (Value τ δ)) (this : LeakBox τ) (src : Value τ δ) :
    Except Stop (Objects (Value τ δ) × Value τ δ) := do
  let result ← T.read m this
  let m ← T.write m this.pointer src
  return (m, result)

end LeakBox

/-! ## Allocating -/

/-- The level of an arena and the values in its memory. -/
structure Heap (τ δ : Type) where
  consumed : ℕ
  memory : Objects (Value τ δ)

variable (S : Storage w) (T : Types w τ δ)

/-- `BumpView::leak_box`.  Where there is no room the value is dropped. -/
def leakBox (fuel : ℕ) (σ : Heap τ δ) (val : Value τ δ) :
    Except Stop (Option (Heap τ δ × Option (LeakBox τ) × Log τ δ)) := do
  match ← Bump.BumpView.get S σ.consumed (T.layout val.type) with
  | (consumed, some alloc) =>
    let (memory, this) ← LeakBox.newFromRawNonNull T σ.memory alloc.ptr val
    return some (⟨consumed, memory⟩, some this, [])
  | (consumed, none) =>
    match ← dropValue T fuel σ.memory val with
    | none => return none
    | some (memory, log) => return some (⟨consumed, memory⟩, none, log)

/-- `BumpView::leak_box_at`. -/
def leakBoxAt (fuel : ℕ) (σ : Heap τ δ) (val : Value τ δ) (level : Bump.Level) :
    Except Stop (Option (Heap τ δ × Except Bump.Failure (LeakBox τ) × Log τ δ)) := do
  match ← Bump.BumpView.getAt S σ.consumed (T.layout val.type) level with
  | (consumed, .ok alloc) =>
    let (memory, this) ← LeakBox.newFromRawNonNull T σ.memory alloc.ptr val
    return some (⟨consumed, memory⟩, .ok this, [])
  | (consumed, .error failure) =>
    match ← dropValue T fuel σ.memory val with
    | none => return none
    | some (memory, log) => return some (⟨consumed, memory⟩, .error failure, log)

/-- `Bump::leak`: a reference, or the value back. -/
def leak (σ : Heap τ δ) (val : Value τ δ) :
    Except Stop (Heap τ δ × Except (Bump.LeakError (Value τ δ)) (LeakBox τ)) := do
  match ← Bump.BumpView.get S σ.consumed (T.layout val.type) with
  | (consumed, some alloc) =>
    let memory ← T.write σ.memory alloc.ptr val
    return (⟨consumed, memory⟩, .ok ⟨alloc.ptr, val.type⟩)
  | (consumed, none) => return (⟨consumed, σ.memory⟩, .error ⟨val, .exhausted⟩)

/-- `Bump::leak_at`: a reference and the new level, or the value back. -/
def leakAt (σ : Heap τ δ) (val : Value τ δ) (level : Bump.Level) :
    Except Stop (Heap τ δ × Except (Bump.LeakError (Value τ δ)) (LeakBox τ × Bump.Level)) := do
  match ← Bump.BumpView.getAt S σ.consumed (T.layout val.type) level with
  | (consumed, .ok alloc) =>
    let memory ← T.write σ.memory alloc.ptr val
    return (⟨consumed, memory⟩, .ok (⟨alloc.ptr, val.type⟩, alloc.level))
  | (consumed, .error failure) => return (⟨consumed, σ.memory⟩, .error ⟨val, failure⟩)

/-- `BumpView::leak_box` of `MaybeUninit::<T>::uninit()`. -/
def leakUninit (σ : Heap τ δ) (type : τ) : Except Stop (Heap τ δ × Option (LeakBox τ)) := do
  match ← Bump.BumpView.get S σ.consumed (T.layout type) with
  | (consumed, some alloc) =>
    return (⟨consumed, T.clear σ.memory alloc.ptr type⟩, some ⟨alloc.ptr, type⟩)
  | (consumed, none) => return (⟨consumed, σ.memory⟩, none)

/-! ## A program -/

/-- What is known of a pointer. -/
inductive Kind where
  /-- `LeakBox<MaybeUninit<T>>` -/
  | uninit
  /-- `LeakBox<T>` -/
  | boxed
  /-- `*mut T`, from `into_raw` -/
  | raw
  /-- `&mut T` -/
  | reference
  deriving DecidableEq

/-- What a variable holds. -/
inductive Held (τ δ : Type) where
  | value (v : Value τ δ)
  | place (k : Kind) (b : LeakBox τ)

/-- An arena, the variables of a program that uses it, and the destructors that have run. -/
structure State (ι τ δ : Type) where
  heap : Heap τ δ
  vars : ι → Option (Held τ δ)
  log : Log τ δ

/-- What the program may do. -/
inductive Act (ι τ δ : Type) where
  /-- Make a value without fields. -/
  | make (x : ι) (type : τ) (data : δ)
  /-- Drop a value. -/
  | discard (x : ι)
  /-- Move a box into a value, in front of its fields. -/
  | attach (x y : ι)
  /-- Move the first field of a value out of it. -/
  | detach (x y : ι)
  | leakBox (x : ι)
  | leakBoxAt (x : ι) (level : Bump.Level)
  | leak (x : ι)
  | leakAt (x : ι) (level : Bump.Level)
  | leakUninit (x : ι) (type : τ)
  /-- `LeakBox::write(x, y)` -/
  | write (x y : ι)
  /-- Look at the data of a value, through `Deref` if it is in a box. -/
  | read (x : ι)
  /-- `mem::replace(&mut *x, y)`; what was there is in `y` then. -/
  | replace (x y : ι)
  | take (x : ι)
  | drop (x : ι)
  | intoRaw (x : ι)
  | fromRaw (x : ι)
  /-- `LeakBox::leak` -/
  | intoRef (x : ι)
  | fromMutUnchecked (x : ι)
  /-- `mem::forget`; also the end of a reference. -/
  | forget (x : ι)
  | reset

/-- What the program learns from it. -/
inductive Reply (δ : Type) where
  | done
  | refused
  | saw (data : δ)
  deriving DecidableEq

namespace State

/-- A variable is assigned to. -/
def assign (σ : State ι τ δ) (x : ι) (h : Option (Held τ δ)) : State ι τ δ :=
  { σ with vars := Function.update σ.vars x h }

/-- One act; an act that is not enabled does nothing. -/
def exec (b : Build) (fuel : ℕ) (σ : State ι τ δ) :
    Act ι τ δ → Except Stop (Option (State ι τ δ × Reply δ))
  | .make x type data => .ok (some (σ.assign x (some (.value ⟨type, data, []⟩)), .done))
  | .discard x =>
    match σ.vars x with
    | some (.value v) => do
      match ← dropValue T fuel σ.heap.memory v with
      | none => return none
      | some (memory, log) =>
        return some ({ σ.assign x none with
          heap.memory := memory, log := σ.log ++ log }, .done)
    | _ => .ok (some (σ, .done))
  | .attach x y =>
    match σ.vars x, σ.vars y with
    | some (.value v), some (.place .boxed box) =>
      .ok (some ((σ.assign y none).assign x
        (some (.value { v with boxes := box :: v.boxes })), .done))
    | _, _ => .ok (some (σ, .done))
  | .detach x y =>
    match σ.vars x with
    | some (.value ⟨type, data, box :: boxes⟩) =>
      .ok (some ((σ.assign x (some (.value ⟨type, data, boxes⟩))).assign y
        (some (.place .boxed box)), .done))
    | _ => .ok (some (σ, .done))
  | .leakBox x =>
    match σ.vars x with
    | some (.value v) => do
      match ← Leaked.leakBox S T fuel σ.heap v with
      | none => return none
      | some (heap, some this, log) =>
        return some ({ σ.assign x (some (.place .boxed this)) with
          heap := heap, log := σ.log ++ log }, .done)
      | some (heap, none, log) =>
        return some ({ σ.assign x none with heap := heap, log := σ.log ++ log }, .refused)
    | _ => .ok (some (σ, .done))
  | .leakBoxAt x level =>
    match σ.vars x with
    | some (.value v) => do
      match ← Leaked.leakBoxAt S T fuel σ.heap v level with
      | none => return none
      | some (heap, .ok this, log) =>
        return some ({ σ.assign x (some (.place .boxed this)) with
          heap := heap, log := σ.log ++ log }, .done)
      | some (heap, .error _, log) =>
        return some ({ σ.assign x none with heap := heap, log := σ.log ++ log }, .refused)
    | _ => .ok (some (σ, .done))
  | .leak x =>
    match σ.vars x with
    | some (.value v) => do
      match ← Leaked.leak S T σ.heap v with
      | (heap, .ok this) =>
        return some ({ σ.assign x (some (.place .reference this)) with heap := heap }, .done)
      | (heap, .error err) =>
        return some ({ σ.assign x (some (.value err.val)) with heap := heap }, .refused)
    | _ => .ok (some (σ, .done))
  | .leakAt x level =>
    match σ.vars x with
    | some (.value v) => do
      match ← Leaked.leakAt S T σ.heap v level with
      | (heap, .ok (this, _)) =>
        return some ({ σ.assign x (some (.place .reference this)) with heap := heap }, .done)
      | (heap, .error err) =>
        return some ({ σ.assign x (some (.value err.val)) with heap := heap }, .refused)
    | _ => .ok (some (σ, .done))
  | .leakUninit x type => do
    match ← Leaked.leakUninit S T σ.heap type with
    | (heap, some this) =>
      return some ({ σ.assign x (some (.place .uninit this)) with heap := heap }, .done)
    | (heap, none) => return some ({ σ with heap := heap }, .refused)
  | .write x y =>
    match σ.vars x, σ.vars y with
    | some (.place .uninit this), some (.value v) => do
      let (memory, this) ← LeakBox.write T σ.heap.memory this v
      return some ({ (σ.assign y none).assign x (some (.place .boxed this)) with
        heap.memory := memory }, .done)
    | _, _ => .ok (some (σ, .done))
  | .read x =>
    match σ.vars x with
    | some (.value v) => .ok (some (σ, .saw v.data))
    | some (.place _ this) => do
      let v ← T.read σ.heap.memory this
      return some (σ, .saw v.data)
    | none => .ok (some (σ, .done))
  | .replace x y =>
    match σ.vars x, σ.vars y with
    | some (.place _ this), some (.value v) => do
      let (memory, old) ← LeakBox.replace T σ.heap.memory this v
      return some ({ σ.assign y (some (.value old)) with heap.memory := memory }, .done)
    | _, _ => .ok (some (σ, .done))
  | .take x =>
    match σ.vars x with
    | some (.place _ this) => do
      let (memory, v) ← LeakBox.take T σ.heap.memory this
      return some ({ σ.assign x (some (.value v)) with heap.memory := memory }, .done)
    | _ => .ok (some (σ, .done))
  | .drop x =>
    match σ.vars x with
    | some (.place _ this) => do
      match ← dropInPlace T fuel σ.heap.memory this with
      | none => return none
      | some (memory, log) =>
        return some ({ σ.assign x none with
          heap.memory := memory, log := σ.log ++ log }, .done)
    | _ => .ok (some (σ, .done))
  | .intoRaw x =>
    match σ.vars x with
    | some (.place _ this) =>
      .ok (some (σ.assign x (some (.place .raw ⟨this.intoRaw, this.type⟩)), .done))
    | _ => .ok (some (σ, .done))
  | .fromRaw x =>
    match σ.vars x with
    | some (.place _ this) => do
      let this ← LeakBox.fromRaw b this.type this.pointer
      return some (σ.assign x (some (.place .boxed this)), .done)
    | _ => .ok (some (σ, .done))
  | .intoRef x =>
    match σ.vars x with
    | some (.place _ this) =>
      .ok (some (σ.assign x (some (.place .reference ⟨this.leak, this.type⟩)), .done))
    | _ => .ok (some (σ, .done))
  | .fromMutUnchecked x =>
    match σ.vars x with
    | some (.place _ this) => do
      let this ← LeakBox.fromMutUnchecked b this.type this.pointer
      return some (σ.assign x (some (.place .boxed this)), .done)
    | _ => .ok (some (σ, .done))
  | .forget x => .ok (some (σ.assign x none, .done))
  | .reset => .ok (some ({ σ with heap.consumed := 0 }, .done))

/-- What the types of the functions ask for, and the contracts of those that are `unsafe`. -/
def Enabled (σ : State ι τ δ) : Act ι τ δ → Prop
  | .make x type data =>
    σ.vars x = none ∧ ((T.layout type).size = 0 → T.only type = some data)
  | .discard x | .leakBox x | .leak x => ∃ v, σ.vars x = some (.value v)
  | .leakBoxAt x level | .leakAt x level => (∃ v, σ.vars x = some (.value v)) ∧ level ≤ S.len
  -- a value with a field that is a box has bytes
  | .attach x y => ∃ v box, σ.vars x = some (.value v) ∧ σ.vars y = some (.place .boxed box) ∧
      0 < T.sizeOf v
  | .detach x y => (∃ type data box boxes, σ.vars x = some (.value ⟨type, data, box :: boxes⟩)) ∧
      σ.vars y = none
  | .leakUninit x _ => σ.vars x = none
  | .write x y => ∃ this v, σ.vars x = some (.place .uninit this) ∧
      σ.vars y = some (.value v) ∧ v.type = this.type
  | .read x => (∃ v, σ.vars x = some (.value v)) ∨
      ∃ k this, σ.vars x = some (.place k this) ∧ (k = .boxed ∨ k = .reference)
  | .replace x y => ∃ k this v, σ.vars x = some (.place k this) ∧
      (k = .boxed ∨ k = .reference) ∧ σ.vars y = some (.value v) ∧ v.type = this.type
  | .take x | .drop x | .intoRaw x | .intoRef x => ∃ this, σ.vars x = some (.place .boxed this)
  | .fromRaw x => ∃ this, σ.vars x = some (.place .raw this)
  | .fromMutUnchecked x => ∃ this, σ.vars x = some (.place .reference this)
  | .forget x => σ.vars x ≠ none
  -- nothing that borrows the arena is left
  | .reset => ∀ x h, σ.vars x = some h → ∃ type data, h = .value ⟨type, data, []⟩

/-- The act ends, whatever the fuel, if there is enough of it. -/
def Ends (b : Build) (σ : State ι τ δ) (act : Act ι τ δ) (τ' : State ι τ δ)
    (reply : Reply δ) : Prop :=
  ∃ n, ∀ fuel, n ≤ fuel → σ.exec S T b fuel act = .ok (some (τ', reply))

/-- All runs of a program, on an arena whatever its memory and its level. -/
def machine (b : Build) : Machine (State ι τ δ) (Act ι τ δ × Reply δ) where
  init σ := (∀ x, σ.vars x = none) ∧ σ.log = [] ∧ σ.heap.consumed ≤ S.len
  step σ l τ' := σ.Enabled S T l.1 ∧ σ.Ends S T b l.1 τ' l.2

end State

end Leaked
end StaticAlloc
