import StaticAlloc.Library.Sinks
import Mathlib.Logic.Function.Basic

/-!
# `Fill`

A container is filled from an iterator until there is no more room in it.  `Fill C T`
lists the implementations for containers with bounded room: a vector and a queue,
which are not to be reallocated, an option, the rest of a slice, which is either
overwritten or swapped with what the items refer to, and a result, which fills the
container in its `Ok`.

`fill` returns the container and what is left of the iterator.  A caller that passed
the iterator by value drops the latter, and `fill_and_keep_tail` passes it by
reference and returns it.  The loop over a result has nothing that bounds it but the
iterator, so it has fuel, and `none` says that the fuel did not last; the other
implementations need none.

`sink` says what there is to fill: when a container is full, as the documentation has
it, and what it is to store one item.  A result is full if it contains an error, or
if the container in `Ok` is full; storing an error makes it that error.
-/

namespace StaticAlloc

open Toolkit Iterator

namespace Fill

variable {α ι μ C T I : Type}

/-! ## The containers -/

/-- `Vec`, and `VecDeque` from its front to its back: the contents, and room for so
many items without a reallocation. -/
structure Buffer (α : Type) where
  items : List α
  capacity : ℕ
  le : items.length ≤ capacity

namespace Buffer

/-- How many items there is room for. -/
def room (v : Buffer α) : ℕ := v.capacity - v.items.length

/-- `Vec::push`, and `VecDeque::push_back`.  Beyond the capacity there is a
reallocation, of which only as much is said as that the item finds room. -/
def push (v : Buffer α) (item : α) : Buffer α where
  items := v.items ++ [item]
  capacity := max v.capacity (v.items ++ [item]).length
  le := le_max_right _ _

theorem room_push (v : Buffer α) (item : α) (h : v.room ≠ 0) :
    (v.push item).room + 1 = v.room := by
  have hlen : (v.items ++ [item]).length = v.items.length + 1 := List.length_append
  unfold room at h ⊢
  show max v.capacity (v.items ++ [item]).length - (v.items ++ [item]).length + 1 = _
  rw [hlen]
  omega

/-- `for item in iter.take(self.capacity() - self.len()) { self.push(item) }`. -/
def fill [Iterator I α] (v : Buffer α) (it : I) : Buffer α × I := Sink.forTake push v.room v it

end Buffer

/-- `Fill for Vec`. -/
def fillVec [Iterator I α] (v : Buffer α) (it : I) : Buffer α × I := v.fill it

/-- `Fill for VecDeque`. -/
def fillVecDeque [Iterator I α] (v : Buffer α) (it : I) : Buffer α × I := v.fill it

/-- `slice::IterMut`: the elements that were passed, those that were not, and the
memory that items may refer to. -/
structure IterMut (μ α : Type) where
  passed : List α
  rest : List α
  memory : μ

namespace IterMut

/-- Put an item in the place of the next element. -/
def advance (put : μ → α → ι → μ × α) (c : IterMut μ α) (item : ι) : IterMut μ α :=
  match c.rest with
  | [] => c
  | old :: rest =>
    let (memory, new) := put c.memory old item
    ⟨c.passed ++ [new], rest, memory⟩

/-- The loop while `self.len() != 0`. -/
def fillLoop [Iterator I ι] (put : μ → α → ι → μ × α) :
    List α → List α → μ → I → IterMut μ α × I
  | passed, [], memory, it => (⟨passed, [], memory⟩, it)
  | passed, old :: rest, memory, it =>
    match next it with
    | (some item, it) =>
      let (memory, new) := put memory old item
      fillLoop put (passed ++ [new]) rest memory it
    | (none, it) => (⟨passed, old :: rest, memory⟩, it)

/-- Fill the rest of the slice, for the given way to put an item. -/
def fill [Iterator I ι] (put : μ → α → ι → μ × α) (c : IterMut μ α) (it : I) : IterMut μ α × I :=
  fillLoop put c.passed c.rest c.memory it

/-- `*self.next().unwrap() = item`. -/
def assign (_ : Unit) (_ : α) (item : α) : Unit × α := ((), item)

/-- `mem::swap(self.next().unwrap(), item)`, where the item is the place of a value. -/
def swap (memory : ℕ → α) (old : α) (item : ℕ) : (ℕ → α) × α :=
  (Function.update memory item old, memory item)

end IterMut

/-- `Fill<T> for slice::IterMut<'_, T>`. -/
def fillIterMut [Iterator I α] (c : IterMut Unit α) (it : I) : IterMut Unit α × I :=
  c.fill IterMut.assign it

/-- `Fill<&'a mut T> for slice::IterMut<'_, T>`. -/
def fillIterMutSwap [Iterator I ℕ] (c : IterMut (ℕ → α) α) (it : I) : IterMut (ℕ → α) α × I :=
  c.fill IterMut.swap it

/-- `Fill for Option`. -/
def fillOption [Iterator I α] (c : Option α) (it : I) : Option α × I :=
  match c with
  | none => next it
  | some a => (some a, it)

/-- The loop of `Fill for Result`, where `store` is what `container.fill(once(ok))`
makes of the container. -/
def resultLoop {ε : Type} [Iterator I (Except ε T)] (store : C → T → Option C) :
    ℕ → C → I → Option (Except ε C × I)
  | 0, _, _ => none
  | fuel + 1, container, it =>
    match next it with
    | (none, it) => some (.ok container, it)
    | (some (.error err), it) => some (.error err, it)
    | (some (.ok ok), it) =>
      (store container ok).bind fun container => resultLoop store fuel container it

/-- `Fill for Result`. -/
def fillResult {ε : Type} [Iterator I (Except ε T)] (store : C → T → Option C) (fuel : ℕ)
    (c : Except ε C) (it : I) : Option (Except ε C × I) :=
  match c with
  | .ok container => resultLoop store fuel container it
  | .error err => some (.error err, it)

/-- What there is to fill of a result: an error is full, and stored as it is. -/
def resultSink (ε : Type) (K : Sink C T) : Sink (Except ε C) (Except ε T) where
  full
    | .ok c => K.full c
    | .error _ => true
  store
    | .ok c, .ok a => .ok (K.store c a)
    | .ok _, .error err => .error err
    | .error err, _ => .error err

end Fill

/-! ## The implementations -/

open Fill in
/-- The implementations of `Fill<T>` for a container `C` with bounded room. -/
inductive Fill : Type → Type → Type 1 where
  | vec (α : Type) : Fill (Buffer α) α
  | vecDeque (α : Type) : Fill (Buffer α) α
  | option (α : Type) : Fill (Option α) α
  | iterMut (α : Type) : Fill (IterMut Unit α) α
  | iterMutSwap (α : Type) : Fill (IterMut (ℕ → α) α) ℕ
  | result (ε : Type) {C T : Type} (inner : Fill C T) : Fill (Except ε C) (Except ε T)

namespace Fill

variable {C T I : Type}

/-- `Fill::fill`. -/
def fill : {C T : Type} → Fill C T → {I : Type} → [Iterator I T] → ℕ → C → I → Option (C × I)
  | _, _, vec _, _, _, _, c, it => some (fillVec c it)
  | _, _, vecDeque _, _, _, _, c, it => some (fillVecDeque c it)
  | _, _, option _, _, _, _, c, it => some (fillOption c it)
  | _, _, iterMut _, _, _, _, c, it => some (fillIterMut c it)
  | _, _, iterMutSwap _, _, _, _, c, it => some (fillIterMutSwap c it)
  | _, _, result _ inner, _, _, fuel, c, it =>
    fillResult (fun container ok => (inner.fill fuel container (Once.mk (some ok))).map Prod.fst)
      fuel c it

/-- `Fill::fill_and_keep_tail`: a reference to an iterator polls the iterator. -/
def fillAndKeepTail (f : Fill C T) [Iterator I T] (fuel : ℕ) (c : C) (it : I) : Option (C × I) :=
  f.fill fuel c it

/-- What there is to fill. -/
def sink : {C T : Type} → Fill C T → Sink C T
  | _, _, vec _ => ⟨fun v => decide (v.room = 0), Buffer.push⟩
  | _, _, vecDeque _ => ⟨fun v => decide (v.room = 0), Buffer.push⟩
  | _, _, option _ => ⟨Option.isSome, fun _ => some⟩
  | _, _, iterMut _ => ⟨fun c => c.rest.isEmpty, IterMut.advance IterMut.assign⟩
  | _, _, iterMutSwap _ => ⟨fun c => c.rest.isEmpty, IterMut.advance IterMut.swap⟩
  | _, _, result ε inner => resultSink ε inner.sink

end Fill

end StaticAlloc
