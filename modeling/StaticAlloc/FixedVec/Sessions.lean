import StaticAlloc.FixedVec.Panics
import StaticAlloc.FixedVec.Ranges

/-!
# Programs with vectors, iterators and panics

A program may have many vectors over one memory, drain several of them at the same time while it
uses the others, forget iterators and vectors, and go on after a panic of a destructor or of an
iterator that a vector was filled from.  `Session` is the state of such a program: a shelf of
vectors, and for some of them the iterator that borrows the vector.  A vector that is being drained
cannot be used otherwise.  When the drop of a vector panics twice the process aborts, and the
program can do nothing any more.

`Books` is the same without memory: lists within a capacity, for each list that is being drained
what is left of the range and what was behind it, and the elements that are lost.  Only an act that
`Leaks` loses any: when something is forgotten, when the process aborts, or when a destructor
panics while an iterator is dropped.  Every element that entered is in a list, in an iterator, was
returned, was dropped or is lost, and it is one of these only (`Books.Conserved`).
-/

namespace StaticAlloc
namespace FixedVec

open Toolkit

variable {w : ℕ} {α I : Type}

/-! ## Sessions -/

/-- The vectors of a program, and the iterators that borrow them. -/
structure Session (T : Ty w) (I α : Type) where
  shelf : Shelf T I α
  drains : I → Option (Drain T)

/-- What a program may do. -/
inductive Act (I α : Type) where
  /-- An operation in which nothing of the user's panics. -/
  | op (op : Op I α)
  | truncate (i : I) (panics : α → Bool) (len : ℕ)
  | fill (i : I) (iter : Source (Polled α))
  | dropVec (i : I) (panics : α → Bool)
  | forgetVec (i : I)
  | drain (i : I) (range : Bound × Bound)
  | call (i : I) (c : Drain.Call)
  | dropDrain (i : I) (panics : α → Bool)
  | forgetDrain (i : I)

/-- What it gets to know. -/
inductive Answer (α : Type) where
  | reply (r : Reply α)
  /-- a panic of the user's code -/
  | panicked
  | aborted
  | called (r : Drain.Reply α)

/-- The answer of an act in which the user's code may have panicked. -/
def Answer.ofPanic (panicked : Bool) : Answer α := if panicked then .panicked else .reply .done

namespace Session

variable [DecidableEq I] {T : Ty w}

/-- The shelf is another one. -/
def withShelf (s : Session T I α) (σ : Shelf T I α) : Session T I α := { s with shelf := σ }

/-- The iterator over a vector is another one, or gone. -/
def setDrain (s : Session T I α) (i : I) (d : Option (Drain T)) : Session T I α :=
  { s with drains := Function.update s.drains i d }

/-- A vector ends. -/
def endVec (s : Session T I α) (i : I) (dropped : List α) : Session T I α :=
  s.withShelf ({ s.shelf with live := s.shelf.live.erase i }.logDropped dropped)

/-- One act. -/
def exec (build : Build) (s : Session T I α) : Act I α → Session T I α × Answer α
  | .op op => (s.withShelf (s.shelf.exec op).1, .reply (s.shelf.exec op).2)
  | .truncate i panics len =>
    match (s.shelf.vec i).truncate s.shelf.mem panics len with
    | .error e => (s, .reply (.stopped e))
    | .ok (v, dropped, panicked) =>
      (s.withShelf ((s.shelf.setVec i v).logDropped dropped), .ofPanic panicked)
  | .fill i iter =>
    let (m, v, items, panicked) := (s.shelf.vec i).fillUnwinding s.shelf.mem iter
    (s.withShelf ({ s.shelf with mem := m, entered := s.shelf.entered + items }.setVec i v),
      .ofPanic panicked)
  | .dropVec i panics =>
    match (s.shelf.vec i).dropUnwinding s.shelf.mem panics false with
    | .error e => (s, .reply (.stopped e))
    | .ok (dropped, .aborted) =>
      (⟨{ s.shelf with live := ∅ }.logDropped dropped, fun _ => none⟩, .aborted)
    | .ok (dropped, .unwinding) => (s.endVec i dropped, .panicked)
    | .ok (dropped, .returned) => (s.endVec i dropped, .reply .done)
  | .forgetVec i => (s.endVec i [], .reply .done)
  | .drain i range =>
    match (s.shelf.vec i).drain build range with
    | .error e => (s, .reply (.stopped e))
    | .ok (v, d) => ((s.withShelf (s.shelf.setVec i v)).setDrain i (some d), .reply .done)
  | .call i c =>
    match s.drains i with
    | none => (s, .reply .done)
    | some d =>
      match d.exec s.shelf.mem c with
      | .error e => (s, .reply (.stopped e))
      | .ok (d, r) =>
        ((s.withShelf { s.shelf with
          returned := s.shelf.returned + (Drain.yielded [r] : List α) }).setDrain i (some d),
          .called r)
  | .dropDrain i panics =>
    match s.drains i with
    | none => (s, .reply .done)
    | some d =>
      match d.drop s.shelf.mem panics (s.shelf.vec i) with
      | .error e => (s, .reply (.stopped e))
      | .ok (m, v, dropped, panicked) =>
        ((s.withShelf (({ s.shelf with mem := m }.setVec i v).logDropped dropped)).setDrain i none,
          .ofPanic panicked)
  | .forgetDrain i => (s.setDrain i none, .reply .done)

/-- A vector that nobody borrows. -/
def Free (s : Session T I α) (i : I) : Prop :=
  i ∈ s.shelf.live ∧ (∀ j ∈ s.shelf.live, i ∉ s.shelf.lenders j) ∧ s.drains i = none

/-- What the borrows allow. -/
def Enabled (s : Session T I α) : Act I α → Prop
  | .op op => s.shelf.Enabled op ∧ s.drains op.target = none
  | .truncate i _ _ | .fill i _ | .dropVec i _ | .forgetVec i | .drain i _ => s.Free i
  | .call i _ | .dropDrain i _ | .forgetDrain i => s.drains i ≠ none

/-- All programs with one backing slice view, in a memory with any contents. -/
def machine (build : Build) (T : Ty w) (I α : Type) [DecidableEq I] :
    Machine (Session T I α) (Act I α × Answer α) where
  init s := ∃ σ, (Shelf.machine T I α).init σ ∧ s = ⟨σ, fun _ => none⟩
  step s l s' := s.Enabled l.1 ∧ s.exec build l.1 = (s', l.2)

end Session

/-! ## Books -/

/-- What an iterator has not yielded, and the elements behind its range. -/
structure Draining (α : Type) where
  left : List α
  tail : List α

namespace Draining

variable (D : Draining α)

/-- The answer to a call. -/
def answer : Drain.Call → Drain.Reply α
  | .next => .item D.left.head?
  | .nextBack => .item D.left.getLast?
  | .asSlice => .slice (D.left.map some)
  | .len => .count D.left.length

/-- What is left after it. -/
def after : Drain.Call → Draining α
  | .next => { D with left := D.left.tail }
  | .nextBack => { D with left := D.left.dropLast }
  | .asSlice | .len => D

/-- The elements of the iterator. -/
def all : Multiset α := D.left + D.tail

/-- What a call yields is taken from what is left. -/
theorem after_perm (c : Drain.Call) :
    D.all = (Drain.yielded [D.answer c] : List α) + (D.after c).all := by
  cases c with
  | next =>
    cases hl : D.left with
    | nil =>
      rw [all, all, answer, after, hl]
      exact (zero_add _).symm
    | cons a l =>
      rw [all, all, answer, after, hl]
      show ((a :: l : List α) : Multiset α) + D.tail = ([a] : List α) + ((l : Multiset α) + D.tail)
      rw [← add_assoc, Multiset.coe_add]
      rfl
  | nextBack =>
    rcases List.eq_nil_or_concat D.left with hl | ⟨l, a, hl⟩
    · rw [all, all, answer, after, hl]
      exact (zero_add _).symm
    · rw [List.concat_eq_append] at hl
      rw [all, all, answer, after, hl, List.getLast?_concat, List.dropLast_concat]
      show ((l ++ [a] : List α) : Multiset α) + D.tail =
        ([a] : List α) + ((l : Multiset α) + D.tail)
      rw [← Multiset.coe_add]
      abel
  | asSlice | len => exact (zero_add _).symm

end Draining

/-- Lists, iterators, and what is lost. -/
structure Books (I α : Type) where
  ledger : Ledger I α
  drains : I → Option (Draining α)
  lost : Multiset α

/-- A range of `len` elements is resolved to the indices from `start` up to `stop`. -/
def Resolved (build : Build) (w len : ℕ) (range : Bound × Bound) (start stop : ℕ) : Prop :=
  startBound build w range.1 = .ok start ∧ endBound build w len range.2 = .ok stop ∧
    start ≤ stop ∧ stop ≤ len

namespace Books

variable [DecidableEq I]

/-- The list of a name. -/
def list (B : Books I α) (i : I) : List α := (B.ledger.vec i).items

/-- The elements of the iterator over a list, if there is one. -/
def inDrain (B : Books I α) (i : I) : Multiset α := (B.drains i).elim 0 Draining.all

/-- The elements in all iterators. -/
def pending (B : Books I α) : Multiset α := B.ledger.live.sum B.inDrain

/-- What an act does with lists. -/
inductive Does (kind : Kind) (build : Build) (w : ℕ) (B : Books I α) :
    Act I α → Answer α → Books I α → Prop where
  | op {op : Op I α} : Does kind build w B (.op op) (.reply (B.ledger.exec kind op).2)
      { B with ledger := (B.ledger.exec kind op).1 }
  /-- The destructors are started from the last element on, up to the first that panics. -/
  | truncate {i : I} {panics : α → Bool} {len : ℕ} {l dropped : List α} :
      l = ((B.list i).drop len).reverse → dropped = started panics l →
      Does kind build w B (.truncate i panics len) (.ofPanic (l.any panics)) { B with
        ledger := { B.ledger with dropped := B.ledger.dropped + dropped }.setVec i
          ((B.ledger.vec i).take ((B.list i).length - dropped.length)) }
  | fill {i : I} {iter : Source (Polled α)} {items : List α} {panicked : Bool} {b : Bounded α} :
      Takes ((B.ledger.vec i).cap - (B.list i).length) iter items panicked →
      b.items = B.list i ++ items → b.cap = (B.ledger.vec i).cap →
      Does kind build w B (.fill i iter) (.ofPanic panicked) { B with
        ledger := { B.ledger with entered := B.ledger.entered + items }.setVec i b }
  | dropVec {i : I} {panics : α → Bool} : (B.list i).countP panics ≤ 1 →
      Does kind build w B (.dropVec i panics) (.ofPanic ((B.list i).any panics)) { B with
        ledger := { B.ledger with
          live := B.ledger.live.erase i, dropped := B.ledger.dropped + (B.list i : List α) } }
  /-- The second destructor that panics is the last one that is started. -/
  | abort {i : I} {panics : α → Bool} {dropped rest : List α} : B.list i = dropped ++ rest →
      dropped.countP panics = 2 →
      Does kind build w B (.dropVec i panics) .aborted
        ⟨{ B.ledger with live := ∅, dropped := B.ledger.dropped + dropped }, fun _ => none,
          B.lost + rest + B.ledger.others i + B.pending⟩
  | forgetVec {i : I} : Does kind build w B (.forgetVec i) (.reply .done)
      ⟨{ B.ledger with live := B.ledger.live.erase i }, B.drains,
        B.lost + (B.list i : List α)⟩
  | drain {i : I} {range : Bound × Bound} {start stop : ℕ} :
      Resolved build w (B.list i).length range start stop →
      Does kind build w B (.drain i range) (.reply .done) { B with
        ledger := B.ledger.setVec i ((B.ledger.vec i).take start)
        drains := Function.update B.drains i
          (some ⟨(B.ledger.vec i).range start stop, (B.list i).drop stop⟩) }
  | drainStops {i : I} {range : Bound × Bound} {msg : String} :
      (∀ start stop, ¬ Resolved build w (B.list i).length range start stop) →
      Does kind build w B (.drain i range) (.reply (.stopped (.panic msg))) B
  | call {i : I} {c : Drain.Call} {D : Draining α} : B.drains i = some D →
      Does kind build w B (.call i c) (.called (D.answer c)) { B with
        ledger := { B.ledger with
          returned := B.ledger.returned + (Drain.yielded [D.answer c] : List α) }
        drains := Function.update B.drains i (some (D.after c)) }
  /-- What is left is dropped, and the tail comes back. -/
  | dropDrain {i : I} {panics : α → Bool} {D : Draining α} {b : Bounded α} :
      B.drains i = some D → D.left.any panics = false →
      b.items = B.list i ++ D.tail → b.cap = (B.ledger.vec i).cap →
      Does kind build w B (.dropDrain i panics) (.reply .done) { B with
        ledger := { B.ledger with dropped := B.ledger.dropped + D.left }.setVec i b
        drains := Function.update B.drains i none }
  /-- A destructor panics: the elements behind that one are lost, and the tail. -/
  | dropDrainPanics {i : I} {panics : α → Bool} {D : Draining α} {rest : List α} :
      B.drains i = some D → D.left.any panics = true → D.left = started panics D.left ++ rest →
      Does kind build w B (.dropDrain i panics) .panicked
        ⟨{ B.ledger with dropped := B.ledger.dropped + started panics D.left },
          Function.update B.drains i none, B.lost + (rest + D.tail)⟩
  | forgetDrain {i : I} {D : Draining α} : B.drains i = some D →
      Does kind build w B (.forgetDrain i) (.reply .done)
        ⟨B.ledger, Function.update B.drains i none, B.lost + D.all⟩

/-- A list that nobody borrows. -/
def Free (B : Books I α) (i : I) : Prop :=
  i ∈ B.ledger.live ∧ (∀ j ∈ B.ledger.live, i ∉ B.ledger.lenders j) ∧ B.drains i = none

/-- The same rules of use as for the vectors. -/
def Enabled (B : Books I α) : Act I α → Prop
  | .op op => B.ledger.Enabled op ∧ B.drains op.target = none
  | .truncate i _ _ | .fill i _ | .dropVec i _ | .forgetVec i | .drain i _ => B.Free i
  | .call i _ | .dropDrain i _ | .forgetDrain i => B.drains i ≠ none

/-- All books that begin with one empty list. -/
def machine (kind : Kind) (build : Build) (w : ℕ) (I α : Type) [DecidableEq I] :
    Machine (Books I α) (Act I α × Answer α) where
  init B := ∃ t, (Ledger.machine kind I α).init t ∧ B = ⟨t, fun _ => none, 0⟩
  step B l B' := B.Enabled l.1 ∧ B.Does kind build w l.1 l.2 B'

end Books

/-- The acts that lose elements. -/
def Leaks (l : Act I α × Answer α) : Prop :=
  match l with
  | (.forgetVec _, _) | (.forgetDrain _, _) | (.dropDrain _ _, .panicked) | (_, .aborted) => True
  | _ => False

/-! ## Nothing is lost but by leaks -/

section Conservation

variable [DecidableEq I] {kind : Kind} {build : Build} {t : Ledger I α}

/-- What was dropped before is only added to. -/
theorem Ledger.exec_dropped (kind : Kind) (t : Ledger I α) (x : Multiset α) (op : Op I α) :
    ({ t with dropped := t.dropped + x } : Ledger I α).exec kind op =
      ({ (t.exec kind op).1 with dropped := (t.exec kind op).1.dropped + x },
        (t.exec kind op).2) := by
  cases op with
  | push i val =>
    rw [exec, exec]
    cases (t.vec i).push val with
    | none => rfl
    | some b => rfl
  | pop i =>
    rw [exec, exec]
    cases (t.vec i).items.getLast? with
    | none => rfl
    | some val => rfl
  | truncate i len | clear i | drop i =>
    simp only [exec, setVec, add_right_comm]
  | fill i iter | shrinkToFit i => rfl
  | extend i iter =>
    simp only [exec]
    cases (iter.pull ((t.vec i).cap - (t.vec i).items.length)).2.next.1 with
    | none => rfl
    | some spill =>
      simp only [setVec, Multiset.cons_add]
  | splitBorrowed i k new | splitAndShrinkTo i k new =>
    simp only [exec]
    split
    · rfl
    · rfl

/-- An operation ends the list it is called on, or adds one, or neither. -/
theorem Ledger.exec_live (kind : Kind) (t : Ledger I α) (op : Op I α) :
    (t.exec kind op).1.live = t.live ∨ (t.exec kind op).1.live = t.live.erase op.target ∨
      ∃ new, op.makes = some new ∧ (t.exec kind op).1.live = insert new t.live := by
  cases op with
  | push i val =>
    rw [exec]
    cases (t.vec i).push val with
    | none => exact .inl rfl
    | some b => exact .inl rfl
  | pop i =>
    rw [exec]
    cases (t.vec i).items.getLast? with
    | none => exact .inl rfl
    | some val => exact .inl rfl
  | truncate i len | clear i | fill i iter | shrinkToFit i => exact .inl rfl
  | extend i iter =>
    simp only [exec]
    cases (iter.pull ((t.vec i).cap - (t.vec i).items.length)).2.next.1 with
    | none => exact .inl rfl
    | some spill => exact .inl rfl
  | drop i => exact .inr (.inl rfl)
  | splitBorrowed i k new | splitAndShrinkTo i k new =>
    simp only [exec]
    split
    · exact .inr (.inr ⟨new, rfl, rfl⟩)
    · exact .inl rfl

namespace Books

variable {B B' : Books I α} {i : I} {act : Act I α} {answer : Answer α}

/-- Every element that entered is in a list or in an iterator, or was returned, or was dropped, or
is lost; and only lists are drained. -/
structure Conserved (B : Books I α) : Prop where
  drains_live : ∀ i, B.drains i ≠ none → i ∈ B.ledger.live
  entered : B.ledger.entered =
    B.ledger.held + B.pending + B.ledger.returned + B.ledger.dropped + B.lost

/-- The elements in all iterators but one. -/
def otherDrains (B : Books I α) (i : I) : Multiset α := (B.ledger.live.erase i).sum B.inDrain

theorem pending_eq (hi : i ∈ B.ledger.live) : B.pending = B.inDrain i + B.otherDrains i :=
  (Finset.add_sum_erase _ _ hi).symm

omit [DecidableEq I] in
theorem inDrain_none (h : B.drains i = none) : B.inDrain i = 0 := by
  rw [inDrain, h]
  rfl

omit [DecidableEq I] in
theorem inDrain_some {D : Draining α} (h : B.drains i = some D) : B.inDrain i = D.all := by
  rw [inDrain, h]
  rfl

/-- The iterator over one list is another one, or gone. -/
theorem pending_of_update {o : Option (Draining α)} (hi : i ∈ B.ledger.live)
    (hlive : B'.ledger.live = B.ledger.live) (hdrains : B'.drains = Function.update B.drains i o) :
    B'.pending = o.elim 0 Draining.all + B.otherDrains i := by
  have hself : B'.inDrain i = o.elim 0 Draining.all := by
    rw [inDrain, hdrains, Function.update_self]
  rw [pending_eq (hlive ▸ hi), hself, otherDrains, hlive]
  refine congrArg _ (Finset.sum_congr rfl fun j hj => ?_)
  rw [inDrain, hdrains, Function.update_of_ne (Finset.ne_of_mem_erase hj), inDrain]

/-- **One list and its iterator change**, and the records account for the change. -/
theorem Conserved.update (h : B.Conserved) (hi : i ∈ B.ledger.live) {b : Bounded α}
    {o : Option (Draining α)} (hlive : B'.ledger.live = B.ledger.live)
    (hvec : B'.ledger.vec = Function.update B.ledger.vec i b)
    (hdrains : B'.drains = Function.update B.drains i o)
    (hbalance : B'.ledger.entered + (B.list i : Multiset α) + B.inDrain i + B.ledger.returned +
        B.ledger.dropped + B.lost =
      B.ledger.entered + b.items + o.elim 0 Draining.all + B'.ledger.returned +
        B'.ledger.dropped + B'.lost) : B'.Conserved where
  drains_live j hj := by
    rw [hlive]
    by_cases hji : j = i
    · rwa [hji]
    · rw [hdrains, Function.update_of_ne hji] at hj
      exact h.drains_live j hj
  entered := by
    have hent := h.entered
    rw [Ledger.held_eq hi, pending_eq hi] at hent
    rw [Ledger.held_of_update hi hlive hvec, pending_of_update hi hlive hdrains]
    refine add_right_cancel (b := (B.list i : Multiset α) + B.inDrain i + B.ledger.returned +
      B.ledger.dropped + B.lost) ?_
    calc B'.ledger.entered + ((B.list i : Multiset α) + B.inDrain i + B.ledger.returned +
          B.ledger.dropped + B.lost)
        = B'.ledger.entered + (B.list i : Multiset α) + B.inDrain i + B.ledger.returned +
          B.ledger.dropped + B.lost := by abel
      _ = B.ledger.entered + b.items + o.elim 0 Draining.all + B'.ledger.returned +
          B'.ledger.dropped + B'.lost := hbalance
      _ = _ := by
        rw [hent]
        show ((B.list i : Multiset α) + _ + _ + _ + _ + _) + _ + _ + _ + _ + _ = _
        abel

/-- A list that nobody drains ends. -/
theorem pending_erase (h : B.drains i = none) :
    (B.ledger.live.erase i).sum B.inDrain = B.pending :=
  Finset.sum_erase _ (inDrain_none h)

/-- **An operation** on a list that is not drained. -/
theorem Conserved.op (h : B.Conserved) {op : Op I α} (hen : B.ledger.Enabled op)
    (hdrain : B.drains op.target = none) :
    ({ B with ledger := (B.ledger.exec kind op).1 } : Books I α).Conserved := by
  have hnone : ∀ new, op.makes = some new → B.drains new = none := fun new hnew =>
    Classical.not_not.mp fun hc => hen.2.2 new hnew (h.drains_live new hc)
  -- for the ledger, what is in iterators or lost might as well be dropped
  have hledger : ({ B.ledger with dropped := B.ledger.dropped + (B.pending + B.lost) } :
      Ledger I α).Conserved := by
    show B.ledger.entered = B.ledger.held + B.ledger.returned +
      (B.ledger.dropped + (B.pending + B.lost))
    rw [h.entered]
    abel
  have hen' : ({ B.ledger with dropped := B.ledger.dropped + (B.pending + B.lost) } :
      Ledger I α).Enabled op := hen
  have hexec := Ledger.exec_conserves kind hledger hen'
  rw [Ledger.exec_dropped] at hexec
  have hpending : ((B.ledger.exec kind op).1.live).sum B.inDrain = B.pending := by
    rcases B.ledger.exec_live kind op with hlive | hlive | ⟨new, hnew, hlive⟩
    · rw [hlive]
      rfl
    · rw [hlive]
      exact pending_erase hdrain
    · rw [hlive]
      exact Finset.sum_insert_of_eq_zero_if_notMem fun _ => inDrain_none (hnone new hnew)
  refine ⟨fun j hj => ?_, ?_⟩
  · have hold := h.drains_live j hj
    rcases B.ledger.exec_live kind op with hlive | hlive | ⟨new, hnew, hlive⟩
    · exact hlive ▸ hold
    · refine hlive ▸ Finset.mem_erase.mpr ⟨?_, hold⟩
      rintro rfl
      exact hj hdrain
    · exact hlive ▸ Finset.mem_insert_of_mem hold
  · show (B.ledger.exec kind op).1.entered = (B.ledger.exec kind op).1.held +
      ((B.ledger.exec kind op).1.live).sum B.inDrain + (B.ledger.exec kind op).1.returned +
      (B.ledger.exec kind op).1.dropped + B.lost
    rw [hpending]
    refine Eq.trans hexec ?_
    show (B.ledger.exec kind op).1.held + (B.ledger.exec kind op).1.returned +
      ((B.ledger.exec kind op).1.dropped + (B.pending + B.lost)) = _
    abel

/-- A list that is not drained ends. -/
theorem Conserved.endVec (h : B.Conserved) (hi : i ∈ B.ledger.live) (hdrain : B.drains i = none)
    (dropped lost : Multiset α) (hitems : dropped + lost = (B.list i : List α)) :
    (⟨{ B.ledger with live := B.ledger.live.erase i, dropped := B.ledger.dropped + dropped },
      B.drains, B.lost + lost⟩ : Books I α).Conserved where
  drains_live j hj := by
    refine Finset.mem_erase.mpr ⟨?_, h.drains_live j hj⟩
    rintro rfl
    exact hj hdrain
  entered := by
    have hpending : (B.ledger.live.erase i).sum B.inDrain = B.pending := pending_erase hdrain
    show B.ledger.entered = B.ledger.others i + (B.ledger.live.erase i).sum B.inDrain +
      B.ledger.returned + (B.ledger.dropped + dropped) + (B.lost + lost)
    rw [h.entered, Ledger.held_eq hi, hpending]
    show ((B.list i : List α) : Multiset α) + _ + _ + _ + _ + _ = _
    rw [← hitems]
    abel

/-- What `truncate` drops is what was at the end of the list. -/
theorem split_started {l dropped : List α} {panics : α → Bool} {len : ℕ}
    (hdropped : dropped = started panics (l.drop len).reverse) :
    (l : Multiset α) = (l.take (l.length - dropped.length) : List α) + dropped := by
  have hprefix : dropped.reverse <:+ l := by
    have hstarted : dropped <+: (l.drop len).reverse := by
      rw [hdropped]
      exact started_isPrefix panics _
    have hrev := List.reverse_suffix.mpr hstarted
    rw [List.reverse_reverse] at hrev
    exact hrev.trans (List.drop_suffix _ _)
  obtain ⟨front, hfront⟩ := hprefix
  have hlength : l.length - dropped.length = front.length := by
    rw [← hfront, List.length_append, List.length_reverse]
    omega
  rw [hlength, ← hfront, List.take_left, ← Multiset.coe_add, Multiset.coe_reverse]

theorem Conserved.truncate (h : B.Conserved) (hi : i ∈ B.ledger.live) {panics : α → Bool} {len : ℕ}
    {dropped : List α} (hdropped : dropped = started panics ((B.list i).drop len).reverse) :
    ({ B with
      ledger := { B.ledger with dropped := B.ledger.dropped + dropped }.setVec i
        ((B.ledger.vec i).take ((B.list i).length - dropped.length)) } :
      Books I α).Conserved := by
  refine h.update hi rfl rfl (Function.update_eq_self i B.drains).symm ?_
  show B.ledger.entered + (B.list i : Multiset α) + B.inDrain i + B.ledger.returned +
    B.ledger.dropped + B.lost = B.ledger.entered +
      ((B.list i).take ((B.list i).length - dropped.length) : List α) + B.inDrain i +
      B.ledger.returned + (B.ledger.dropped + dropped) + B.lost
  rw [split_started hdropped]
  abel

theorem Conserved.fill (h : B.Conserved) (hi : i ∈ B.ledger.live) {items : List α}
    {b : Bounded α} (hitems : b.items = B.list i ++ items) :
    ({ B with ledger := { B.ledger with entered := B.ledger.entered + items }.setVec i b } :
      Books I α).Conserved := by
  refine h.update hi rfl rfl (Function.update_eq_self i B.drains).symm ?_
  show B.ledger.entered + (items : Multiset α) + (B.list i : Multiset α) + B.inDrain i +
    B.ledger.returned + B.ledger.dropped + B.lost = B.ledger.entered + (b.items : Multiset α) +
      B.inDrain i + B.ledger.returned + B.ledger.dropped + B.lost
  rw [hitems, ← Multiset.coe_add]
  abel

/-- The process is aborted: what was not dropped is lost. -/
theorem Conserved.abort (h : B.Conserved) (hi : i ∈ B.ledger.live) {dropped rest : List α}
    (hitems : B.list i = dropped ++ rest) :
    (⟨{ B.ledger with live := ∅, dropped := B.ledger.dropped + dropped }, fun _ => none,
      B.lost + rest + B.ledger.others i + B.pending⟩ : Books I α).Conserved := by
  refine ⟨fun j hj => absurd rfl hj, ?_⟩
  show B.ledger.entered = 0 + 0 + B.ledger.returned + (B.ledger.dropped + dropped) +
    (B.lost + rest + B.ledger.others i + B.pending)
  rw [h.entered, Ledger.held_eq hi]
  show ((B.list i : List α) : Multiset α) + _ + _ + _ + _ + _ = _
  rw [hitems, ← Multiset.coe_add]
  abel

/-- An iterator takes its range and the tail. -/
theorem Conserved.drain (h : B.Conserved) (hi : i ∈ B.ledger.live) (hdrain : B.drains i = none)
    {start stop : ℕ} (hle : start ≤ stop) :
    ({ B with
      ledger := B.ledger.setVec i ((B.ledger.vec i).take start)
      drains := Function.update B.drains i
        (some ⟨(B.ledger.vec i).range start stop, (B.list i).drop stop⟩) } :
      Books I α).Conserved := by
  refine h.update hi rfl rfl rfl ?_
  have hsplit : B.list i = (B.list i).take start ++
      ((B.ledger.vec i).range start stop ++ (B.list i).drop stop) := by
    have hdrop := (B.ledger.vec i).drop_start hle
    exact (hdrop ▸ List.take_append_drop start (B.list i)).symm
  rw [inDrain_none hdrain]
  show B.ledger.entered + (B.list i : Multiset α) + 0 + B.ledger.returned + B.ledger.dropped +
    B.lost = B.ledger.entered + ((B.list i).take start : List α) +
      (((B.ledger.vec i).range start stop : Multiset α) + ((B.list i).drop stop : List α)) +
      B.ledger.returned + B.ledger.dropped + B.lost
  conv_lhs => rw [hsplit, ← Multiset.coe_add, ← Multiset.coe_add]
  abel

section Drain

variable {D : Draining α} (hD : B.drains i = some D)

include hD

omit [DecidableEq I] in
theorem Conserved.live (h : B.Conserved) : i ∈ B.ledger.live := h.drains_live i (by simp [hD])

theorem Conserved.call (h : B.Conserved) (c : Drain.Call) :
    ({ B with
      ledger := { B.ledger with
        returned := B.ledger.returned + (Drain.yielded [D.answer c] : List α) }
      drains := Function.update B.drains i (some (D.after c)) } : Books I α).Conserved := by
  refine h.update (h.live hD) rfl (Function.update_eq_self i B.ledger.vec).symm rfl ?_
  rw [inDrain_some hD, D.after_perm c]
  show B.ledger.entered + (B.list i : Multiset α) + (_ + _) + B.ledger.returned +
    B.ledger.dropped + B.lost = B.ledger.entered + (B.list i : Multiset α) + (D.after c).all +
      (B.ledger.returned + _) + B.ledger.dropped + B.lost
  abel

theorem Conserved.dropDrain (h : B.Conserved) {b : Bounded α}
    (hitems : b.items = B.list i ++ D.tail) :
    ({ B with
      ledger := { B.ledger with dropped := B.ledger.dropped + D.left }.setVec i b
      drains := Function.update B.drains i none } : Books I α).Conserved := by
  refine h.update (h.live hD) rfl rfl rfl ?_
  rw [inDrain_some hD, Draining.all]
  show B.ledger.entered + (B.list i : Multiset α) + (_ + _) + B.ledger.returned +
    B.ledger.dropped + B.lost = B.ledger.entered + (b.items : Multiset α) + 0 +
      B.ledger.returned + (B.ledger.dropped + _) + B.lost
  rw [hitems, ← Multiset.coe_add]
  abel

/-- An iterator is gone: some of its elements are dropped, and the others are lost. -/
theorem Conserved.loseDrain (h : B.Conserved) (dropped lost : Multiset α)
    (hall : D.all = dropped + lost) :
    (⟨{ B.ledger with dropped := B.ledger.dropped + dropped }, Function.update B.drains i none,
      B.lost + lost⟩ : Books I α).Conserved := by
  refine h.update (h.live hD) rfl (Function.update_eq_self i B.ledger.vec).symm rfl ?_
  rw [inDrain_some hD, hall]
  show B.ledger.entered + (B.list i : Multiset α) + (dropped + lost) + B.ledger.returned +
    B.ledger.dropped + B.lost = B.ledger.entered + (B.list i : Multiset α) + 0 +
      B.ledger.returned + (B.ledger.dropped + dropped) + (B.lost + lost)
  abel

end Drain

/-- **Every act accounts for every element.** -/
theorem Does.conserves (h : B.Conserved) (hen : B.Enabled act)
    (hdoes : B.Does kind build w act answer B') : B'.Conserved := by
  cases hdoes with
  | op => exact h.op hen.1 hen.2
  | truncate hl hdropped => exact h.truncate hen.1 (hl ▸ hdropped)
  | fill htakes hitems hcap => exact h.fill hen.1 hitems
  | @dropVec i panics hcount =>
    have hend := h.endVec hen.1 hen.2.2 (B.list i : List α) 0 (add_zero _)
    rwa [add_zero] at hend
  | abort hitems hcount => exact h.abort hen.1 hitems
  | @forgetVec i =>
    have hend := h.endVec hen.1 hen.2.2 0 (B.list i : List α) (zero_add _)
    rwa [add_zero] at hend
  | drain hresolved => exact h.drain hen.1 hen.2.2 hresolved.2.2.1
  | drainStops => exact h
  | call hD => exact h.call hD _
  | dropDrain hD hpanics hitems hcap => exact h.dropDrain hD hitems
  | @dropDrainPanics i panics D rest hD hpanics hrest =>
    refine h.loseDrain hD (started panics D.left) (rest + D.tail) ?_
    rw [Draining.all, ← add_assoc, Multiset.coe_add (started panics D.left) rest, ← hrest]
  | @forgetDrain i D hD =>
    have hlost := h.loseDrain hD 0 D.all (zero_add _).symm
    rwa [add_zero] at hlost

/-- Nothing is lost by an act that does not leak. -/
theorem Does.lost_eq (hdoes : B.Does kind build w act answer B') (hleaks : ¬ Leaks (act, answer)) :
    B'.lost = B.lost := by
  cases hdoes with
  | abort | forgetVec | forgetDrain | dropDrainPanics => exact absurd trivial hleaks
  | op | truncate | fill | dropVec | drain | drainStops | call | dropDrain => rfl

end Books

end Conservation

end FixedVec
end StaticAlloc
