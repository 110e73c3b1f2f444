import StaticAlloc.FixedVec.Model
import Mathlib.Algebra.BigOperators.Group.Finset.Basic
import Mathlib.Algebra.Order.Group.Multiset
import Mathlib.Tactic.Abel

/-!
# Bounded lists

What a `FixedVec` is for, without its memory: a list that cannot grow past a
capacity.  The bound is a field, so there is no list that breaks it, and the
operations below are those of lists.

The capacity of a vector is what its bytes have room for.  For elements without
bytes it is always `usize::MAX`, and splitting such a vector does not divide the
capacity; that is the one thing about the element type an abstract vector has to
know (`Kind`).

`Ledger` is a family of bounded lists with the same names, the same borrows and
the same records of where the elements went as the vectors of a `Shelf`.  Nothing
is ever lost or doubled in it (`Ledger.exec_conserves`).
-/

namespace StaticAlloc
namespace FixedVec

open Toolkit

variable {α I : Type}

/-- Whether elements occupy memory. -/
inductive Kind where
  | zeroSized
  | sized
  deriving DecidableEq

/-- A list within a capacity. -/
structure Bounded (α : Type) where
  items : List α
  cap : ℕ
  bounded : items.length ≤ cap

namespace Bounded

variable (b : Bounded α)

/-- Append an element, if there is room. -/
def push (a : α) : Option (Bounded α) :=
  if h : b.items.length = b.cap then none else
    some ⟨b.items ++ [a], b.cap, by
      have := b.bounded
      rw [List.length_append, List.length_singleton]
      omega⟩

/-- Keep the first `n` elements. -/
def take (n : ℕ) : Bounded α :=
  ⟨b.items.take n, b.cap, (List.take_sublist n b.items).length_le.trans b.bounded⟩

/-- Append as many items of a source as there is room for. -/
def fill (s : Source α) : Bounded α :=
  ⟨b.items ++ (s.pull (b.cap - b.items.length)).1, b.cap, by
    have := b.bounded
    have := s.pull_length_le (b.cap - b.items.length)
    rw [List.length_append]
    omega⟩

/-- The capacity of the first part of a split at `k`. -/
def firstCap (kind : Kind) (k : ℕ) : ℕ :=
  match kind with
  | .zeroSized => b.cap
  | .sized => k

/-- The capacity of the second part. -/
def secondCap (kind : Kind) (k : ℕ) : ℕ :=
  match kind with
  | .zeroSized => b.cap
  | .sized => b.cap - k

/-- The first part of a split. -/
def first (kind : Kind) (k : ℕ) : Bounded α :=
  ⟨b.items.take k, b.firstCap kind k, by
    have := b.bounded
    rw [List.length_take]
    cases kind with
    | zeroSized =>
      show min k _ ≤ b.cap
      omega
    | sized => exact min_le_left _ _⟩

/-- The second part of a split. -/
def second (kind : Kind) (k : ℕ) : Bounded α :=
  ⟨b.items.drop k, b.secondCap kind k, by
    have := b.bounded
    rw [List.length_drop]
    cases kind with
    | zeroSized =>
      show _ ≤ b.cap
      omega
    | sized =>
      show _ ≤ b.cap - k
      omega⟩

end Bounded

/-- Bounded lists by name, who borrows from whom, and where the elements went. -/
structure Ledger (I α : Type) where
  live : Finset I
  vec : I → Bounded α
  lenders : I → Finset I
  entered : Multiset α
  returned : Multiset α
  dropped : Multiset α

namespace Ledger

variable [DecidableEq I]

/-- One list is replaced. -/
def setVec (t : Ledger I α) (i : I) (b : Bounded α) : Ledger I α :=
  { t with vec := Function.update t.vec i b }

/-- One list is replaced and another one added, with the given lenders. -/
def addVec (t : Ledger I α) (i : I) (b : Bounded α) (new : I) (part : Bounded α)
    (lenders : Finset I) : Ledger I α :=
  { t with
    live := insert new t.live
    vec := Function.update (Function.update t.vec i b) new part
    lenders := Function.update t.lenders new lenders }

/-- What an operation should do. -/
def exec (kind : Kind) (t : Ledger I α) : Op I α → Ledger I α × Reply α
  | .push i val =>
    match (t.vec i).push val with
    | none => (t, .refused val)
    | some b => ({ t with entered := val ::ₘ t.entered }.setVec i b, .done)
  | .pop i =>
    match (t.vec i).items.getLast? with
    | none => (t, .popped none)
    | some val =>
      ({ t with returned := val ::ₘ t.returned }.setVec i
        ((t.vec i).take ((t.vec i).items.length - 1)), .popped (some val))
  | .truncate i len =>
    ({ t with dropped := t.dropped + ((t.vec i).items.drop len : List α) }.setVec i
      ((t.vec i).take len), .done)
  | .clear i =>
    ({ t with dropped := t.dropped + ((t.vec i).items : Multiset α) }.setVec i
      ((t.vec i).take 0), .done)
  | .fill i iter =>
    let (items, rest) := iter.pull ((t.vec i).cap - (t.vec i).items.length)
    ({ t with entered := t.entered + items }.setVec i ((t.vec i).fill iter), .rest rest)
  | .extend i iter =>
    let (items, rest) := iter.pull ((t.vec i).cap - (t.vec i).items.length)
    let t' := { t with entered := t.entered + items }.setVec i ((t.vec i).fill iter)
    match rest.next.1 with
    | none => (t', .done)
    | some spill =>
      ({ t' with entered := spill ::ₘ t'.entered, dropped := spill ::ₘ t'.dropped },
        .stopped (.panic "FixedVec memory exhausted"))
  | .splitBorrowed i k new =>
    if k ≤ (t.vec i).cap then
      (t.addVec i ((t.vec i).take k) new ((t.vec i).second kind k) (insert i (t.lenders i)), .done)
    else (t, .stopped (.panic "`at` out of bounds"))
  | .splitAndShrinkTo i k new =>
    if k ≤ (t.vec i).cap then
      (t.addVec i ((t.vec i).first kind k) new ((t.vec i).second kind k) (t.lenders i), .done)
    else (t, .stopped (.panic "`at` out of bounds"))
  | .shrinkToFit _ => (t, .done)
  | .drop i =>
    ({ t with
      live := t.live.erase i
      dropped := t.dropped + ((t.vec i).items : Multiset α) }, .done)

/-- The same rules of use as for the vectors. -/
def Enabled (t : Ledger I α) (op : Op I α) : Prop :=
  op.target ∈ t.live ∧ (∀ j ∈ t.live, op.target ∉ t.lenders j) ∧
    ∀ new, op.makes = some new → new ∉ t.live

/-- All bounded lists that come from one empty list. -/
def machine (kind : Kind) (I α : Type) [DecidableEq I] :
    Machine (Ledger I α) (Op I α × Reply α) where
  init t := ∃ cap i, t =
    { live := {i}, vec := fun _ => ⟨[], cap, Nat.zero_le _⟩, lenders := fun _ => ∅,
      entered := 0, returned := 0, dropped := 0 }
  step t l t' := t.Enabled l.1 ∧ t.exec kind l.1 = (t', l.2)

/-- The elements in all vectors. -/
def held (t : Ledger I α) : Multiset α := t.live.sum fun i => ((t.vec i).items : Multiset α)

/-- The elements in all vectors but one. -/
def others (t : Ledger I α) (i : I) : Multiset α :=
  (t.live.erase i).sum fun j => ((t.vec j).items : Multiset α)

/-- Every element that entered is in a vector, or was returned, or was dropped. -/
def Conserved (t : Ledger I α) : Prop := t.entered = t.held + t.returned + t.dropped

variable {t : Ledger I α} {i new : I}

theorem held_eq (hi : i ∈ t.live) : t.held = (t.vec i).items + t.others i :=
  (Finset.add_sum_erase t.live (fun j => ((t.vec j).items : Multiset α)) hi).symm

theorem held_of_update {t' : Ledger I α} {b : Bounded α} (hi : i ∈ t.live)
    (hlive : t'.live = t.live) (hvec : t'.vec = Function.update t.vec i b) :
    t'.held = b.items + t.others i := by
  rw [held_eq (t := t') (hlive ▸ hi), others, hlive, hvec, Function.update_self]
  refine congrArg _ (Finset.sum_congr rfl fun j hj => ?_)
  rw [Function.update_of_ne (Finset.ne_of_mem_erase hj)]

theorem held_addVec (hi : i ∈ t.live) (hnew : new ∉ t.live) (b part : Bounded α)
    (lenders : Finset I) :
    (t.addVec i b new part lenders).held = part.items + (b.items + t.others i) := by
  have hheld : (t.setVec i b).held = b.items + t.others i := held_of_update hi rfl rfl
  rw [← hheld]
  show (insert new t.live).sum _ = _
  rw [Finset.sum_insert hnew]
  show ((Function.update (Function.update t.vec i b) new part new).items : Multiset α) + _ = _
  rw [Function.update_self]
  refine congrArg _ (Finset.sum_congr rfl fun j hj => ?_)
  show ((Function.update (Function.update t.vec i b) new part j).items : Multiset α) = _
  rw [Function.update_of_ne (ne_of_mem_of_not_mem hj hnew)]
  rfl

theorem coe_split (l : List α) (k : ℕ) :
    (l : Multiset α) = (l.take k : List α) + (l.drop k : List α) := by
  rw [Multiset.coe_add, List.take_append_drop]

/-- A list without its last element, and that element. -/
theorem coe_getLast? {l : List α} {a : α} (h : l.getLast? = some a) :
    (l : Multiset α) = a ::ₘ (l.take (l.length - 1) : List α) := by
  obtain ⟨l', rfl⟩ := List.getLast?_eq_some_iff.mp h
  rw [List.length_append, List.length_singleton, Nat.add_sub_cancel, List.take_left,
    ← Multiset.coe_add, ← Multiset.singleton_add, add_comm]
  rfl

/-- One list changes, and the records account for the change. -/
theorem Conserved.update {t' : Ledger I α} {b : Bounded α} (h : t.Conserved) (hi : i ∈ t.live)
    (hlive : t'.live = t.live) (hvec : t'.vec = Function.update t.vec i b)
    (hbalance : t'.entered + (t.vec i).items + t.returned + t.dropped =
      t.entered + b.items + t'.returned + t'.dropped) : t'.Conserved := by
  rw [Conserved, held_eq hi] at h
  rw [Conserved, held_of_update hi hlive hvec]
  refine add_right_cancel (b := ((t.vec i).items : Multiset α) + t.returned + t.dropped) ?_
  calc t'.entered + ((t.vec i).items + t.returned + t.dropped)
      = t'.entered + (t.vec i).items + t.returned + t.dropped := by abel
    _ = t.entered + b.items + t'.returned + t'.dropped := hbalance
    _ = _ := by
      rw [h]
      abel

/-- A list takes what it has room for from a source. -/
theorem Conserved.fill (h : t.Conserved) (hi : i ∈ t.live) (iter : Source α) :
    ({ t with entered := t.entered +
      ((iter.pull ((t.vec i).cap - (t.vec i).items.length)).1 : List α) }.setVec i
        ((t.vec i).fill iter)).Conserved := by
  refine h.update hi rfl rfl ?_
  show (t.entered + _) + (t.vec i).items + t.returned + t.dropped =
    t.entered + ((t.vec i).items ++ _ : List α) + t.returned + t.dropped
  rw [← Multiset.coe_add]
  abel

/-- A list is split in two, and the records stay as they are. -/
theorem Conserved.addVec {b part : Bounded α} {k : ℕ} (h : t.Conserved) (hi : i ∈ t.live)
    (hnew : new ∉ t.live) (hb : b.items = (t.vec i).items.take k)
    (hpart : part.items = (t.vec i).items.drop k) (lenders : Finset I) :
    (t.addVec i b new part lenders).Conserved := by
  rw [Conserved, held_eq hi] at h
  show t.entered = Ledger.held _ + t.returned + t.dropped
  rw [held_addVec hi hnew, h, hb, hpart, coe_split (t.vec i).items k]
  abel

/-- **Nothing is lost or doubled.** -/
theorem exec_conserves (kind : Kind) {op : Op I α} (h : t.Conserved) (hen : t.Enabled op) :
    (t.exec kind op).1.Conserved := by
  obtain ⟨hi, -, hnew⟩ := hen
  cases op with
  | push i val =>
    rw [exec]
    cases hpush : (t.vec i).push val with
    | none => exact h
    | some b =>
      have hitems : b.items = (t.vec i).items ++ [val] := by
        rw [Bounded.push] at hpush
        split at hpush
        · exact absurd hpush (by simp)
        · rw [← Option.some.inj hpush]
      refine h.update hi rfl rfl ?_
      show (val ::ₘ t.entered) + (t.vec i).items + t.returned + t.dropped =
        t.entered + b.items + t.returned + t.dropped
      rw [hitems, ← Multiset.coe_add, ← Multiset.singleton_add, Multiset.coe_singleton]
      abel
  | pop i =>
    rw [exec]
    cases hlast : (t.vec i).items.getLast? with
    | none => exact h
    | some val =>
      refine h.update hi rfl rfl ?_
      show t.entered + (t.vec i).items + t.returned + t.dropped =
        t.entered + ((t.vec i).items.take _ : List α) + (val ::ₘ t.returned) + t.dropped
      rw [coe_getLast? hlast, ← Multiset.singleton_add, ← Multiset.singleton_add]
      abel
  | truncate i len =>
    refine h.update hi rfl rfl ?_
    show t.entered + (t.vec i).items + t.returned + t.dropped =
      t.entered + ((t.vec i).items.take len : List α) + t.returned +
        (t.dropped + ((t.vec i).items.drop len : List α))
    rw [coe_split (t.vec i).items len]
    abel
  | clear i =>
    refine h.update hi rfl rfl ?_
    show t.entered + (t.vec i).items + t.returned + t.dropped =
      t.entered + ((t.vec i).items.take 0 : List α) + t.returned + (t.dropped + (t.vec i).items)
    rw [List.take_zero, Multiset.coe_nil]
    abel
  | fill i iter => exact h.fill hi iter
  | extend i iter =>
    rw [exec]
    cases hspill : (iter.pull ((t.vec i).cap - (t.vec i).items.length)).2.next.1 with
    | none =>
      simp only [hspill]
      exact h.fill hi iter
    | some spill =>
      simp only [hspill]
      refine h.update hi rfl rfl ?_
      show (spill ::ₘ (t.entered + _)) + (t.vec i).items + t.returned + t.dropped =
        t.entered + ((t.vec i).items ++ _ : List α) + t.returned + (spill ::ₘ t.dropped)
      rw [← Multiset.coe_add, ← Multiset.singleton_add, ← Multiset.singleton_add]
      abel
  | splitBorrowed i k new =>
    rw [exec]
    split
    · exact h.addVec hi (hnew new rfl) rfl rfl _
    · exact h
  | splitAndShrinkTo i k new =>
    rw [exec]
    split
    · exact h.addVec hi (hnew new rfl) rfl rfl _
    · exact h
  | shrinkToFit i => exact h
  | drop i =>
    rw [Conserved, held_eq hi] at h
    show t.entered = t.others i + t.returned + (t.dropped + _)
    rw [h]
    show ((t.vec i).items : Multiset α) + t.others i + t.returned + t.dropped = _
    abel

theorem reachable_conserved {kind : Kind} (h : (machine kind I α).Reachable t) : t.Conserved := by
  refine Machine.Reachable.invariant ?_ ?_ h
  · rintro t ⟨cap, i, rfl⟩
    rw [Conserved, held_eq (Finset.mem_singleton_self i), others, Finset.erase_singleton]
    rfl
  · rintro t l t' - ht ⟨hen, hexec⟩
    have := exec_conserves kind ht hen
    rwa [hexec] at this

end Ledger

end FixedVec
end StaticAlloc
