import StaticAlloc.FixedVec.Refinement

/-!
# Draining a range

`drain` cuts the vector off at the start of the range and hands out an iterator
over the elements of the range.  The iterator reads them from both ends; when it
is dropped it drops those that are left, and moves the tail of the vector down to
where the range was.

The vector cannot be used while the iterator borrows its length field.  An
iterator that is forgotten leaves the vector as `drain` left it, without the
range and without the tail.

`Remaining E m d l` says that `l` are the elements the iterator `d` has not
yielded.  After `f` calls from the front and `k` from the back these are `left l f k`
of the elements `l` it had at first, and what a call answers is a matter of those
two numbers alone (`exec_ok`, `run_ok`).
-/

namespace StaticAlloc
namespace FixedVec

open Toolkit

variable {w : ℕ} {α : Type}

/-- `ops::Bound<usize>`. -/
inductive Bound where
  | included (n : ℕ)
  | excluded (n : ℕ)
  | unbounded
  deriving DecidableEq

/-- `Drain`, without the length field of the vector, which it borrows. -/
structure Drain (T : Ty w) where
  /-- The number of elements drained from the start of the slice, and the end of the
  elements to drain, relative to `elements`. -/
  (start end' : ℕ)
  /-- The start of the tail, relative to `elements`. -/
  tail : ℕ
  tailLen : ℕ
  /-- Where the first element to drain is, and where the tail goes to. -/
  elements : ℕ
  start_le : start ≤ end'
  end_le : end' ≤ tail

/-- The first index of a range. -/
def startBound (b : Build) (w : ℕ) : Bound → Except Stop ℕ
  | .included n => .ok n
  | .excluded n => addUsize b w n 1
  | .unbounded => .ok 0

/-- The index behind the last of a range. -/
def endBound (b : Build) (w len : ℕ) : Bound → Except Stop ℕ
  | .included n => addUsize b w n 1
  | .excluded n => .ok n
  | .unbounded => .ok len

/-- `FixedVec::drain`: the vector while it is drained, and the iterator. -/
def drain {T : Ty w} (b : Build) (v : FixedVec T) (range : Bound × Bound) :
    Except Stop (FixedVec T × Drain T) := do
  let len := v.length
  let start ← startBound b w range.1
  let end' ← endBound b w len range.2
  if start ≤ end' then
    if end' ≤ len then
      .ok ({ v with length := start },
        { start := 0, end' := end' - start, tail := end' - start, tailLen := len - end'
          elements := v.uninit.ptr + start * T.size
          start_le := Nat.zero_le _
          end_le := le_rfl })
    else .error (.panic "assertion failed: end <= len")
  else .error (.panic "assertion failed: start <= end")

namespace Drain

variable {T : Ty w}

/-- `Drain::is_empty`. -/
def IsEmpty (d : Drain T) : Prop := d.start = d.end'

instance (d : Drain T) : Decidable d.IsEmpty := inferInstanceAs (Decidable (_ = _))

/-- `Drain::len`. -/
def len (d : Drain T) : ℕ := d.end' - d.start

/-- `Drain::as_slice`: what is in the cells of the slice. -/
def asSlice (m : Cells α) (d : Drain T) : List (Option α) :=
  (List.range d.len).map fun k => m (d.elements + d.start * T.size + k * T.size)

/-- `Iterator::next`. -/
def next (m : Cells α) (d : Drain T) : Except Stop (Option α × Drain T) :=
  if h : d.IsEmpty then .ok (none, d) else do
    let t ← readCell m (d.elements + d.start * T.size)
    .ok (some t, { d with start := d.start + 1, start_le := Nat.lt_of_le_of_ne d.start_le h })

/-- `DoubleEndedIterator::next_back`. -/
def nextBack (m : Cells α) (d : Drain T) : Except Stop (Option α × Drain T) :=
  if h : d.IsEmpty then .ok (none, d) else do
    let t ← readCell m (d.elements + (d.end' - 1) * T.size)
    .ok (some t, { d with
      start_le := Nat.le_sub_one_of_lt (Nat.lt_of_le_of_ne d.start_le h), end' := d.end' - 1
      end_le := (Nat.sub_le _ _).trans d.end_le })

/-- Each element that is yielded shortens the iterator. -/
theorem next_len_lt {m : Cells α} {d d' : Drain T} {a : α} (h : d.next m = .ok (some a, d')) :
    d'.len < d.len := by
  rw [next] at h
  split at h
  · exact absurd h (by simp)
  · obtain ⟨t, -, ht⟩ := of_bind_ok h
    obtain ⟨-, rfl⟩ := ok_pair_inj ht
    have hne : d.start < d.end' := Nat.lt_of_le_of_ne d.start_le ‹_›
    show d.end' - (d.start + 1) < d.end' - d.start
    omega

/-- `for_each(drop)`: the iterator afterwards, the elements whose destructor was
started, and whether the last of them panicked. -/
def forEachDrop (m : Cells α) (panics : α → Bool) (d : Drain T) :
    Except Stop (Drain T × List α × Bool) :=
  match _h : d.next m with
  | .error s => .error s
  | .ok (none, d') => .ok (d', [], false)
  | .ok (some a, d') =>
    if panics a then .ok (d', [a], true) else do
      let (d'', dropped, panicked) ← forEachDrop m panics d'
      .ok (d'', a :: dropped, panicked)
termination_by d.len
decreasing_by exact next_len_lt ‹_›

/-- `Drop for Drain`, with the vector that is drained.  A panic leaves before the
tail is moved. -/
def drop (m : Cells α) (panics : α → Bool) (v : FixedVec T) (d : Drain T) :
    Except Stop (Cells α × FixedVec T × List α × Bool) := do
  let (d, dropped, panicked) ← d.forEachDrop m panics
  if panicked then .ok (m, v, dropped, true)
  else if d.tailLen ≠ 0 then
    let source := d.elements + d.tail * T.size
    .ok (m.copy T.size source d.elements d.tailLen, { v with length := v.length + d.tailLen },
      dropped, false)
  else .ok (m, v, dropped, false)

/-! ## Calls on the iterator -/

/-- The calls. -/
inductive Call where
  | next
  | nextBack
  | asSlice
  | len
  deriving DecidableEq

/-- What they return. -/
inductive Reply (α : Type) where
  | item (a : Option α)
  | slice (l : List (Option α))
  | count (n : ℕ)

/-- One call. -/
def exec (m : Cells α) (d : Drain T) : Call → Except Stop (Drain T × Reply α)
  | .next => do
    let (a, d') ← d.next m
    .ok (d', .item a)
  | .nextBack => do
    let (a, d') ← d.nextBack m
    .ok (d', .item a)
  | .asSlice => .ok (d, .slice (d.asSlice m))
  | .len => .ok (d, .count d.len)

/-- Any number of calls. -/
def run (m : Cells α) : Drain T → List Call → Except Stop (Drain T × List (Reply α))
  | d, [] => .ok (d, [])
  | d, c :: calls => do
    let (d', r) ← d.exec m c
    let (d'', replies) ← run m d' calls
    .ok (d'', r :: replies)

/-! ## What is left of the range -/

/-- The elements left after `f` calls from the front and `k` from the back. -/
def left (l : List α) (f k : ℕ) : List α := (l.drop f).take (l.length - (f + k))

theorem left_length (l : List α) (f k : ℕ) : (left l f k).length = l.length - (f + k) := by
  rw [left, List.length_take, List.length_drop]
  omega

theorem left_zero (l : List α) : left l 0 0 = l := by
  rw [left, List.drop_zero, Nat.add_zero, Nat.sub_zero, List.take_length]

theorem left_nil {l : List α} {f k : ℕ} (h : l.length ≤ f + k) : left l f k = [] := by
  rw [left, Nat.sub_eq_zero_of_le h, List.take_zero]

/-- The first of the elements left, and the others. -/
theorem left_front {l : List α} {f k : ℕ} (h : f + k < l.length) :
    left l f k = l[f] :: left l (f + 1) k := by
  rw [left, List.drop_eq_getElem_cons (by omega), left,
    show l.length - (f + k) = l.length - (f + 1 + k) + 1 by omega, List.take_succ_cons]

/-- The last of the elements left, and the others. -/
theorem left_back {l : List α} {f k : ℕ} (h : f + k < l.length) :
    left l f k = left l f (k + 1) ++ [l[l.length - 1 - k]] := by
  have hget : (l.drop f)[l.length - (f + (k + 1))]? = some l[l.length - 1 - k] := by
    rw [List.getElem?_drop, List.getElem?_eq_getElem (by omega)]
    congr 2
    omega
  rw [left, left, show l.length - (f + k) = l.length - (f + (k + 1)) + 1 by omega,
    List.take_add_one, hget]
  rfl

section Remaining

variable {E : Element w α} {m : Cells α} {d : Drain E.ty} {l : List α}

/-- The elements that the iterator has not yielded. -/
structure Remaining (E : Element w α) (m : Cells α) (d : Drain E.ty) (l : List α) : Prop where
  len : d.len = l.length
  stores : m.Stores E.ty.size (d.elements + d.start * E.ty.size) l

/-- Nothing but the two ends of the iterator is different. -/
structure SamePlace (d d' : Drain E.ty) : Prop where
  tail : d'.tail = d.tail
  tailLen : d'.tailLen = d.tailLen
  elements : d'.elements = d.elements

theorem SamePlace.refl (d : Drain E.ty) : SamePlace d d := ⟨rfl, rfl, rfl⟩

theorem SamePlace.trans {d d' d'' : Drain E.ty} (h : SamePlace d d') (h' : SamePlace d' d'') :
    SamePlace d d'' :=
  ⟨h'.tail.trans h.tail, h'.tailLen.trans h.tailLen, h'.elements.trans h.elements⟩

theorem Remaining.isEmpty_iff (h : Remaining E m d l) : d.IsEmpty ↔ l = [] := by
  have hlen := h.len
  have hle := d.start_le
  rw [Drain.len] at hlen
  rw [IsEmpty, ← List.length_eq_zero_iff]
  omega

theorem Remaining.asSlice_eq (h : Remaining E m d l) : d.asSlice m = l.map some :=
  h.stores.map_range h.len

theorem next_empty (h : Remaining E m d []) : d.next m = .ok (none, d) :=
  dif_pos (h.isEmpty_iff.mpr rfl)

theorem nextBack_empty (h : Remaining E m d []) : d.nextBack m = .ok (none, d) :=
  dif_pos (h.isEmpty_iff.mpr rfl)

/-- `next` yields the first of the remaining elements. -/
theorem next_cons {a : α} (h : Remaining E m d (a :: l)) :
    ∃ d', d.next m = .ok (some a, d') ∧ Remaining E m d' l ∧ SamePlace d d' := by
  have hne : ¬ d.IsEmpty := fun hc => absurd (h.isEmpty_iff.mp hc) (by simp)
  have hlen := h.len
  have hsplit := Cells.Stores.append_iff.mp (show m.Stores _ _ ([a] ++ l) from h.stores)
  have hread : readCell m (d.elements + d.start * E.ty.size) = .ok a := by
    have := hsplit.1.get (k := 0) Nat.one_pos
    rw [Nat.zero_mul, Nat.add_zero] at this
    rw [readCell, this]
    rfl
  have hlt : d.start < d.end' := Nat.lt_of_le_of_ne d.start_le hne
  have hnext : d.next m = .ok (some a, { d with start := d.start + 1, start_le := hlt }) := by
    rw [next, dif_neg hne, hread]
    rfl
  refine ⟨_, hnext, ⟨?_, ?_⟩, ⟨rfl, rfl, rfl⟩⟩
  · show d.end' - (d.start + 1) = l.length
    rw [Drain.len, List.length_cons] at hlen
    omega
  · show m.Stores _ (d.elements + (d.start + 1) * E.ty.size) l
    rw [Nat.add_mul, ← Nat.add_assoc]
    exact hsplit.2

/-- `next_back` yields the last of them. -/
theorem nextBack_append {a : α} (h : Remaining E m d (l ++ [a])) :
    ∃ d', d.nextBack m = .ok (some a, d') ∧ Remaining E m d' l ∧ SamePlace d d' := by
  have hne : ¬ d.IsEmpty := fun hc => absurd (h.isEmpty_iff.mp hc) (by simp)
  have hlen : d.end' - d.start = (l ++ [a]).length := h.len
  rw [List.length_append, List.length_singleton] at hlen
  obtain ⟨hfront, hback⟩ := Cells.Stores.append_iff.mp h.stores
  have hread : readCell m (d.elements + (d.end' - 1) * E.ty.size) = .ok a := by
    have := hback.get (k := 0) Nat.one_pos
    rw [Nat.zero_mul, Nat.add_zero, Nat.add_assoc, ← Nat.add_mul,
      show d.start + l.length = d.end' - 1 by omega] at this
    rw [readCell, this]
    rfl
  have hlt : d.start < d.end' := Nat.lt_of_le_of_ne d.start_le hne
  have hnext : d.nextBack m = .ok (some a, { d with
      start_le := Nat.le_sub_one_of_lt hlt, end' := d.end' - 1
      end_le := (Nat.sub_le _ _).trans d.end_le }) := by
    rw [nextBack, dif_neg hne, hread]
    rfl
  refine ⟨_, hnext, ⟨?_, hfront⟩, ⟨rfl, rfl, rfl⟩⟩
  show d.end' - 1 - d.start = l.length
  omega

/-! ## What a call answers -/

/-- What a call answers after `f` calls from the front and `k` from the back, when
the iterator had the elements `l` at first. -/
def answer (l : List α) (f k : ℕ) : Call → Reply α
  | .next => .item (if f + k < l.length then l[f]? else none)
  | .nextBack => .item (if f + k < l.length then l[l.length - 1 - k]? else none)
  | .asSlice => .slice ((left l f k).map some)
  | .len => .count (l.length - (f + k))

/-- How many of the calls are from the front. -/
def fronts (calls : List Call) : ℕ := calls.count .next

/-- How many of them are from the back. -/
def backs (calls : List Call) : ℕ := calls.count .nextBack

/-- **The step lemma.**  The answer depends on the number of calls from either
end, and so do the elements left. -/
theorem exec_ok {f k : ℕ} (h : Remaining E m d (left l f k)) (c : Call) :
    ∃ d', d.exec m c = .ok (d', answer l f k c) ∧
      Remaining E m d' (left l (f + fronts [c]) (k + backs [c])) ∧ SamePlace d d' := by
  cases c with
  | next =>
    rcases Nat.lt_or_ge (f + k) l.length with hlt | hge
    · rw [left_front hlt] at h
      obtain ⟨d', hnext, hrest, hplace⟩ := next_cons h
      refine ⟨d', ?_, hrest, hplace⟩
      rw [exec, hnext, answer, if_pos hlt, List.getElem?_eq_getElem]
      rfl
    · rw [left_nil hge] at h
      refine ⟨d, ?_, ?_, SamePlace.refl d⟩
      · rw [exec, next_empty h, answer, if_neg (by omega)]
        rfl
      · rw [left_nil (by omega)]
        exact h
  | nextBack =>
    rcases Nat.lt_or_ge (f + k) l.length with hlt | hge
    · rw [left_back hlt] at h
      obtain ⟨d', hnext, hrest, hplace⟩ := nextBack_append h
      refine ⟨d', ?_, hrest, hplace⟩
      rw [exec, hnext, answer, if_pos hlt, List.getElem?_eq_getElem]
      rfl
    · rw [left_nil hge] at h
      refine ⟨d, ?_, ?_, SamePlace.refl d⟩
      · rw [exec, nextBack_empty h, answer, if_neg (by omega)]
        rfl
      · rw [left_nil (by omega)]
        exact h
  | asSlice =>
    refine ⟨d, ?_, h, SamePlace.refl d⟩
    rw [exec, h.asSlice_eq]
    rfl
  | len =>
    refine ⟨d, ?_, h, SamePlace.refl d⟩
    rw [exec, h.len, left_length]
    rfl

theorem fronts_cons (c : Call) (calls : List Call) :
    fronts (c :: calls) = fronts [c] + fronts calls := by
  rw [fronts, fronts, fronts, ← List.count_append, List.singleton_append]

theorem backs_cons (c : Call) (calls : List Call) :
    backs (c :: calls) = backs [c] + backs calls := by
  rw [backs, backs, backs, ← List.count_append, List.singleton_append]

/-- The elements among the answers. -/
def yielded (replies : List (Reply α)) : List α :=
  replies.filterMap fun
    | .item a => a
    | _ => none

/-- What a call yields is taken from the elements left, and nothing else is. -/
theorem left_perm (l : List α) (f k : ℕ) (c : Call) :
    (left l f k).Perm
      (yielded [answer l f k c] ++ left l (f + fronts [c]) (k + backs [c])) := by
  cases c with
  | next =>
    rcases Nat.lt_or_ge (f + k) l.length with hlt | hge
    · rw [answer, if_pos hlt, List.getElem?_eq_getElem, left_front hlt]
      exact List.Perm.refl _
    · rw [answer, if_neg (by omega), left_nil hge, left_nil (by omega)]
      exact List.Perm.refl _
  | nextBack =>
    rcases Nat.lt_or_ge (f + k) l.length with hlt | hge
    · rw [answer, if_pos hlt, List.getElem?_eq_getElem, left_back hlt]
      exact List.perm_append_comm
    · rw [answer, if_neg (by omega), left_nil hge, left_nil (by omega)]
      exact List.Perm.refl _
  | asSlice | len => exact List.Perm.refl _

/-- **The run lemma.**  Each call of a run is answered according to the calls
before it. -/
theorem run_ok {f k : ℕ} (h : Remaining E m d (left l f k)) (calls : List Call) :
    ∃ d' replies, d.run m calls = .ok (d', replies) ∧ replies.length = calls.length ∧
      (∀ (j : ℕ) (c : Call), calls[j]? = some c → replies[j]? =
        some (answer l (f + fronts (calls.take j)) (k + backs (calls.take j)) c)) ∧
      (left l f k).Perm (yielded replies ++ left l (f + fronts calls) (k + backs calls)) ∧
      Remaining E m d' (left l (f + fronts calls) (k + backs calls)) ∧ SamePlace d d' := by
  induction calls generalizing d f k with
  | nil =>
    exact ⟨d, [], rfl, rfl, fun j c hc => absurd hc (by simp), List.Perm.refl _, h,
      SamePlace.refl d⟩
  | cons c calls ih =>
    obtain ⟨d', hexec, hleft, hplace⟩ := exec_ok h c
    obtain ⟨d'', replies, hrun, hlen, hreplies, hperm, hleft', hplace'⟩ := ih hleft
    have hcons : yielded (answer l f k c :: replies) =
        yielded [answer l f k c] ++ yielded replies := List.filterMap_append (l := [_])
    refine ⟨d'', answer l f k c :: replies, ?_, ?_, ?_, ?_, ?_, hplace.trans hplace'⟩
    · rw [run, hexec]
      simp only [ok_bind, hrun]
    · rw [List.length_cons, List.length_cons, hlen]
    · intro j c' hc'
      cases j with
      | zero =>
        obtain rfl := Option.some.inj hc'
        rfl
      | succ j =>
        have := hreplies j c' hc'
        rw [List.take_succ_cons, fronts_cons, backs_cons, ← Nat.add_assoc, ← Nat.add_assoc]
        exact this
    · rw [hcons, fronts_cons, backs_cons, ← Nat.add_assoc, ← Nat.add_assoc, List.append_assoc]
      exact (left_perm l f k c).trans (hperm.append_left _)
    · rw [fronts_cons, backs_cons, ← Nat.add_assoc, ← Nat.add_assoc]
      exact hleft'

/-! ## Dropping what is left -/

theorem forEachDrop_none {panics : α → Bool} {d' : Drain E.ty} (h : d.next m = .ok (none, d')) :
    d.forEachDrop m panics = .ok (d', [], false) := by
  rw [forEachDrop]
  split <;> simp_all

theorem forEachDrop_some {panics : α → Bool} {d' : Drain E.ty} {a : α}
    (h : d.next m = .ok (some a, d')) :
    d.forEachDrop m panics = if panics a then .ok (d', [a], true) else (do
      let (d'', dropped, panicked) ← d'.forEachDrop m panics
      .ok (d'', a :: dropped, panicked)) := by
  rw [forEachDrop]
  split <;> simp_all

/-- The loop drops the remaining elements, from the first one on. -/
theorem forEachDrop_ok (h : Remaining E m d l) (panics : α → Bool) :
    ∃ d', d.forEachDrop m panics = .ok (d', started panics l, l.any panics) ∧
      SamePlace d d' := by
  induction l generalizing d with
  | nil => exact ⟨d, forEachDrop_none (next_empty h), SamePlace.refl d⟩
  | cons a l ih =>
    obtain ⟨d', hnext, hrest, hplace⟩ := next_cons h
    cases hp : panics a with
    | true =>
      refine ⟨d', ?_, hplace⟩
      rw [forEachDrop_some hnext, if_pos hp, started, if_pos hp, List.any_cons, hp, Bool.true_or]
    | false =>
      obtain ⟨d'', hloop, hplace'⟩ := ih hrest
      refine ⟨d'', ?_, hplace.trans hplace'⟩
      rw [forEachDrop_some hnext, if_neg (by simp [hp]), hloop, started, if_neg (by simp [hp]),
        List.any_cons, hp, Bool.false_or]
      rfl

end Remaining

end Drain

/-! ## The vector while it is drained, and afterwards -/

variable {E : Element w α} {m : Cells α} {v : FixedVec E.ty} {b : Bounded α} {start stop : ℕ}

/-- The elements of a range. -/
def Bounded.range (b : Bounded α) (start stop : ℕ) : List α :=
  (b.items.drop start).take (stop - start)

/-- The list without a range. -/
def Bounded.remove (b : Bounded α) (start stop : ℕ) (h : start ≤ stop) : Bounded α :=
  ⟨b.items.take start ++ b.items.drop stop, b.cap, by
    have := b.bounded
    rw [List.length_append, List.length_take, List.length_drop]
    omega⟩

/-- The range behind the start of the range, and the tail behind the range. -/
theorem Bounded.drop_start (b : Bounded α) (hle : start ≤ stop) :
    b.items.drop start = b.range start stop ++ b.items.drop stop := by
  have htail : (b.items.drop start).drop (stop - start) = b.items.drop stop := by
    rw [List.drop_drop, Nat.add_sub_cancel' hle]
  rw [← htail]
  exact (List.take_append_drop _ _).symm

theorem Bounded.range_length (b : Bounded α) (hstop : stop ≤ b.items.length) :
    (b.range start stop).length = stop - start := by
  rw [Bounded.range, List.length_take, List.length_drop]
  omega

/-- Where the iterator over a range is. -/
structure Drains (v : FixedVec E.ty) (start stop : ℕ) (d : Drain E.ty) : Prop where
  tail : d.tail = stop - start
  tailLen : d.tailLen = v.length - stop
  elements : d.elements = v.uninit.ptr + start * E.ty.size

theorem Drains.of_samePlace {d d' : Drain E.ty} (h : Drains v start stop d)
    (hplace : Drain.SamePlace d d') : Drains v start stop d' :=
  ⟨hplace.tail.trans h.tail, hplace.tailLen.trans h.tailLen, hplace.elements.trans h.elements⟩

/-- `drain` of a range that is in the vector. -/
theorem drain_ok (h : Holds E m v b) (build : Build) (hle : start ≤ stop)
    (hstop : stop ≤ v.length) :
    ∃ d, v.drain build (.included start, .excluded stop) = .ok ({ v with length := start }, d) ∧
      Drains v start stop d ∧ d.Remaining E m (b.range start stop) := by
  have hlen : stop ≤ b.items.length := by rwa [← h.length]
  have hstores := h.stores.drop (n := start) (hle.trans hlen)
  rw [b.drop_start hle, Cells.Stores.append_iff] at hstores
  have hdrain : v.drain build (.included start, .excluded stop) =
      .ok ({ v with length := start }, ⟨0, stop - start, stop - start, v.length - stop,
        v.uninit.ptr + start * E.ty.size, Nat.zero_le _, le_rfl⟩) := by
    rw [drain]
    simp only [startBound, endBound, ok_bind, if_pos hle, if_pos hstop]
  refine ⟨_, hdrain, ⟨rfl, rfl, rfl⟩, ?_, ?_⟩
  · rw [b.range_length hlen]
    rfl
  · show m.Stores _ (v.uninit.ptr + start * E.ty.size + 0 * E.ty.size) _
    rw [Nat.zero_mul, Nat.add_zero]
    exact hstores.1

/-- The first elements on their own, up to a given number. -/
theorem Holds.shorten (h : Holds E m v b) (hstart : start ≤ v.length) :
    Holds E m { v with length := start } (b.take start) := by
  have htake := h.take start
  rwa [min_eq_left hstart] at htake

/-- The tail is moved down to where the range was. -/
theorem Holds.restore (h : Holds E m v b) (hle : start ≤ stop) (hstop : stop ≤ v.length) :
    Holds E (m.copy E.ty.size (v.uninit.ptr + start * E.ty.size + (stop - start) * E.ty.size)
        (v.uninit.ptr + start * E.ty.size) (v.length - stop))
      { v with length := start + (v.length - stop) } (b.remove start stop hle) where
  length := by
    show start + (v.length - stop) = (b.items.take start ++ b.items.drop stop).length
    rw [List.length_append, List.length_take, List.length_drop, ← h.length]
    omega
  cap := h.cap
  stores := by
    have hlen := h.length
    have hfirst : (b.items.take start).length = start := by
      rw [List.length_take]
      omega
    have htail : v.length - stop = (b.items.drop stop).length := by
      rw [List.length_drop, hlen]
    have hsrc : v.uninit.ptr + start * E.ty.size + (stop - start) * E.ty.size =
        v.uninit.ptr + stop * E.ty.size := by
      rw [Nat.add_assoc, ← Nat.add_mul, Nat.add_sub_cancel' hle]
    refine Cells.Stores.append_iff.mpr ⟨?_, ?_⟩
    · refine Cells.Stores.copy_behind (fun hz => ?_) (h.stores.take start) (by rw [hfirst])
      rw [hz, Nat.mul_zero, Nat.mul_zero, Nat.add_zero]
    · rw [hfirst, hsrc, htail]
      exact (h.stores.drop (by omega)).copy

/-- Dropping the iterator drops what is left of the range and restores the tail,
unless a destructor panics: then the vector is as `drain` left it. -/
theorem Drain.drop_ok {d : Drain E.ty} {l : List α} (h : Holds E m v b) (hle : start ≤ stop)
    (hstop : stop ≤ v.length) (hd : Drains v start stop d) (hl : d.Remaining E m l)
    (panics : α → Bool) :
    (l.any panics = true ∧ d.drop m panics { v with length := start } =
      .ok (m, { v with length := start }, started panics l, true)) ∨
    (l.any panics = false ∧ ∃ m' v', d.drop m panics { v with length := start } =
      .ok (m', v', l, false) ∧ v'.uninit = v.uninit ∧
      Holds E m' v' (b.remove start stop hle)) := by
  obtain ⟨d', hloop, hplace⟩ := Drain.forEachDrop_ok hl panics
  have hd' := hd.of_samePlace hplace
  cases hp : l.any panics with
  | true =>
    refine Or.inl ⟨rfl, ?_⟩
    rw [Drain.drop, hloop]
    simp only [ok_bind, hp, if_true]
  | false =>
    have hloop' : d.forEachDrop m panics = .ok (d', l, false) := by
      rw [hloop, started_all hp, hp]
    have hrestore := h.restore hle hstop
    refine Or.inr ⟨rfl, ?_⟩
    by_cases hz : d'.tailLen = 0
    · refine ⟨m, { v with length := start }, ?_, rfl, ?_⟩
      · rw [Drain.drop, hloop']
        simp only [ok_bind, Bool.false_eq_true, if_false, hz, ne_eq, not_true]
      · -- nothing is copied
        have hnone : v.length - stop = 0 := hd'.tailLen.symm.trans hz
        have hcopy : m.copy E.ty.size (v.uninit.ptr + start * E.ty.size +
            (stop - start) * E.ty.size) (v.uninit.ptr + start * E.ty.size) 0 = m :=
          funext fun q => if_pos rfl
        rwa [hnone, hcopy, Nat.add_zero] at hrestore
    · rw [hd'.tailLen] at hz
      refine ⟨_, { v with length := start + (v.length - stop) }, ?_, rfl, hrestore⟩
      rw [Drain.drop, hloop']
      simp only [ok_bind, Bool.false_eq_true, if_false, ne_eq, hd'.elements, hd'.tail,
        hd'.tailLen, if_pos hz]

/-- Any calls on the iterator, and then its drop. -/
theorem Drains.run_drop {d : Drain E.ty} (hd : Drains v start stop d) (h : Holds E m v b)
    (hle : start ≤ stop) (hstop : stop ≤ v.length) (hl : d.Remaining E m (b.range start stop))
    (calls : List Drain.Call) :
    ∃ d' replies, d.run m calls = .ok (d', replies) ∧ replies.length = calls.length ∧
      (∀ (j : ℕ) (c : Drain.Call), calls[j]? = some c → replies[j]? =
        some (Drain.answer (b.range start stop) (Drain.fronts (calls.take j))
          (Drain.backs (calls.take j)) c)) ∧
      ∃ m' v₂, d'.drop m (fun _ => false) { v with length := start } = .ok (m', v₂,
          Drain.left (b.range start stop) (Drain.fronts calls) (Drain.backs calls), false) ∧
        (b.range start stop).Perm (Drain.yielded replies ++
          Drain.left (b.range start stop) (Drain.fronts calls) (Drain.backs calls)) ∧
        Holds E m' v₂ (b.remove start stop hle) ∧ v₂.uninit = v.uninit := by
  rw [← Drain.left_zero (b.range start stop)] at hl
  obtain ⟨d', replies, hrun, hlen, hreplies, hperm, hleft, hplace⟩ := Drain.run_ok hl calls
  rw [Nat.zero_add, Nat.zero_add] at hleft hperm
  rw [Drain.left_zero] at hperm
  refine ⟨d', replies, hrun, hlen, fun j c hc => ?_, ?_⟩
  · have := hreplies j c hc
    rwa [Nat.zero_add, Nat.zero_add] at this
  · rcases Drain.drop_ok h hle hstop (hd.of_samePlace hplace) hleft (fun _ => false) with
      ⟨hany, -⟩ | ⟨-, m', v₂, hdrop, huninit, hholds⟩
    · exact absurd hany (by simp)
    · exact ⟨m', v₂, hdrop, hperm, hholds, huninit⟩

/-! ## The law of draining -/

/-- **Draining takes the range out of the vector.**  The vector may hold anything,
and the range be any that lies in it.  Whatever is called on the iterator: the
calls from the front yield `v[start]`, `v[start + 1]`, ..., those from the back
`v[stop - 1]`, `v[stop - 2]`, ..., until together they have yielded the range and
yield nothing any more; `as_slice` shows the elements not yet yielded and `len`
counts them.  Dropped after that, the iterator drops each of these once, and the
vector is the elements before and behind the range, in its old memory and with
its old capacity.  Forgotten instead, the vector is the elements before the range,
and these are all that it will drop. -/
theorem drain_exact (E : Element w α) {m : Cells α} {v : FixedVec E.ty} {b : Bounded α}
    (h : Holds E m v b) (build : Build) {start stop : ℕ} (hle : start ≤ stop)
    (hstop : stop ≤ v.length) :
    ∃ v₁ d, v.drain build (.included start, .excluded stop) = .ok (v₁, d) ∧
      Holds E m v₁ (b.take start) ∧ v₁.drop m = .ok (b.items.take start) ∧
      v₁.capacity = v.capacity ∧
      ∀ calls : List Drain.Call, ∃ d' replies, d.run m calls = .ok (d', replies) ∧
        replies.length = calls.length ∧
        (∀ (j : ℕ) (c : Drain.Call), calls[j]? = some c → replies[j]? =
          some (Drain.answer (b.range start stop) (Drain.fronts (calls.take j))
            (Drain.backs (calls.take j)) c)) ∧
        ∃ m' v₂ dropped, d'.drop m (fun _ => false) v₁ = .ok (m', v₂, dropped, false) ∧
          dropped = Drain.left (b.range start stop) (Drain.fronts calls) (Drain.backs calls) ∧
          (b.range start stop).Perm (Drain.yielded replies ++ dropped) ∧
          Holds E m' v₂ (b.remove start stop hle) ∧ v₂.uninit = v.uninit ∧
          v₂.capacity = v.capacity := by
  obtain ⟨d, hdrain, hd, hl⟩ := drain_ok h build hle hstop
  have hshort := h.shorten (hle.trans hstop)
  refine ⟨_, d, hdrain, hshort, drop_ok hshort, rfl, fun calls => ?_⟩
  obtain ⟨d', replies, hrun, hlen, hreplies, m', v₂, hdrop, hperm, hholds, huninit⟩ :=
    hd.run_drop h hle hstop hl calls
  refine ⟨d', replies, hrun, hlen, hreplies, m', v₂, _, hdrop, rfl, hperm, hholds, huninit, ?_⟩
  rw [capacity, huninit]
  rfl

/-- A memory with three two-byte elements. -/
def halfWords.cells : Cells ℕ := fun q =>
  if q = 4096 then some 5 else if q = 4098 then some 6 else if q = 4100 then some 7 else none

theorem halfWords.len_word : 7 < 2 ^ 64 := by decide

theorem halfWords.page_aligned : halfWords.ty.align ∣ 4096 := by decide

/-- The vector of these elements. -/
def halfWords.full : FixedVec halfWords.ty :=
  ⟨⟨4096, 7, 3, page_pos, halfWords.len_word, halfWords.page_aligned⟩, 3⟩

/-- Five, six and seven. -/
def halfWords.list : Bounded ℕ := ⟨[5, 6, 7], 3, le_rfl⟩

theorem halfWords.full_holds : Holds halfWords halfWords.cells halfWords.full halfWords.list where
  length := rfl
  cap := rfl
  stores := by
    intro k x hk
    have hlt : k < 3 := (List.getElem?_eq_some_iff.mp hk).1
    obtain rfl | rfl | rfl : k = 0 ∨ k = 1 ∨ k = 2 := by omega
    · exact hk
    · exact hk
    · exact hk

/-- The first two of three elements: one is yielded, the other one dropped. -/
theorem drain_exact_halfWords :
    ∃ v₁ d d' replies m' v₂,
      halfWords.full.drain .release (.included 0, .excluded 2) = .ok (v₁, d) ∧
      d.run halfWords.cells [.next] = .ok (d', replies) ∧
      d'.drop halfWords.cells (fun _ => false) v₁ = .ok (m', v₂, [6], false) ∧
      Holds halfWords m' v₂ ⟨[7], 3, by decide⟩ := by
  obtain ⟨v₁, d, hdrain, -, -, -, hcalls⟩ :=
    drain_exact halfWords halfWords.full_holds .release (show 0 ≤ 2 by decide)
      (show 2 ≤ 3 by decide)
  obtain ⟨d', replies, hrun, -, -, m', v₂, dropped, hdrop, rfl, -, hholds, -, -⟩ := hcalls [.next]
  exact ⟨v₁, d, d', replies, m', v₂, hdrain, hrun, hdrop, hholds⟩

end FixedVec
end StaticAlloc
