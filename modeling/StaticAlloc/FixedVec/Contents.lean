import StaticAlloc.FixedVec.Spec

/-!
# One vector and the list it holds

`Holds E m v b` says that the vector `v`, in the memory `m`, is the bounded list
`b`: the length is that of the list, the capacity is the list's, and the cells
from the start of the view on hold the elements.

For each operation there is one lemma: on a vector that holds `b`, it returns ---
none of the splits it makes fails, and none of the cells it reads is empty --- and
the vector afterwards holds what the operation of the same name makes of `b`.
Elements without bytes go through the same lemmas.  Where the arithmetic differs
for them it is in what `capacity` and the last index of a view are, and both come
out right because every product with the size is zero.
-/

namespace StaticAlloc

open Toolkit

variable {w : ℕ} {α : Type} {E : Element w α}

/-- Whether the elements occupy memory. -/
def Element.kind (E : Element w α) : FixedVec.Kind :=
  if E.ty.size = 0 then .zeroSized else .sized

namespace FixedVec

variable {m : Cells α} {v : FixedVec E.ty} {b : Bounded α}

/-- The memory of the elements. -/
def front {T : Ty w} (v : FixedVec T) : Span := ⟨v.uninit.ptr, v.length * T.size⟩

/-- The vector is this bounded list. -/
structure Holds (E : Element w α) (m : Cells α) (v : FixedVec E.ty) (b : Bounded α) : Prop where
  length : v.length = b.items.length
  cap : v.capacity = b.cap
  stores : m.Stores E.ty.size v.uninit.ptr b.items

namespace Holds

theorem length_le (h : Holds E m v b) : v.length ≤ v.capacity := by
  rw [h.length, h.cap]
  exact b.bounded

/-- Any number of elements within the capacity fits into the view. -/
theorem mul_le {k : ℕ} (hk : k ≤ v.capacity) : k * E.ty.size ≤ v.uninit.len :=
  (Nat.mul_le_mul_right _ hk).trans v.uninit.capacity_mul_le

theorem front_le (h : Holds E m v b) : v.length * E.ty.size ≤ v.uninit.len := mul_le h.length_le

end Holds

/-- The elements lie in the view. -/
theorem front_subset (h : Holds E m v b) : v.front.addresses ⊆ v.uninit.span.addresses :=
  Span.addresses_subset le_rfl (Nat.add_le_add_left h.front_le _)

theorem headTailMut_ok (h : Holds E m v b) :
    ∃ head tail, v.headTailMut = .ok (head, tail) ∧ head.span = v.front ∧
      tail.span = ⟨v.endMutPtr, v.uninit.len - v.length * E.ty.size⟩ := by
  obtain ⟨head, tail, hsplit, hhead, htail⟩ := UninitSlice.splitAt_some h.front_le
  refine ⟨head, tail, ?_, hhead, htail⟩
  rw [headTailMut, hsplit]
  rfl

/-! ## Push and pop -/

/-- Without room for one more element the tail has less than the bytes of one, or
the length is at its maximum. -/
theorem push_full (h : Holds E m v b) (hfull : b.items.length = b.cap) (val : α) :
    v.push m val = .ok (m, v, .error val) := by
  rw [push]
  by_cases hmax : v.length = usizeMax w
  · exact if_pos hmax
  · rw [if_neg hmax]
    have hcap : v.length = v.uninit.capacity := h.length.trans (hfull.trans h.cap.symm)
    have hpos : 0 < E.ty.size := by
      refine Nat.pos_of_ne_zero fun hz => hmax ?_
      rw [hcap, UninitSlice.capacity_of_size_eq_zero hz]
    obtain ⟨head, tail, hsplit, -, htail⟩ := headTailMut_ok h
    have hlen : tail.len = v.uninit.len % E.ty.size := by
      have hdiv := Nat.div_add_mod' v.uninit.len E.ty.size
      have hlen : tail.len = v.uninit.len - v.length * E.ty.size := congrArg Span.size htail
      rw [hcap, UninitSlice.capacity_of_size_pos hpos] at hlen
      omega
    have hnone := UninitSlice.splitFirst_none (s := tail) (hlen ▸ Nat.mod_lt _ hpos)
    simp only [hsplit, ok_bind, hnone]

/-- With room for one more element it is written behind the others. -/
theorem push_room (h : Holds E m v b) (hroom : b.items.length ≠ b.cap) (val : α) :
    v.push m val =
        .ok (m.write E.ty.size v.endMutPtr val, { v with length := v.length + 1 }, .ok ()) ∧
      v.endMutPtr + E.ty.size ≤ v.uninit.ptr + v.uninit.len := by
  have hlt : v.length + 1 ≤ v.capacity := by
    have hle := h.length_le
    have := h.length
    have := h.cap
    omega
  have hmul : v.length * E.ty.size + E.ty.size ≤ v.uninit.len := by
    have := Holds.mul_le hlt
    rwa [Nat.add_mul, Nat.one_mul] at this
  have hmax : v.length ≠ usizeMax w := by
    have := v.uninit.capacity_le
    have : v.capacity = v.uninit.capacity := rfl
    omega
  obtain ⟨head, tail, hsplit, -, htail⟩ := headTailMut_ok h
  have hlen : tail.len = v.uninit.len - v.length * E.ty.size := congrArg Span.size htail
  obtain ⟨rest, init, hfirst, hinit, -⟩ := UninitSlice.splitFirst_some (s := tail) (by omega)
  have hptr : init.ptr = v.endMutPtr := by
    have h₁ : init.ptr = tail.ptr := congrArg Span.start hinit
    have h₂ : tail.ptr = v.endMutPtr := congrArg Span.start htail
    exact h₁.trans h₂
  constructor
  · rw [push, if_neg hmax]
    simp only [hsplit, ok_bind, hfirst, hptr]
  · rw [endMutPtr]
    omega

theorem Holds.write_end (h : Holds E m v b) {val : α} {b' : Bounded α}
    (hb' : b.push val = some b') :
    Holds E (m.write E.ty.size v.endMutPtr val) { v with length := v.length + 1 } b' := by
  rw [Bounded.push] at hb'
  split at hb'
  · exact absurd hb' (by simp)
  · rw [← Option.some.inj hb']
    refine ⟨?_, h.cap, ?_⟩
    · show v.length + 1 = (b.items ++ [val]).length
      rw [List.length_append, List.length_singleton, h.length]
    · rw [endMutPtr, h.length]
      exact h.stores.write_end E.single

/-- The cells hold the elements. -/
theorem readCell_ok (h : Holds E m v b) {k : ℕ} (hk : k < b.items.length) :
    readCell m (v.uninit.ptr + k * E.ty.size) = .ok b.items[k] := by
  rw [readCell, h.stores.get hk]

/-- The first elements on their own. -/
theorem Holds.take (h : Holds E m v b) (n : ℕ) :
    Holds E m { v with length := min n v.length } (b.take n) where
  length := by
    rw [h.length]
    exact (List.length_take ..).symm
  cap := h.cap
  stores := h.stores.take n

theorem pop_empty (h : Holds E m v b) (hempty : b.items = []) : v.pop m = .ok (v, none) := by
  rw [pop]
  refine if_pos ?_
  rw [h.length, hempty]
  rfl

/-- The last element is read where the head ends. -/
theorem pop_last (h : Holds E m v b) {val : α} (hlast : b.items.getLast? = some val) :
    v.pop m = .ok ({ v with length := v.length - 1 }, some val) := by
  obtain ⟨l, hl⟩ := List.getLast?_eq_some_iff.mp hlast
  have hlength : v.length = l.length + 1 := by
    rw [h.length, hl, List.length_append, List.length_singleton]
  obtain ⟨head, tail, hsplit, hhead, -⟩ := headTailMut_ok h
  have hlen : head.len = v.length * E.ty.size := congrArg Span.size hhead
  have hsize : E.ty.size ≤ head.len := by
    rw [hlen, hlength, Nat.add_mul, Nat.one_mul]
    exact Nat.le_add_left _ _
  obtain ⟨rest, last, hsplitLast, -, hspan, -⟩ := UninitSlice.splitLast_some hsize
  -- the last index times the size, whatever the index is for elements without bytes
  have hindex : wrappingSub w head.capacity 1 * E.ty.size = l.length * E.ty.size := by
    rcases Nat.eq_zero_or_pos E.ty.size with hz | hpos
    · rw [hz, Nat.mul_zero, Nat.mul_zero]
    · have hcap : head.capacity = l.length + 1 := by
        rw [UninitSlice.capacity_of_size_pos hpos, hlen, hlength, Nat.mul_div_cancel _ hpos]
      have hlt : head.capacity < 2 ^ w := by
        have := head.capacity_le
        have := usizeMax_lt w
        omega
      rw [wrappingSub_of_le (by omega) hlt, hcap, Nat.add_sub_cancel]
  have hptr : last.ptr = v.uninit.ptr + l.length * E.ty.size := by
    have h₁ : last.ptr = head.ptr + wrappingSub w head.capacity 1 * E.ty.size :=
      congrArg Span.start hspan
    have h₂ : head.ptr = v.uninit.ptr := congrArg Span.start hhead
    rw [h₁, hindex, h₂]
  have hread : readCell m last.ptr = .ok val := by
    have hk : l.length < b.items.length := by
      rw [← h.length]
      omega
    have hget : b.items[l.length] = val := by
      simp only [hl, List.getElem_concat_length]
    rw [hptr, readCell_ok h hk, hget]
  rw [pop, if_neg (by omega)]
  simp only [hsplit, ok_bind, hsplitLast, unwrap_some, hread]

/-! ## Truncating and dropping -/

/-- The elements whose destructor is started when a list is dropped from the
front: a panic is the end of it. -/
def started (panics : α → Bool) : List α → List α
  | [] => []
  | a :: l => a :: if panics a then [] else started panics l

theorem started_isPrefix (panics : α → Bool) (l : List α) : started panics l <+: l := by
  induction l with
  | nil => exact List.prefix_rfl
  | cons a l ih =>
    rw [started]
    split
    · exact List.cons_prefix_cons.mpr ⟨rfl, List.nil_prefix⟩
    · exact List.cons_prefix_cons.mpr ⟨rfl, ih⟩

theorem started_all {panics : α → Bool} {l : List α} (h : l.any panics = false) :
    started panics l = l := by
  induction l with
  | nil => rfl
  | cons a l ih =>
    rw [List.any_cons, Bool.or_eq_false_iff] at h
    rw [started, h.1, ih h.2]
    rfl

/-- The loop drops the elements from the last one down, up to the first that panics. -/
theorem truncateLoop_started (h : Holds E m v b) (panics : α → Bool) (n : ℕ) {l : ℕ}
    (hl : l ≤ b.items.length) (hn : n ≤ l) {L : List α}
    (hL : L = ((b.items.take l).drop (l - n)).reverse) :
    truncateLoop E.ty m panics n l (v.uninit.ptr + l * E.ty.size) =
      .ok (l - (started panics L).length, started panics L, L.any panics) := by
  induction n generalizing l L with
  | zero =>
    have hnil : (b.items.take l).drop (l - 0) = [] :=
      List.drop_eq_nil_of_le (List.length_take_le _ _)
    rw [hL, hnil]
    rfl
  | succ n ih =>
    obtain ⟨l, rfl⟩ : ∃ l', l = l' + 1 := ⟨l - 1, by omega⟩
    have hptr : v.uninit.ptr + (l + 1) * E.ty.size - E.ty.size = v.uninit.ptr + l * E.ty.size := by
      rw [Nat.add_mul, Nat.one_mul]
      omega
    have hdrop : (b.items.take (l + 1)).drop (l - n) =
        (b.items.take l).drop (l - n) ++ [b.items[l]] := by
      rw [List.take_add_one, List.getElem?_eq_getElem (by omega),
        List.drop_append_of_le_length (by rw [List.length_take]; omega)]
      rfl
    rw [Nat.add_sub_add_right l 1 n, hdrop, List.reverse_append, List.reverse_singleton,
      List.singleton_append] at hL
    rw [truncateLoop, hptr, readCell_ok h (by omega), hL, started, List.any_cons]
    cases hp : panics b.items[l] with
    | true => simp only [ok_bind, hp, if_true, List.length_singleton, Bool.true_or]
    | false =>
      simp only [ok_bind, hp, Bool.false_eq_true, if_false, Nat.add_sub_cancel, Bool.false_or,
        List.length_cons, ih (l := l) (by omega) (by omega) rfl, Nat.add_sub_add_right]

/-- `truncate` keeps the first elements, as many as have not been dropped. -/
theorem truncate_started (h : Holds E m v b) (panics : α → Bool) (len : ℕ) {L : List α}
    (hL : L = (b.items.drop len).reverse) :
    v.truncate m panics len =
      .ok ({ v with length := v.length - (started panics L).length }, started panics L,
        L.any panics) := by
  have hlen := h.length
  have hdrop : L = ((b.items.take v.length).drop (v.length - (v.length - len))).reverse := by
    rw [hL, hlen, List.take_length]
    rcases Nat.le_total len b.items.length with hle | hle
    · rw [show b.items.length - (b.items.length - len) = len by omega]
    · rw [List.drop_eq_nil_of_le hle, List.drop_eq_nil_of_le (by omega)]
  rw [truncate, endMutPtr, truncateLoop_started h panics _ hlen.le (Nat.sub_le _ _) hdrop]
  rfl

/-- If no destructor panics, `truncate` keeps the first `len` elements and drops
the others. -/
theorem truncate_ok (h : Holds E m v b) (len : ℕ) :
    v.truncate m (fun _ => false) len =
      .ok ({ v with length := min len v.length }, (b.items.drop len).reverse, false) := by
  have hany : (b.items.drop len).reverse.any (fun _ => false) = false := by simp
  have hlength : v.length - (b.items.drop len).reverse.length = min len v.length := by
    rw [List.length_reverse, List.length_drop, ← h.length]
    omega
  rw [truncate_started h _ len rfl, started_all hany, hany, hlength]

theorem dropSlice_ok (T : Ty w) (items : List α) {p : ℕ} (h : m.Stores T.size p items) :
    dropSlice T m p items.length = .ok items := by
  induction items generalizing p with
  | nil => rfl
  | cons a items ih =>
    have happ : m.Stores T.size p ([a] ++ items) := h
    have hsplit := Cells.Stores.append_iff.mp happ
    have hread : readCell m p = .ok a := by
      have := hsplit.1.get (k := 0) Nat.one_pos
      rw [Nat.zero_mul, Nat.add_zero] at this
      rw [readCell, this]
      rfl
    have hrest := ih (p := p + T.size) (by
      have := hsplit.2
      rwa [List.length_singleton, Nat.one_mul] at this)
    rw [List.length_cons, dropSlice, hread]
    simp only [ok_bind, hrest]

/-- Dropping the vector drops all its elements. -/
theorem drop_ok (h : Holds E m v b) : v.drop m = .ok b.items := by
  rw [drop, h.length]
  exact dropSlice_ok E.ty b.items h.stores

/-! ## Filling -/

/-- The loop writes what it pulls behind the elements. -/
theorem fillLoop_eq {T : Ty w} (n : ℕ) (m : Cells α) (v : FixedVec T) (iter : Source α) :
    fillLoop n m v iter =
      (m.writeArray T.size v.endMutPtr (iter.pull n).1,
        { v with length := v.length + (iter.pull n).1.length }, (iter.pull n).2,
        (iter.pull n).1) := by
  induction n generalizing m v iter with
  | zero => rfl
  | succ n ih =>
    rw [fillLoop, Source.pull]
    cases hnext : iter.next with
    | mk o iter' =>
      cases o with
      | none => rfl
      | some item =>
        have hend : endMutPtr { v with length := v.length + 1 } = v.endMutPtr + T.size := by
          rw [endMutPtr, endMutPtr, Nat.add_mul, Nat.one_mul, Nat.add_assoc]
        simp only [ih, hend, List.length_cons, Cells.writeArray]
        rw [Nat.add_assoc, Nat.add_comm 1]

theorem fill_eq (h : Holds E m v b) (iter : Source α) :
    v.fill m iter =
      (m.writeArray E.ty.size v.endMutPtr (iter.pull (b.cap - b.items.length)).1,
        { v with length := v.length + (iter.pull (b.cap - b.items.length)).1.length },
        (iter.pull (b.cap - b.items.length)).2, (iter.pull (b.cap - b.items.length)).1) := by
  rw [fill, fillLoop_eq, h.cap, h.length]

theorem Holds.fill (h : Holds E m v b) (iter : Source α) :
    Holds E (m.writeArray E.ty.size v.endMutPtr (iter.pull (b.cap - b.items.length)).1)
      { v with length := v.length + (iter.pull (b.cap - b.items.length)).1.length }
      (b.fill iter) where
  length := by
    rw [h.length]
    exact (List.length_append ..).symm
  cap := h.cap
  stores := by
    rw [endMutPtr, h.length]
    exact h.stores.writeArray_end E.single

/-- What is written lies in the view. -/
theorem fill_room (h : Holds E m v b) (iter : Source α) :
    v.endMutPtr + (iter.pull (b.cap - b.items.length)).1.length * E.ty.size ≤
      v.uninit.ptr + v.uninit.len := by
  have hle := iter.pull_length_le (b.cap - b.items.length)
  have hb := b.bounded
  have hmul := Holds.mul_le (v := v)
    (k := v.length + (iter.pull (b.cap - b.items.length)).1.length)
    (by rw [h.length, h.cap]; omega)
  rw [Nat.add_mul] at hmul
  rw [endMutPtr]
  omega

/-! ## Splitting -/

theorem capacity_eq (T : Ty w) (v : FixedVec T) :
    v.capacity = if T.size = 0 then usizeMax w else v.uninit.len / T.size := by
  split
  · exact UninitSlice.capacity_of_size_eq_zero ‹_›
  · exact UninitSlice.capacity_of_size_pos (Nat.pos_of_ne_zero ‹_›)

/-- The two parts of a split of the view, and the elements in them. -/
theorem split_ok (h : Holds E m v b) {k : ℕ} (hk : k ≤ b.cap) :
    ∃ s t, v.uninit.splitAt k = .ok (some (s, t)) ∧
      s.span = ⟨v.uninit.ptr, k * E.ty.size⟩ ∧
      t.span = ⟨v.uninit.ptr + k * E.ty.size, v.uninit.len - k * E.ty.size⟩ ∧
      Holds E m ⟨s, v.length - (v.length - k)⟩ (b.first E.kind k) ∧
      Holds E m ⟨t, v.length - k⟩ (b.second E.kind k) := by
  have hmul : k * E.ty.size ≤ v.uninit.len := Holds.mul_le (by rw [h.cap]; exact hk)
  obtain ⟨s, t, hsplit, hs, ht⟩ := UninitSlice.splitAt_some hmul
  have hsptr : s.ptr = v.uninit.ptr := congrArg Span.start hs
  have hslen : s.len = k * E.ty.size := congrArg Span.size hs
  have htptr : t.ptr = v.uninit.ptr + k * E.ty.size := congrArg Span.start ht
  have htlen : t.len = v.uninit.len - k * E.ty.size := congrArg Span.size ht
  have hvcap := h.cap
  rw [capacity_eq] at hvcap
  refine ⟨s, t, hsplit, hs, ht, ⟨?_, ?_, ?_⟩, ⟨?_, ?_, ?_⟩⟩
  · show v.length - (v.length - k) = (b.items.take k).length
    rw [List.length_take, h.length]
    omega
  · show FixedVec.capacity ⟨s, _⟩ = b.firstCap E.kind k
    rw [capacity_eq, Element.kind]
    by_cases hz : E.ty.size = 0
    · rw [if_pos hz, if_pos hz]
      rwa [if_pos hz] at hvcap
    · rw [if_neg hz, if_neg hz]
      show s.len / E.ty.size = k
      rw [hslen, Nat.mul_div_cancel _ (Nat.pos_of_ne_zero hz)]
  · show m.Stores E.ty.size s.ptr (b.items.take k)
    rw [hsptr]
    exact h.stores.take k
  · show v.length - k = (b.items.drop k).length
    rw [List.length_drop, h.length]
  · show FixedVec.capacity ⟨t, _⟩ = b.secondCap E.kind k
    rw [capacity_eq, Element.kind]
    by_cases hz : E.ty.size = 0
    · rw [if_pos hz, if_pos hz]
      rwa [if_pos hz] at hvcap
    · rw [if_neg hz, if_neg hz]
      show t.len / E.ty.size = b.cap - k
      rw [if_neg hz] at hvcap
      rw [htlen, ← hvcap, Nat.mul_comm k, Nat.sub_mul_div]
  · show m.Stores E.ty.size t.ptr (b.items.drop k)
    rw [htptr]
    rcases Nat.le_total k b.items.length with hle | hle
    · exact h.stores.drop hle
    · rw [List.drop_eq_nil_of_le hle]
      exact Cells.Stores.nil

theorem splitBorrowed_ok (h : Holds E m v b) {k : ℕ} (hk : k ≤ b.cap) :
    ∃ part, v.splitBorrowed k = .ok ({ v with length := min k v.length }, part) ∧
      Holds E m { v with length := min k v.length } (b.take k) ∧
      Holds E m part (b.second E.kind k) ∧
      part.uninit.span = ⟨v.uninit.ptr + k * E.ty.size, v.uninit.len - k * E.ty.size⟩ ∧
      k * E.ty.size ≤ v.uninit.len := by
  have hcap : k ≤ v.capacity := by rwa [h.cap]
  obtain ⟨s, t, hsplit, -, ht, -, hsecond⟩ := split_ok h hk
  refine ⟨_, ?_, h.take k, hsecond, ht, Holds.mul_le hcap⟩
  rw [splitBorrowed, assert_true hcap]
  simp only [ok_bind, hsplit, unwrap_some, saturatingSub,
    show v.length - (v.length - k) = min k v.length by omega]

theorem splitAndShrinkTo_ok (h : Holds E m v b) {k : ℕ} (hk : k ≤ b.cap) :
    ∃ v' part, v.splitAndShrinkTo k = .ok (v', part) ∧
      Holds E m v' (b.first E.kind k) ∧ Holds E m part (b.second E.kind k) ∧
      v'.uninit.span = ⟨v.uninit.ptr, k * E.ty.size⟩ ∧
      part.uninit.span = ⟨v.uninit.ptr + k * E.ty.size, v.uninit.len - k * E.ty.size⟩ ∧
      k * E.ty.size ≤ v.uninit.len := by
  have hcap : k ≤ v.capacity := by rwa [h.cap]
  obtain ⟨s, t, hsplit, hs, ht, hfirst, hsecond⟩ := split_ok h hk
  refine ⟨_, _, ?_, hfirst, hsecond, hs, ht, Holds.mul_le hcap⟩
  rw [splitAndShrinkTo, assert_true hcap]
  simp only [ok_bind, hsplit, unwrap_some, saturatingSub]

theorem split_outOfBounds {k : ℕ} (hk : ¬ k ≤ v.capacity) :
    v.splitBorrowed k = .error (.panic "`at` out of bounds") ∧
      v.splitAndShrinkTo k = .error (.panic "`at` out of bounds") := by
  rw [splitBorrowed, splitAndShrinkTo, assert_false hk]
  exact ⟨rfl, rfl⟩

theorem shrinkToFit_ok (h : Holds E m v b) :
    ∃ v' rest, v.shrinkToFit = .ok (v', rest) ∧ Holds E m v' b ∧
      v'.uninit.span = ⟨v.uninit.ptr, v.capacity * E.ty.size⟩ := by
  obtain ⟨s, rest, hshrink, hs, -⟩ := v.uninit.shrinkToFit_ok
  have hptr : s.ptr = v.uninit.ptr := congrArg Span.start hs
  have hlen : s.len = v.uninit.capacity * E.ty.size := congrArg Span.size hs
  refine ⟨{ v with uninit := s }, rest, ?_, ⟨h.length, ?_, ?_⟩, hs⟩
  · rw [shrinkToFit, hshrink]
    rfl
  · rw [← h.cap, capacity_eq, capacity_eq]
    by_cases hz : E.ty.size = 0
    · rw [if_pos hz, if_pos hz]
    · rw [if_neg hz, if_neg hz]
      show s.len / E.ty.size = _
      rw [hlen, UninitSlice.capacity_of_size_pos (Nat.pos_of_ne_zero hz),
        Nat.mul_div_cancel _ (Nat.pos_of_ne_zero hz)]
  · show m.Stores E.ty.size s.ptr b.items
    rw [hptr]
    exact h.stores

end FixedVec

end StaticAlloc
