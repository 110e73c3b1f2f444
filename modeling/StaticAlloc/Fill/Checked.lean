import StaticAlloc.Fill.Law
import StaticAlloc.Library.Adaptors
import StaticAlloc.Core.Usize

/-!
# `checked_fill` and `fill_count`

Both methods fill the container from an iterator of their own that passes on what
the caller's iterator answers and keeps a record on the side: `checked_fill` a flag
that is lowered by the first `none` (`Overflow`), around a fuse around a reference to
the iterator, and `fill_count` the number of items (`Inspect`).  What the methods
return is read off the record, so it depends on how the container polls.

A `Container` is any implementation of `Fill` that polls only while it has room,
stores each item it receives, and goes on until it is full or was answered `none`.  It
may poll again after a `none`; one that does not is `Prompt`, and the implementations
for vectors, queues, options and slices all are.

* `checkedFill_of_yields` is the case in which the iterator yields enough items to
  fill the container, and `checkedFill_of_none` the other one.
* `fillCount_eq` says that what is counted are the items that are stored.
* `Exact` puts together what the two methods do, and `exact` proves it for every
  container and every iterator.

A container that polls again after a `none`, as `twice` does, may receive an item that
does not come before it, since `fill_count` does not fuse the iterator; and
`Iterator::fuse` does nothing to an iterator whose type says that it is fused already.
The conditions in `Exact.count` and `Exact.polls` leave out these two cases.
-/

namespace StaticAlloc

open Toolkit Iterator

namespace Fill

variable {α C T I : Type}

/-! ## Containers -/

/-- An implementation of `Fill` for containers of type `C` that polls an iterator only
while there is room, stores each item it receives, and goes on until there is no room
left or it was answered `none`. -/
structure Container (C T : Type) where
  sink : Sink C T
  /-- how many items there is room for -/
  room : C → ℕ
  full_eq : ∀ c, sink.full c = decide (room c = 0)
  room_store : ∀ c a, room c ≠ 0 → room (sink.store c a) + 1 = room c
  /-- `Fill::fill`: the container, and what is left of the iterator -/
  fill : {I : Type} → [Iterator I T] → C → I → C × I
  polled : ∀ {I : Type} [Iterator I T] (c : C) (it : I),
    ∃ k, sink.Polled c it k (fill c it).1 (fill c it).2

namespace Container

/-- The implementation does not poll again after a `none`. -/
def Prompt (F : Container C T) : Prop :=
  ∀ {I : Type} [Iterator I T] (c : C) (it : I),
    ∃ k, F.sink.Polled c it k (F.fill c it).1 (F.fill c it).2 ∧ Yields it (k - 1)

section Filled

variable {K : Sink C T} (room : C → ℕ) (hfull : ∀ c, K.full c = decide (room c = 0))
  (hstore : ∀ c a, room c ≠ 0 → room (K.store c a) + 1 = room c)
  (fill : {I : Type} → [Iterator I T] → C → I → C × I)
  (hfilled : ∀ {I : Type} [Iterator I T] (c : C) (it : I),
    ∃ taken, K.Filled c it taken (fill c it).1 (fill c it).2)

/-- An implementation that keeps the law of filling. -/
def ofFilled : Container C T where
  sink := K
  room := room
  full_eq := hfull
  room_store := hstore
  fill := fill
  polled c it :=
    have ⟨_, h⟩ := hfilled c it
    h.polled.imp fun _ => And.left

end Filled

/-- `Fill for Vec`. -/
def vec (α : Type) : Container (Buffer α) α :=
  ofFilled (K := (Fill.vec α).sink) Buffer.room (fun _ => rfl) Buffer.room_push fillVec
    Buffer.fill_filled

/-- `Fill for VecDeque`. -/
def vecDeque (α : Type) : Container (Buffer α) α :=
  ofFilled (K := (Fill.vecDeque α).sink) Buffer.room (fun _ => rfl) Buffer.room_push fillVecDeque
    Buffer.fill_filled

/-- The room of an option. -/
def optionRoom (c : Option α) : ℕ := if c.isSome then 0 else 1

theorem optionRoom_full (c : Option α) : c.isSome = decide (optionRoom c = 0) := by
  cases c <;> rfl

theorem optionRoom_store (c : Option α) (a : α) (h : optionRoom c ≠ 0) :
    optionRoom (some a) + 1 = optionRoom c := by
  cases c with
  | none => rfl
  | some _ => exact absurd rfl h

/-- `Fill for Option`. -/
def option (α : Type) : Container (Option α) α :=
  ofFilled (K := (Fill.option α).sink) optionRoom optionRoom_full optionRoom_store fillOption
    fillOption_filled

/-- The room of the rest of a slice. -/
def iterRoom {μ : Type} (c : IterMut μ α) : ℕ := c.rest.length

theorem iterRoom_full {μ : Type} (c : IterMut μ α) :
    c.rest.isEmpty = decide (iterRoom c = 0) := by
  rw [iterRoom]
  cases c.rest <;> rfl

theorem iterRoom_advance {μ ι : Type} (put : μ → α → ι → μ × α) (c : IterMut μ α) (a : ι)
    (h : iterRoom c ≠ 0) : iterRoom (IterMut.advance put c a) + 1 = iterRoom c := by
  rcases c with ⟨passed, rest, memory⟩
  cases rest with
  | nil => exact absurd rfl h
  | cons old rest => rfl

/-- `Fill<T> for slice::IterMut<'_, T>`. -/
def iterMut (α : Type) : Container (IterMut Unit α) α :=
  ofFilled (K := (Fill.iterMut α).sink) iterRoom iterRoom_full (iterRoom_advance _) fillIterMut
    fillIterMut_filled

/-- `Fill<&'a mut T> for slice::IterMut<'_, T>`. -/
def iterMutSwap (α : Type) : Container (IterMut (ℕ → α) α) ℕ :=
  ofFilled (K := (Fill.iterMutSwap α).sink) iterRoom iterRoom_full (iterRoom_advance _)
    fillIterMutSwap fillIterMutSwap_filled

end Container

/-! ## The two methods -/

/-- `Overflow`: the flag is lowered by an answer that is not an item. -/
abbrev Overflow (T I : Type) : Type :=
  Watch (fun overflow (next : Option T) => overflow && next.isSome) I

/-- `Iterator::inspect(|_| count += 1)`, where `count` is not bounded yet. -/
abbrev Inspect (T I : Type) : Type :=
  Watch (fun count (next : Option T) => if next.isSome then count + 1 else count) I

/-- `count += 1`, so many times from zero. -/
def increments (b : Build) (w : ℕ) : ℕ → Except Stop ℕ
  | 0 => .ok 0
  | n + 1 => do
    let count ← increments b w n
    addUsize b w count 1

/-- What `checked_fill` leaves behind: the container, the iterator it was given, and
the flag. -/
structure Checked (C I : Type) where
  container : C
  iter : I
  overflow : Bool

/-- `Some(iter).filter(|_| overflow)`. -/
def Checked.returned (r : Checked C I) : Option I := if r.overflow then some r.iter else none

namespace Container

variable [Iterator I T] (F : Container C T)

/-- `Fill::fill_and_keep_tail`: a reference to an iterator polls the iterator. -/
def fillAndKeepTail (c : C) (it : I) : C × I := F.fill c it

/-- `Fill::checked_fill`, for an iterator whose type is marked as fused or is not. -/
def checkedFill (marked : Bool) (c : C) (it : I) : Checked C I :=
  let (c, tail) := F.fillAndKeepTail c (⟨true, ⟨it, marked, false⟩⟩ : Overflow T (Fuse I))
  ⟨c, tail.inner.inner, tail.seen⟩

/-- `Fill::fill_count`. -/
def fillCount (b : Build) (w : ℕ) (c : C) (it : I) : Except Stop (C × ℕ) := do
  let (c, inspected) := F.fill c (⟨0, it⟩ : Inspect T I)
  let count ← increments b w inspected.seen
  .ok (c, count)

end Container

theorem increments_of_lt {b : Build} {w n : ℕ} (h : n < 2 ^ w) : increments b w n = .ok n := by
  induction n with
  | zero => rfl
  | succ n ih => rw [increments, ih (by omega), ok_bind, addUsize_of_lt h]

section Records

variable [Iterator I T] {it : I} {k n : ℕ}

/-- The flag is still up if all answers were items. -/
theorem Overflow.seen_after (k : ℕ) (it : I) :
    (after k (⟨true, it⟩ : Overflow T I)).seen = true ↔ Yields it k := by
  induction k with
  | zero => exact iff_of_true rfl fun j hj => absurd hj (Nat.not_lt_zero j)
  | succ k ih =>
    rw [Watch.seen_after_succ, Bool.and_eq_true, ih, Option.isSome_iff_ne_none]
    constructor
    · rintro ⟨h, hk⟩ j hj
      rcases Nat.lt_succ_iff_lt_or_eq.mp hj with hj | rfl
      · exact h j hj
      · exact hk
    · exact fun h => ⟨h.mono (Nat.le_succ k), h k (Nat.lt_succ_self k)⟩

/-- The count is the number of items received. -/
theorem Inspect.seen_after (k : ℕ) (it : I) :
    (after k (⟨0, it⟩ : Inspect T I)).seen = (received k it).length := by
  induction k with
  | zero => rfl
  | succ k ih =>
    rw [Watch.seen_after_succ, ih, length_received_succ]
    show (if (answer k it).isSome then _ else _) = _
    cases answer k it <;> rfl

end Records

namespace Container

variable [Iterator I T] {F : Container C T} {c : C} {it : I} {marked : Bool} {k n : ℕ}

/-! ## What `checked_fill` does -/

/-- The iterator that `checked_fill` fills the container from. -/
def watched (T : Type) (marked : Bool) (it : I) : Overflow T (Fuse I) := ⟨true, ⟨it, marked, false⟩⟩

/-- What `checked_fill` leaves behind, by the number of times the container polls. -/
theorem checkedFill_of_polled
    (h : F.sink.Polled c (watched T marked it) k (F.fill c (watched T marked it)).1
      (F.fill c (watched T marked it)).2) :
    ∃ overflow, F.checkedFill marked c it =
        ⟨(received k (⟨it, marked, false⟩ : Fuse I)).foldl F.sink.store c,
          (after k (⟨it, marked, false⟩ : Fuse I)).inner, overflow⟩ ∧
      (overflow = true ↔ Yields (⟨it, marked, false⟩ : Fuse I) k) := by
  refine ⟨(after k (watched T marked it)).seen, ?_, Overflow.seen_after k _⟩
  have hstored := h.stored
  rw [Watch.received_eq] at hstored
  have hinner : (F.fill c (watched T marked it)).2.inner =
      after k (⟨it, marked, false⟩ : Fuse I) := by rw [h.rest, Watch.inner_after]; rfl
  show (⟨(F.fill c (watched T marked it)).1, (F.fill c (watched T marked it)).2.inner.inner,
    (F.fill c (watched T marked it)).2.seen⟩ : Checked C I) = _
  rw [hinner, hstored, h.rest]
  rfl

theorem watched_yields (h : Yields it n) : Yields (watched T marked it) n := by
  intro k hk
  rw [Watch.answer_eq]
  exact Fuse.yields h k hk

/-- Before the first `none` and with it, the adaptors answer as the iterator does. -/
theorem watched_firstNone (h : FirstNone it n) : FirstNone (watched T marked it) n where
  yields := watched_yields h.yields
  none := by
    rw [Watch.answer_eq]
    exact (Fuse.answer_of_yields h.yields).trans h.none

/-- **Enough items.**  The container is filled with the first of them, and the rest
comes back. -/
theorem checkedFill_of_yields (h : Yields it (F.room c)) :
    F.checkedFill marked c it =
      ⟨(received (F.room c) it).foldl F.sink.store c, after (F.room c) it, true⟩ := by
  obtain ⟨k, hpolled⟩ := F.polled c (watched T marked it)
  obtain rfl := hpolled.polls_of_yields F.room F.full_eq F.room_store (watched_yields h)
  obtain ⟨overflow, heq, hflag⟩ := checkedFill_of_polled hpolled
  rw [heq, hflag.mpr (Fuse.yields h), Fuse.received_eq h, Fuse.after_eq h]

/-- **Too few items.**  All of them are in the container, and nothing comes back. -/
theorem checkedFill_of_none (h : FirstNone it n) (hlt : n < F.room c)
    (hpolled : F.sink.Polled c (watched T marked it) k (F.fill c (watched T marked it)).1
      (F.fill c (watched T marked it)).2)
    (hend : (marked = true → Fused it) ∨ Yields (watched T marked it) (k - 1)) :
    n < k ∧ F.checkedFill marked c it =
      ⟨(received n it).foldl F.sink.store c,
        (after k (⟨it, marked, false⟩ : Fuse I)).inner, false⟩ := by
  have hn : FirstNone (watched T marked it) n := watched_firstNone h
  have hk := hpolled.polls_of_none F.room F.full_eq F.room_store hn hlt
  have hfirst : answer n (⟨it, marked, false⟩ : Fuse I) = none :=
    (Fuse.answer_of_yields h.yields).trans h.none
  obtain ⟨overflow, heq, hflag⟩ := checkedFill_of_polled hpolled
  have hsilent : received k (⟨it, marked, false⟩ : Fuse I) = received n it := by
    rcases hend with hmarked | hy
    · rw [received_of_silent (fun j hj => Fuse.answer_none h hmarked hj) hk.le,
        Fuse.received_eq h.yields]
    · rw [hn.polls_eq hk hy, received_succ_last, hfirst, Fuse.received_eq h.yields,
        Option.toList_none, List.append_nil]
  have hlowered : overflow = false := by
    rw [← Bool.not_eq_true, hflag]
    exact fun hy => hy n hk hfirst
  refine ⟨hk, ?_⟩
  rw [heq, hsilent, hlowered]

/-! ## What `fill_count` does -/

/-- The iterator that `fill_count` fills the container from. -/
def inspected (T : Type) (it : I) : Inspect T I := ⟨0, it⟩

/-- **What is counted is what is stored.**  The container receives some items, no more
than there is room for, stores them, and `fill_count` returns how many they were. -/
theorem fillCount_of_polled
    (h : F.sink.Polled c (inspected T it) k (F.fill c (inspected T it)).1
      (F.fill c (inspected T it)).2) {b : Build} {w : ℕ} (hword : (received k it).length < 2 ^ w) :
    F.fillCount b w c it =
      .ok ((received k it).foldl F.sink.store c, (received k it).length) := by
  have hstored := h.stored
  rw [Watch.received_eq] at hstored
  have hseen : (F.fill c (inspected T it)).2.seen = (received k it).length := by
    rw [h.rest]
    exact Inspect.seen_after k it
  show (increments b w (F.fill c (inspected T it)).2.seen >>=
    fun count => Except.ok ((F.fill c (inspected T it)).1, count)) = _
  rw [hseen, increments_of_lt hword, ok_bind, hstored]
  rfl

theorem fillCount_eq {b : Build} {w : ℕ} (hword : F.room c < 2 ^ w) :
    ∃ l : List T, l.length ≤ F.room c ∧
      F.fillCount b w c it = .ok (l.foldl F.sink.store c, l.length) := by
  obtain ⟨k, h⟩ := F.polled c (inspected T it)
  have hle := h.length_le F.room F.full_eq F.room_store
  rw [Watch.received_eq] at hle
  exact ⟨received k it, hle, fillCount_of_polled h (lt_of_le_of_lt hle hword)⟩

theorem inspected_firstNone (h : FirstNone it n) : FirstNone (inspected T it) n where
  yields k hk := by
    rw [Watch.answer_eq]
    exact h.yields k hk
  none := by
    rw [Watch.answer_eq]
    exact h.none

/-- If the container does not poll again after the first `none`, or receives nothing
when it does, it receives the items before it. -/
theorem received_eq_min (h : FirstNone it n)
    (hpolled : F.sink.Polled c (inspected T it) k (F.fill c (inspected T it)).1
      (F.fill c (inspected T it)).2)
    (hend : Fused it ∨ Yields (inspected T it) (k - 1)) :
    received k it = received (min (F.room c) n) it := by
  have hn := inspected_firstNone (T := T) h
  rcases Nat.lt_or_ge n (F.room c) with hlt | hge
  · have hk := hpolled.polls_of_none F.room F.full_eq F.room_store hn hlt
    rw [Nat.min_eq_right hlt.le]
    rcases hend with hfused | hy
    · exact received_of_silent (fun j hj => hfused n j hj h.none) hk.le
    · rw [hn.polls_eq hk hy, received_succ_last, h.none, Option.toList_none, List.append_nil]
  · rw [Nat.min_eq_left hge,
      hpolled.polls_of_yields F.room F.full_eq F.room_store (hn.yields.mono hge)]

/-! ## Both together -/

/-- What the two methods do with an iterator whose first `none` comes after `n` items,
if the container has room for `F.room c`. -/
structure Exact (F : Container C T) (c : C) (it : I) (marked : Bool) (n : ℕ) : Prop where
  /-- `checked_fill` stores the first items, as many as there are and there is room for. -/
  stored : (received (min (F.room c) n) it).length = min (F.room c) n ∧
    (F.checkedFill marked c it).container =
      (received (min (F.room c) n) it).foldl F.sink.store c
  /-- It returns the iterator, right after these items, if they fill the container. -/
  returned : (F.checkedFill marked c it).returned =
    if F.room c ≤ n then some (after (F.room c) it) else none
  /-- It does not poll the iterator past its first `none`. -/
  polls : marked = false ∨ F.Prompt →
    (F.checkedFill marked c it).iter = after (min (F.room c) (n + 1)) it
  /-- `fill_count` stores the same items and returns how many they are. -/
  count : Fused it ∨ F.Prompt → ∀ (b : Build) (w : ℕ), min (F.room c) n < 2 ^ w →
    F.fillCount b w c it =
      .ok ((received (min (F.room c) n) it).foldl F.sink.store c, min (F.room c) n)
  /-- In any case `fill_count` returns how many items it stores. -/
  counted : ∀ (b : Build) (w : ℕ), F.room c < 2 ^ w →
    ∃ l : List T, l.length ≤ F.room c ∧
      F.fillCount b w c it = .ok (l.foldl F.sink.store c, l.length)

/-- However often a container polls: if it is prompt, it is not past the first
`none`. -/
theorem exists_polled {P : Prop} {J : Type} [Iterator J T] (h : P ∨ F.Prompt) (c : C) (it : J) :
    ∃ k, F.sink.Polled c it k (F.fill c it).1 (F.fill c it).2 ∧ (P ∨ Yields it (k - 1)) := by
  rcases h with h | hprompt
  · obtain ⟨k, hpolled⟩ := F.polled c it
    exact ⟨k, hpolled, Or.inl h⟩
  · obtain ⟨k, hpolled, hy⟩ := hprompt c it
    exact ⟨k, hpolled, Or.inr hy⟩

theorem exact (F : Container C T) (c : C) (h : FirstNone it n)
    (hmarked : (marked = true → Fused it) ∨ F.Prompt) : F.Exact c it marked n := by
  have hlength : (received (min (F.room c) n) it).length = min (F.room c) n :=
    (h.yields.mono (Nat.min_le_right _ _)).length_received
  have hcount : Fused it ∨ F.Prompt → ∀ (b : Build) (w : ℕ), min (F.room c) n < 2 ^ w →
      F.fillCount b w c it =
        .ok ((received (min (F.room c) n) it).foldl F.sink.store c, min (F.room c) n) := by
    intro hend b w hword
    obtain ⟨k, hpolled, hend⟩ := exists_polled hend c (inspected T it)
    have hreceived := received_eq_min h hpolled hend
    have hcount := fillCount_of_polled hpolled (b := b) (w := w)
    rw [hreceived, hlength] at hcount
    exact hcount hword
  rcases Nat.lt_or_ge n (F.room c) with hlt | hge
  · obtain ⟨k, hpolled, hend⟩ := exists_polled hmarked c (watched T marked it)
    obtain ⟨-, heq⟩ := checkedFill_of_none h hlt hpolled hend
    refine ⟨⟨hlength, ?_⟩, ?_, ?_, hcount, fun b w => fillCount_eq⟩
    · rw [heq, Nat.min_eq_right hlt.le]
    · rw [heq, if_neg (by omega)]
      rfl
    · intro honce
      obtain ⟨k, hpolled, honce⟩ := exists_polled honce c (watched T marked it)
      obtain ⟨hk, heq⟩ := checkedFill_of_none h hlt hpolled
        (honce.imp (fun hunmarked hm => absurd (hunmarked.symm.trans hm) Bool.false_ne_true) id)
      rw [heq, Nat.min_eq_right (show n + 1 ≤ F.room c from hlt)]
      rcases honce with rfl | hy
      · exact congrArg Fuse.inner (Fuse.after_none h hk)
      · rw [(watched_firstNone h).polls_eq hk hy]
        exact Fuse.inner_after_first h
  · have heq : F.checkedFill marked c it = _ := checkedFill_of_yields (h.yields.mono hge)
    refine ⟨⟨hlength, ?_⟩, ?_, ?_, hcount, fun b w => fillCount_eq⟩
    · rw [heq, Nat.min_eq_left hge]
    · rw [heq, if_pos hge]
      rfl
    · intro _
      rw [heq, Nat.min_eq_left (show F.room c ≤ n + 1 by omega)]

end Container

end Fill

end StaticAlloc
