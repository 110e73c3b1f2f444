import StaticAlloc.Library.Sources

/-!
# Filling a container from an iterator

An iterator is anything that can be polled for items; `Iterator.answer k` is what it
says to the poll after `k` others, and `Iterator.after k` is what it is by then.  A
`Cursor` is a source that counts how often it was polled, so that two polls more
never go unnoticed, not even at the end of the source.

A `Sink` is a container with limited room, as far as filling it is concerned: it is
full or not, and if it is not, it can store one more item.  `Sink.Filled` is the law
of filling.  Every item pulled is stored, in order; an item is asked for only while
there is room; and it ends because the container is full or because the iterator had
nothing more, and at once.  The law is put together from the front by
`Filled.of_full`, `Filled.of_none` and `Filled.cons`, and `Filled.uncons` takes the
first item off again.

`forTake` is the loop over at most `n` items, and `forTake_filled` says that it
fills a container that has room for `n`.
-/

namespace Toolkit

/-- Something that can be polled for items. -/
class Iterator (I : Type*) (α : outParam (Type*)) where
  /-- Poll once: the answer, and the iterator afterwards. -/
  next : I → Option α × I

namespace Iterator

variable {I α : Type*} [Iterator I α]

/-- The iterator after `k` polls. -/
def after : ℕ → I → I
  | 0, it => it
  | k + 1, it => after k (next it).2

/-- The answer to the poll after `k` others. -/
def answer (k : ℕ) (it : I) : Option α := (next (after k it)).1

variable {it it' : I} {o : Option α}

theorem answer_zero (h : next it = (o, it')) : answer 0 it = o := congrArg Prod.fst h

theorem after_succ (h : next it = (o, it')) (k : ℕ) : after (k + 1) it = after k it' :=
  congrArg (after k) (congrArg Prod.snd h)

theorem answer_succ (h : next it = (o, it')) (k : ℕ) : answer (k + 1) it = answer k it' :=
  congrArg (fun i => (next i).1) (after_succ h k)

end Iterator

open Iterator

/-! ## Two iterators -/

/-- An iterator over one item, or none. -/
structure Once (α : Type*) where
  item : Option α

instance {α : Type*} : Iterator (Once α) α := ⟨fun o => (o.item, ⟨none⟩)⟩

/-- A source, and how often it was polled. -/
structure Cursor (α : Type*) where
  source : Source α
  polls : ℕ

instance {α : Type*} : Iterator (Cursor α) α :=
  ⟨fun c => (c.source.poll c.polls, ⟨c.source, c.polls + 1⟩)⟩

namespace Cursor

variable {α : Type*}

theorem after_eq (k : ℕ) (c : Cursor α) : after k c = ⟨c.source, c.polls + k⟩ := by
  induction k generalizing c with
  | zero => rfl
  | succ k ih =>
    refine (ih ⟨c.source, c.polls + 1⟩).trans ?_
    rw [Nat.add_assoc, Nat.add_comm 1 k]

theorem answer_eq (k : ℕ) (c : Cursor α) : answer k c = c.source.poll (c.polls + k) :=
  congrArg (fun c => (next c).1) (after_eq k c)

/-- No poll goes unnoticed. -/
theorem after_injective {j k : ℕ} {c : Cursor α} (h : after j c = after k c) : j = k := by
  rw [after_eq, after_eq] at h
  exact Nat.add_left_cancel (congrArg polls h)

end Cursor

/-! ## Sinks -/

/-- A container with limited room. -/
structure Sink (σ α : Type*) where
  full : σ → Bool
  /-- One more item, into a container that is not full. -/
  store : σ → α → σ

namespace Sink

variable {σ α I : Type*} [Iterator I α]

/-- The law of filling `c` from `it`: `taken` are the items that were pulled, and
`c'` and `it'` are what there is afterwards. -/
structure Filled (K : Sink σ α) (c : σ) (it : I) (taken : List α) (c' : σ) (it' : I) : Prop where
  /-- The items are the first answers of the iterator. -/
  pulled : ∀ k, k < taken.length → answer k it = taken[k]?
  /-- An item is pulled only while there is room. -/
  room : ∀ k, k < taken.length → K.full ((taken.take k).foldl K.store c) = false
  /-- All items are stored, in order. -/
  stored : c' = taken.foldl K.store c
  /-- It ends as soon as the container is full or the iterator has nothing more. -/
  stopped : (K.full c' = true ∧ it' = after taken.length it) ∨
    (K.full c' = false ∧ answer taken.length it = none ∧ it' = after (taken.length + 1) it)

variable {K : Sink σ α} {c c' : σ} {it it₁ it' : I} {a : α} {l : List α}

/-- A full container is filled without a poll. -/
theorem Filled.of_full (h : K.full c = true) : K.Filled c it [] c it where
  pulled _ hk := absurd hk (Nat.not_lt_zero _)
  room _ hk := absurd hk (Nat.not_lt_zero _)
  stored := rfl
  stopped := Or.inl ⟨h, rfl⟩

theorem Filled.of_none (h : K.full c = false) (hnext : next it = (none, it')) :
    K.Filled c it [] c it' where
  pulled _ hk := absurd hk (Nat.not_lt_zero _)
  room _ hk := absurd hk (Nat.not_lt_zero _)
  stored := rfl
  stopped := Or.inr ⟨h, answer_zero hnext, (after_succ hnext 0).symm⟩

/-- An item that is stored, and then the rest. -/
theorem Filled.cons (h : K.full c = false) (hnext : next it = (some a, it₁))
    (hrest : K.Filled (K.store c a) it₁ l c' it') : K.Filled c it (a :: l) c' it' where
  pulled k hk := by
    cases k with
    | zero => exact answer_zero hnext
    | succ k =>
      rw [answer_succ hnext, List.getElem?_cons_succ]
      exact hrest.pulled k (Nat.lt_of_succ_lt_succ hk)
  room k hk := by
    cases k with
    | zero => exact h
    | succ k => exact hrest.room k (Nat.lt_of_succ_lt_succ hk)
  stored := hrest.stored
  stopped := by
    rw [List.length_cons, after_succ hnext, after_succ hnext, answer_succ hnext]
    exact hrest.stopped

/-- The first item was stored into a container with room, and the rest is filling
again. -/
theorem Filled.uncons (h : K.Filled c it (a :: l) c' it') :
    K.full c = false ∧ (next it).1 = some a ∧
      K.Filled (K.store c a) (next it).2 l c' it' := by
  have hfirst : (next it).1 = some a := h.pulled 0 (Nat.succ_pos _)
  refine ⟨h.room 0 (Nat.succ_pos _), hfirst, ?_, ?_, h.stored, h.stopped⟩
  · intro k hk
    exact h.pulled (k + 1) (Nat.succ_lt_succ hk)
  · intro k hk
    exact h.room (k + 1) (Nat.succ_lt_succ hk)

/-! ## A loop over a bounded number of items -/

/-- `for item in it.take(n)`, with a body that changes a state. -/
def forTake (f : σ → α → σ) : ℕ → σ → I → σ × I
  | 0, c, it => (c, it)
  | n + 1, c, it =>
    match next it with
    | (none, it) => (c, it)
    | (some a, it) => forTake f n (f c a) it

/-- A loop over as many items as there is room for fills the container. -/
theorem forTake_filled (room : σ → ℕ) (hfull : ∀ c, K.full c = decide (room c = 0))
    (hstore : ∀ c a, room c ≠ 0 → room (K.store c a) + 1 = room c) {n : ℕ} (hn : room c = n)
    (it : I) :
    ∃ taken, K.Filled c it taken (forTake K.store n c it).1 (forTake K.store n c it).2 := by
  induction n generalizing c it with
  | zero => exact ⟨[], Filled.of_full (by rw [hfull, hn]; rfl)⟩
  | succ n ih =>
    have hroom : K.full c = false := by
      rw [hfull, hn]
      rfl
    cases hnext : next it with
    | mk o it₁ =>
      rw [forTake, hnext]
      cases o with
      | none => exact ⟨[], Filled.of_none hroom hnext⟩
      | some a =>
        have hless := hstore c a (by omega)
        obtain ⟨taken, h⟩ := ih (c := K.store c a) (by omega) it₁
        exact ⟨a :: taken, h.cons hroom hnext⟩

end Sink

end Toolkit
