import StaticAlloc.Library.Sinks

/-!
# Iterators around iterators

What an iterator answers is a sequence of items and `none`s in any order; nothing
says that it stays silent once it has said `none`.  `received k it` is the list of
the items among the first `k` answers, and `FirstNone it n` says that the first
`none` comes after `n` items.  An iterator is `Fused` if after one `none` there are
only `none`s.

An adaptor polls the iterator inside it and hands on what it is told.  There are two
kinds here.

* A `Watch` keeps a record of the answers and changes none of them
  (`Watch.answer_eq`); the record is built up answer by answer
  (`Watch.seen_after_succ`).
* A `Fuse` does not poll again after a `none`, unless the iterator is marked as
  fused: then it leaves the silence to the iterator.  Up to the first `none` it
  changes nothing (`Fuse.after_eq`), and from there on it is silent
  (`Fuse.answer_none`).

`Sink.Polled` is the law of containers that poll while there is room and store what
they receive, and may poll again after a `none`.  Every container that is `Filled`
obeys it (`Filled.polled`), and `polls_of_yields` and `polls_of_none` say how often
such a container polls.
-/

namespace Toolkit

open Iterator

namespace Iterator

variable {I α : Type*} [Iterator I α]

/-! ## Answers -/

/-- The items among the first `k` answers. -/
def received : ℕ → I → List α
  | 0, _ => []
  | k + 1, it => (next it).1.toList ++ received k (next it).2

/-- The first `n` answers are items. -/
def Yields (it : I) (n : ℕ) : Prop := ∀ k, k < n → answer k it ≠ none

/-- The first `none` comes after `n` items. -/
structure FirstNone (it : I) (n : ℕ) : Prop where
  yields : Yields it n
  none : answer n it = none

/-- After one `none` there are only `none`s. -/
def Fused (it : I) : Prop := ∀ j k, j ≤ k → answer j it = none → answer k it = none

variable {it : I} {j k n : ℕ}

theorem after_succ_last (k : ℕ) (it : I) : after (k + 1) it = (next (after k it)).2 := by
  induction k generalizing it with
  | zero => rfl
  | succ k ih => exact ih (next it).2

theorem received_succ_last (k : ℕ) (it : I) :
    received (k + 1) it = received k it ++ (answer k it).toList := by
  induction k generalizing it with
  | zero => exact List.append_nil _
  | succ k ih =>
    rw [received, ih, ← List.append_assoc]
    rfl

theorem length_received_succ (k : ℕ) (it : I) :
    (received (k + 1) it).length =
      (received k it).length + if answer k it = none then 0 else 1 := by
  rw [received_succ_last, List.length_append]
  cases answer k it with
  | none => rfl
  | some a => rfl

theorem Yields.mono (h : Yields it n) (hk : k ≤ n) : Yields it k := fun j hj => h j (by omega)

/-- Whoever polls past the first `none`, and no answer before the last is a `none`, has
polled once more than there are items. -/
theorem FirstNone.polls_eq (h : FirstNone it n) (hk : n < k) (hy : Yields it (k - 1)) :
    k = n + 1 := by
  by_contra hne
  exact hy n (by omega) h.none

/-- An iterator that yields `n` items in a row has given `n`. -/
theorem Yields.length_received (h : Yields it n) : (received n it).length = n := by
  induction n with
  | zero => rfl
  | succ n ih =>
    rw [length_received_succ, ih (h.mono (Nat.le_succ n)), if_neg (h n (Nat.lt_succ_self n))]

/-- What is received is what was answered. -/
theorem received_eq_take {l : List α} (h : ∀ k, k < l.length → answer k it = l[k]?)
    (hk : k ≤ l.length) : received k it = l.take k := by
  induction k with
  | zero => rfl
  | succ k ih => rw [received_succ_last, ih (by omega), h k hk, List.take_add_one]

/-- Silence adds nothing to what was received. -/
theorem received_of_silent (h : ∀ j, n ≤ j → answer j it = none) (hk : n ≤ k) :
    received k it = received n it := by
  induction k, hk using Nat.le_induction with
  | base => rfl
  | succ k hk ih => rw [received_succ_last, h k hk, ih, Option.toList_none, List.append_nil]

end Iterator

/-! ## Adaptors that watch -/

/-- An adaptor that keeps a record of the answers: `f` adds one more to it. -/
structure Watch {S α : Type*} (f : S → Option α → S) (I : Type*) where
  seen : S
  inner : I

namespace Watch

variable {S I α : Type*} {f : S → Option α → S} [Iterator I α]

instance : Iterator (Watch f I) α where
  next w :=
    let (answer, inner) := next w.inner
    (answer, ⟨f w.seen answer, inner⟩)

theorem inner_after (k : ℕ) (w : Watch f I) : (after k w).inner = after k w.inner := by
  induction k generalizing w with
  | zero => rfl
  | succ k ih => exact ih (next w).2

/-- Watching changes no answer. -/
theorem answer_eq (k : ℕ) (w : Watch f I) : answer k w = answer k w.inner :=
  congrArg (fun it => (next it).1) (inner_after k w)

theorem received_eq (k : ℕ) (w : Watch f I) : received k w = received k w.inner := by
  induction k with
  | zero => rfl
  | succ k ih => rw [received_succ_last, received_succ_last, ih, answer_eq]

theorem seen_after_succ (k : ℕ) (w : Watch f I) :
    (after (k + 1) w).seen = f (after k w).seen (answer k w.inner) := by
  rw [after_succ_last, ← answer_eq]
  rfl

end Watch

/-! ## Fused iterators -/

/-- `Iterator::fuse`, on a reference to an iterator. -/
structure Fuse (I : Type*) where
  inner : I
  /-- the type of the iterator says that it is fused, so nothing is to be done -/
  marked : Bool
  /-- there was a `none`, and the reference was given up -/
  done : Bool

namespace Fuse

variable {I α : Type*} [Iterator I α]

instance : Iterator (Fuse I) α where
  next z :=
    if z.done then (none, z) else
      match next z.inner with
      | (none, inner) => (none, ⟨inner, z.marked, !z.marked⟩)
      | (some a, inner) => (some a, ⟨inner, z.marked, false⟩)

variable {it : I} {marked : Bool} {k n : ℕ}

theorem next_of_some (h : (next it).1 ≠ none) :
    next (⟨it, marked, false⟩ : Fuse I) = ((next it).1, ⟨(next it).2, marked, false⟩) := by
  show (match next it with
    | (none, inner) => (none, (⟨inner, marked, !marked⟩ : Fuse I))
    | (some a, inner) => (some a, ⟨inner, marked, false⟩)) = _
  cases hnext : next it with
  | mk o inner =>
    cases o with
    | none => exact absurd (congrArg Prod.fst hnext) h
    | some a => rfl

theorem next_of_none (h : (next it).1 = none) :
    next (⟨it, marked, false⟩ : Fuse I) = (none, ⟨(next it).2, marked, !marked⟩) := by
  show (match next it with
    | (none, inner) => (none, (⟨inner, marked, !marked⟩ : Fuse I))
    | (some a, inner) => (some a, ⟨inner, marked, false⟩)) = _
  cases hnext : next it with
  | mk o inner =>
    cases o with
    | none => rfl
    | some a => exact absurd ((congrArg Prod.fst hnext).symm.trans h) (Option.some_ne_none a)

/-- Up to the first `none`, an iterator is as good as fused. -/
theorem after_eq (h : Yields it k) :
    after k (⟨it, marked, false⟩ : Fuse I) = ⟨after k it, marked, false⟩ := by
  induction k with
  | zero => rfl
  | succ k ih =>
    rw [after_succ_last, ih (h.mono (Nat.le_succ k)), after_succ_last k it]
    exact congrArg Prod.snd (next_of_some (h k (Nat.lt_succ_self k)))

theorem answer_of_yields (h : Yields it k) :
    answer k (⟨it, marked, false⟩ : Fuse I) = answer k it := by
  show (next (after k (⟨it, marked, false⟩ : Fuse I))).1 = _
  rw [after_eq h]
  by_cases hnone : answer k it = none
  · rw [next_of_none hnone, hnone]
  · exact congrArg Prod.fst (next_of_some hnone)

theorem yields (h : Yields it n) : Yields (⟨it, marked, false⟩ : Fuse I) n := by
  intro k hk
  rw [answer_of_yields (h.mono hk.le)]
  exact h k hk

/-- One that says it is fused is polled as often as the adaptor is. -/
theorem after_marked (k : ℕ) (it : I) :
    after k (⟨it, true, false⟩ : Fuse I) = ⟨after k it, true, false⟩ := by
  induction k generalizing it with
  | zero => rfl
  | succ k ih =>
    by_cases hnone : (next it).1 = none
    · exact (congrArg (after k) (congrArg Prod.snd (next_of_none hnone))).trans (ih _)
    · exact (congrArg (after k) (congrArg Prod.snd (next_of_some hnone))).trans (ih _)

/-- The first `none` is passed on. -/
theorem inner_after_first (h : FirstNone it n) :
    (after (n + 1) (⟨it, marked, false⟩ : Fuse I)).inner = after (n + 1) it := by
  rw [after_succ_last, after_eq h.yields, next_of_none h.none, after_succ_last n it]

/-- Any other is not polled again after its first `none`. -/
theorem after_none (h : FirstNone it n) (hk : n < k) :
    after k (⟨it, false, false⟩ : Fuse I) = ⟨after (n + 1) it, false, true⟩ := by
  induction k, hk using Nat.le_induction with
  | base =>
    rw [after_succ_last, after_eq h.yields, after_succ_last n it]
    exact congrArg Prod.snd (next_of_none h.none)
  | succ k hk ih =>
    rw [after_succ_last, ih]
    rfl

/-- From the first `none` on, a fused iterator is silent. -/
theorem answer_none (h : FirstNone it n) (hmarked : marked = true → Fused it) (hk : n ≤ k) :
    answer k (⟨it, marked, false⟩ : Fuse I) = none := by
  rcases Nat.eq_or_lt_of_le hk with rfl | hlt
  · rw [answer_of_yields h.yields, h.none]
  · show (next (after k (⟨it, marked, false⟩ : Fuse I))).1 = none
    cases marked with
    | false =>
      rw [after_none h hlt]
      rfl
    | true =>
      rw [after_marked]
      rw [next_of_none (hmarked rfl n k hk h.none)]

/-- What is received through a fused iterator is what comes before the first `none`. -/
theorem received_eq (h : Yields it k) :
    received k (⟨it, marked, false⟩ : Fuse I) = received k it := by
  induction k with
  | zero => rfl
  | succ k ih =>
    have hk := h.mono (Nat.le_succ k)
    rw [received_succ_last, received_succ_last, ih hk, answer_of_yields hk]

end Fuse

/-! ## Containers that may poll again -/

namespace Sink

variable {σ α I : Type*} [Iterator I α]

/-- The law of containers that poll while there is room, store what they receive, and
give up only after a `none`: `k` is the number of polls. -/
structure Polled (K : Sink σ α) (c : σ) (it : I) (k : ℕ) (c' : σ) (it' : I) : Prop where
  rest : it' = after k it
  /-- All items are stored, in order. -/
  stored : c' = (received k it).foldl K.store c
  /-- It polls only while there is room. -/
  room : ∀ j, j < k → K.full ((received j it).foldl K.store c) = false
  /-- It goes on until there is no room, or there was a `none`. -/
  stopped : K.full c' = true ∨ ∃ j, j < k ∧ answer j it = none

variable {K : Sink σ α} {c c' : σ} {it it' : I} {k n : ℕ} {taken : List α}

/-- A container that is filled obeys the law, and does not poll again after a
`none`. -/
theorem Filled.polled (h : K.Filled c it taken c' it') :
    ∃ k, K.Polled c it k c' it' ∧ Yields it (k - 1) := by
  have hyields : Yields it taken.length := by
    intro j hj
    rw [h.pulled j hj, List.getElem?_eq_getElem hj]
    exact Option.some_ne_none _
  have hreceived : ∀ {j}, j ≤ taken.length → received j it = taken.take j :=
    fun hj => received_eq_take h.pulled hj
  have hall : received taken.length it = taken := by rw [hreceived le_rfl, List.take_length]
  have hroom : ∀ j, j < taken.length → K.full ((received j it).foldl K.store c) = false := by
    intro j hj
    rw [hreceived hj.le]
    exact h.room j hj
  rcases h.stopped with ⟨hfull, hrest⟩ | ⟨hnot, hnone, hrest⟩
  · refine ⟨taken.length, ⟨hrest, ?_, hroom, Or.inl hfull⟩, hyields.mono (Nat.sub_le _ _)⟩
    rw [hall, h.stored]
  · refine ⟨taken.length + 1, ⟨hrest, ?_, ?_, Or.inr ⟨_, Nat.lt_succ_self _, hnone⟩⟩, hyields⟩
    · rw [received_succ_last, hall, hnone, Option.toList_none, List.append_nil, h.stored]
    · intro j hj
      rcases Nat.lt_succ_iff_lt_or_eq.mp hj with hj | rfl
      · exact hroom j hj
      · rw [hall, ← h.stored]
        exact hnot

/-! ## How often a container polls -/

section Room

variable (room : σ → ℕ) (hfull : ∀ c, K.full c = decide (room c = 0))
  (hstore : ∀ c a, room c ≠ 0 → room (K.store c a) + 1 = room c)

include hstore

/-- Every item takes its share of the room. -/
theorem room_foldl (l : List α) (h : l.length ≤ room c) :
    room (l.foldl K.store c) + l.length = room c := by
  induction l generalizing c with
  | nil => rfl
  | cons a l ih =>
    rw [List.length_cons] at h ⊢
    have hone := hstore c a (by omega)
    have hrest := ih (c := K.store c a) (by omega)
    rw [List.foldl_cons]
    omega

include hfull

/-- A container receives no more than there is room for. -/
theorem Polled.length_le (h : K.Polled c it k c' it') : (received k it).length ≤ room c := by
  suffices ∀ j, j ≤ k → (received j it).length ≤ room c from this k le_rfl
  intro j hj
  induction j with
  | zero => exact Nat.zero_le _
  | succ j ih =>
    have hless := ih (by omega)
    have hopen := h.room j hj
    have hsum := room_foldl room hstore (received j it) hless
    rw [hfull, decide_eq_false_iff_not] at hopen
    rw [length_received_succ]
    split <;> omega

/-- From an iterator that yields enough, a container takes what there is room for. -/
theorem Polled.polls_of_yields (h : K.Polled c it k c' it') (hy : Yields it (room c)) :
    k = room c := by
  have hle : k ≤ room c := by
    by_contra hlt
    have hopen := h.room (room c) (by omega)
    have hsum := room_foldl room hstore (received (room c) it) hy.length_received.le
    rw [hy.length_received] at hsum
    rw [hfull, decide_eq_false_iff_not] at hopen
    omega
  have hlen := (hy.mono hle).length_received
  rcases h.stopped with hend | ⟨j, hj, hnone⟩
  · have hsum := room_foldl room hstore (received k it) (hlen.trans_le hle)
    rw [← h.stored, hlen] at hsum
    rw [hfull, decide_eq_true_iff] at hend
    omega
  · exact absurd hnone (hy j (by omega))

/-- From one that ends too early, it gets to see the `none`. -/
theorem Polled.polls_of_none (h : K.Polled c it k c' it') (hn : FirstNone it n)
    (hlt : n < room c) : n < k := by
  by_contra hle
  have hlen := (hn.yields.mono (not_lt.mp hle)).length_received
  have hless : k ≤ room c := by omega
  rcases h.stopped with hend | ⟨j, hj, hnone⟩
  · have hsum := room_foldl room hstore (received k it) (hlen.trans_le hless)
    rw [← h.stored, hlen] at hsum
    rw [hfull, decide_eq_true_iff] at hend
    omega
  · exact absurd hnone (hn.yields j (by omega))

end Room

end Sink

end Toolkit
