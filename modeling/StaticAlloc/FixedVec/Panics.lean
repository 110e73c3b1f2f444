import StaticAlloc.FixedVec.Drain

/-!
# Vectors and panics

Three loops of a vector run code of its user that may panic: `truncate` and the
destructor of `Drain` call destructors, and `fill` polls an iterator.  Each of
them keeps the length such that the unwinding finds a vector it can drop.

* `truncate` counts an element out before it calls its destructor, and the guard
  writes that count back.
* `Drain` moves its cursor before the destructor is called, and a panic leaves the
  vector as `drain` cut it, without the tail.
* `fill` counts an element in after it has written it.

`Sound` says what there is to keep: the vector holds a list, the elements in it
and those that are gone from it were different ones of a given pool, and dropping
the vector starts the destructors of the elements in it, whatever happens then.
-/

namespace StaticAlloc
namespace FixedVec

open Toolkit

variable {w : ℕ} {α : Type}

/-- How the destructor of a slice ends. -/
inductive Ending where
  | returned
  | unwinding
  | aborted
  deriving DecidableEq

/-- The elements of a slice are dropped from the first to the last, also when the
destructor of one panics; a panic during an unwinding aborts. -/
def dropSliceUnwinding (T : Ty w) (m : Cells α) (panics : α → Bool) :
    Bool → ℕ → ℕ → Except Stop (List α × Ending)
  | unwinding, _, 0 => .ok ([], if unwinding then .unwinding else .returned)
  | unwinding, ptr, n + 1 => do
    let a ← readCell m ptr
    if panics a && unwinding then .ok ([a], .aborted) else do
      let (rest, ending) ← dropSliceUnwinding T m panics (panics a || unwinding) (ptr + T.size) n
      .ok (a :: rest, ending)

/-- `Drop for FixedVec`, with destructors that may panic, in a thread that may be
unwinding already: whose destructors were started. -/
def dropUnwinding {T : Ty w} (m : Cells α) (panics : α → Bool) (unwinding : Bool)
    (v : FixedVec T) : Except Stop (List α × Ending) :=
  dropSliceUnwinding T m panics unwinding v.uninit.ptr v.length

/-- What an iterator answers to being polled, unless it is `None`. -/
inductive Polled (α : Type) where
  | item (a : α)
  | panic

/-- The loop of `fill` over an iterator that may panic, with at most `n` items still
to take: besides the memory and the receiver, the items taken, and whether the
iterator panicked. -/
def fillLoopUnwinding {T : Ty w} :
    ℕ → Cells α → FixedVec T → Source (Polled α) → Cells α × FixedVec T × List α × Bool
  | 0, m, v, _ => (m, v, [], false)
  | n + 1, m, v, iter =>
    match iter.next with
    | (none, _) => (m, v, [], false)
    | (some .panic, _) => (m, v, [], true)
    | (some (.item item), iter) =>
      let (m, v, items, panicked) :=
        fillLoopUnwinding n (m.write T.size v.endMutPtr item) { v with length := v.length + 1 } iter
      (m, v, item :: items, panicked)

/-- `FixedVec::fill`, with an iterator that may panic. -/
def fillUnwinding {T : Ty w} (m : Cells α) (v : FixedVec T) (iter : Source (Polled α)) :
    Cells α × FixedVec T × List α × Bool :=
  fillLoopUnwinding (v.capacity - v.length) m v iter

/-! ## The vector's own destructor -/

section

variable {E : Element w α} {m : Cells α} {v : FixedVec E.ty} {b : Bounded α}

theorem dropSliceUnwinding_started (T : Ty w) (panics : α → Bool) (items : List α)
    {unwinding : Bool} {p : ℕ} (h : m.Stores T.size p items) :
    ∃ l ending, dropSliceUnwinding T m panics unwinding p items.length = .ok (l, ending) ∧
      l <+: items ∧ (ending ≠ .aborted → l = items) ∧
      (ending = .aborted ↔ 2 ≤ items.countP panics + unwinding.toNat) := by
  induction items generalizing p unwinding with
  | nil =>
    refine ⟨[], _, rfl, List.prefix_rfl, fun _ => rfl, iff_of_false ?_ ?_⟩
    · split <;> simp
    · have := unwinding.toNat_le
      rw [List.countP_nil]
      omega
  | cons a items ih =>
    have happ : m.Stores T.size p ([a] ++ items) := h
    obtain ⟨hfirst, hrest⟩ := Cells.Stores.append_iff.mp happ
    rw [List.length_singleton, Nat.one_mul] at hrest
    have hread : readCell m p = .ok a := by
      have := hfirst.get (k := 0) Nat.one_pos
      rw [Nat.zero_mul, Nat.add_zero] at this
      rw [readCell, this]
      rfl
    rw [List.length_cons, dropSliceUnwinding, hread]
    simp only [ok_bind]
    cases hp : panics a && unwinding with
    | true =>
      obtain ⟨hpanics, hunwinding⟩ := Bool.and_eq_true_iff.mp hp
      refine ⟨[a], .aborted, rfl, List.cons_prefix_cons.mpr ⟨rfl, List.nil_prefix⟩,
        fun hne => absurd rfl hne, iff_of_true rfl ?_⟩
      rw [List.countP_cons_of_pos hpanics, hunwinding]
      exact Nat.le_add_left 2 _
    | false =>
      obtain ⟨l, ending, hloop, hprefix, hall, habort⟩ := @ih (panics a || unwinding) _ hrest
      -- what has panicked so far is counted by the flag
      have hcount : items.countP panics + (panics a || unwinding).toNat =
          (a :: items).countP panics + unwinding.toNat := by
        rw [List.countP_cons]
        cases hpanics : panics a with
        | true =>
          rw [hpanics] at hp
          rw [show unwinding = false from hp]
          rfl
        | false => rfl
      refine ⟨a :: l, ending, ?_, List.cons_prefix_cons.mpr ⟨rfl, hprefix⟩, fun hne => ?_, ?_⟩
      · simp only [hloop, ok_bind, Bool.false_eq_true, if_false]
      · rw [hall hne]
      · rw [habort, hcount]

/-- Dropping a vector starts the destructors of the elements it holds, each once,
until the process aborts, which takes a second panic, or there are no more. -/
theorem Holds.dropUnwinding (h : Holds E m v b) (panics : α → Bool) (unwinding : Bool) :
    ∃ l ending, v.dropUnwinding m panics unwinding = .ok (l, ending) ∧ l <+: b.items ∧
      (ending ≠ .aborted → l = b.items) ∧
      (ending = .aborted ↔ 2 ≤ b.items.countP panics + unwinding.toNat) := by
  rw [FixedVec.dropUnwinding, h.length]
  exact dropSliceUnwinding_started E.ty panics b.items h.stores

/-- The vector holds `b`, and whatever happens to it starts the destructor of no
element that is gone: those in it and those gone were different ones of the pool. -/
structure Sound (E : Element w α) (m : Cells α) (v : FixedVec E.ty) (b : Bounded α)
    (gone pool : List α) : Prop where
  holds : Holds E m v b
  once : (b.items ++ gone).Subperm pool
  later : ∀ (panics : α → Bool) (unwinding : Bool), ∃ l ending,
    v.dropUnwinding m panics unwinding = .ok (l, ending) ∧ l <+: b.items ∧
      (ending ≠ .aborted → l = b.items) ∧
      (ending = .aborted ↔ 2 ≤ b.items.countP panics + unwinding.toNat)

theorem Holds.sound (h : Holds E m v b) {gone pool : List α}
    (hsub : (b.items ++ gone).Subperm pool) : Sound E m v b gone pool :=
  ⟨h, hsub, h.dropUnwinding⟩

/-! ## Truncating -/

/-- Either no destructor panics, or the ones before the first that does are started. -/
theorem started_cases (panics : α → Bool) (l : List α) :
    (l.any panics = false ∧ started panics l = l) ∨
      ∃ l₁ a l₂, l = l₁ ++ a :: l₂ ∧ panics a = true ∧ (∀ x ∈ l₁, panics x = false) ∧
        l.any panics = true ∧ started panics l = l₁ ++ [a] := by
  induction l with
  | nil => exact Or.inl ⟨rfl, rfl⟩
  | cons a l ih =>
    rw [started, List.any_cons]
    cases hp : panics a with
    | true =>
      exact Or.inr ⟨[], a, l, rfl, hp, fun x hx => absurd hx List.not_mem_nil, rfl, rfl⟩
    | false =>
      rcases ih with ⟨hany, hall⟩ | ⟨l₁, a', l₂, rfl, hp', hbefore, hany, hstarted⟩
      · refine Or.inl ⟨by rw [hany]; rfl, ?_⟩
        rw [hall]
        rfl
      · refine Or.inr ⟨a :: l₁, a', l₂, rfl, hp', fun x hx => ?_, by rw [hany]; rfl, ?_⟩
        · rcases List.mem_cons.mp hx with rfl | hx
          · exact hp
          · exact hbefore x hx
        · rw [hstarted]
          rfl

/-- `truncate` drops the elements from the last one down to some `i`: to the first
it has to, or to the first that panics. -/
theorem truncate_sound (h : Holds E m v b) (panics : α → Bool) (len : ℕ) :
    ∃ i panicked, v.truncate m panics len =
        .ok ({ v with length := i }, (b.items.drop i).reverse, panicked) ∧
      Sound E m { v with length := i } (b.take i) (b.items.drop i).reverse b.items ∧
      (panicked = true → ∃ hi : i < b.items.length, len ≤ i ∧ panics b.items[i] = true ∧
        ∀ a ∈ b.items.drop (i + 1), panics a = false) ∧
      (panicked = false → i = min len v.length ∧ ∀ a ∈ b.items.drop len, panics a = false) := by
  have hlen := h.length
  have hsound : ∀ i, i ≤ v.length →
      Sound E m { v with length := i } (b.take i) (b.items.drop i).reverse b.items := by
    intro i hi
    refine (h.shorten hi).sound (List.Perm.subperm ?_)
    calc (b.items.take i ++ (b.items.drop i).reverse).Perm (b.items.take i ++ b.items.drop i) :=
          (List.reverse_perm _).append_left _
      _ = b.items := List.take_append_drop i b.items
  have htruncate := truncate_started h panics len rfl
  rcases started_cases panics (b.items.drop len).reverse with
    ⟨hany, hall⟩ | ⟨l₁, a, l₂, hL, hp, hbefore, hany, hstarted⟩
  · have hi : v.length - (b.items.drop len).reverse.length = min len v.length := by
      rw [List.length_reverse, List.length_drop, ← hlen]
      omega
    have hdrop : b.items.drop len = b.items.drop (min len v.length) := by
      rcases Nat.le_total len v.length with hle | hle
      · rw [min_eq_left hle]
      · rw [min_eq_right hle, List.drop_eq_nil_of_le (by omega), List.drop_eq_nil_of_le (by omega)]
    refine ⟨min len v.length, false, ?_, hsound _ (min_le_right _ _), fun hc => absurd hc (by simp),
      fun _ => ⟨rfl, fun a ha => ?_⟩⟩
    · rw [htruncate, hall, hany, hi, hdrop]
    · have := List.any_eq_false.mp hany a (List.mem_reverse.mpr ha)
      exact Bool.eq_false_iff.mpr this
  · -- the list in front of the panicking element, and the one behind it
    have hdrop : b.items.drop len = l₂.reverse ++ a :: l₁.reverse := by
      rw [← List.reverse_reverse (b.items.drop len), hL, List.reverse_append, List.reverse_cons,
        List.append_assoc]
      rfl
    have hlt : len < b.items.length := by
      by_contra hge
      rw [List.drop_eq_nil_of_le (by omega)] at hdrop
      exact absurd hdrop (by simp)
    obtain ⟨p, hitems, hle⟩ : ∃ p, b.items = p ++ a :: l₁.reverse ∧ len ≤ p.length := by
      refine ⟨b.items.take len ++ l₂.reverse, ?_, ?_⟩
      · rw [List.append_assoc, ← hdrop, List.take_append_drop]
      · rw [List.length_append, List.length_take]
        omega
    have hlength : b.items.length = p.length + l₁.length + 1 := by
      rw [hitems, List.length_append, List.length_cons, List.length_reverse]
      omega
    have hbehind : b.items.drop p.length = a :: l₁.reverse := by rw [hitems, List.drop_left]
    have hi : v.length - (l₁ ++ [a]).length = p.length := by
      rw [List.length_append, List.length_singleton]
      omega
    refine ⟨p.length, true, ?_, hsound _ (by omega), fun _ => ⟨by omega, hle, ?_, ?_⟩,
      fun hc => absurd hc (by simp)⟩
    · rw [htruncate, hstarted, hany, hi, hbehind, List.reverse_cons, List.reverse_reverse]
    · simp only [hitems, List.getElem_append_right (Nat.le_refl _), Nat.sub_self,
        List.getElem_cons_zero, hp]
    · intro x hx
      rw [← List.drop_drop, hbehind] at hx
      exact hbefore x (List.mem_reverse.mp hx)

/-! ## Draining -/

/-- An iterator that is dropped while a destructor panics leaves the vector without
the tail; otherwise it restores it. -/
theorem drain_sound (h : Holds E m v b) (build : Build) {start stop : ℕ} (hle : start ≤ stop)
    (hstop : stop ≤ v.length) :
    ∃ v₁ d, v.drain build (.included start, .excluded stop) = .ok (v₁, d) ∧
      ∀ calls : List Drain.Call, ∃ d' replies, d.run m calls = .ok (d', replies) ∧
        ∀ panics : α → Bool, ∃ m' v₂ b' dropped panicked,
          d'.drop m panics v₁ = .ok (m', v₂, dropped, panicked) ∧
          Sound E m' v₂ b' (Drain.yielded replies ++ dropped) b.items ∧
          (panicked = true → b' = b.take start) ∧
          (panicked = false → b' = b.remove start stop hle) := by
  obtain ⟨d, hdrain, hd, hl⟩ := drain_ok h build hle hstop
  refine ⟨_, d, hdrain, fun calls => ?_⟩
  rw [← Drain.left_zero (b.range start stop)] at hl
  obtain ⟨d', replies, hrun, -, -, hperm, hleft, hplace⟩ := Drain.run_ok hl calls
  rw [Nat.zero_add, Nat.zero_add] at hleft hperm
  rw [Drain.left_zero] at hperm
  refine ⟨d', replies, hrun, fun panics => ?_⟩
  have hitems : b.items = b.items.take start ++ (b.range start stop ++ b.items.drop stop) := by
    rw [← b.drop_start hle, List.take_append_drop]
  rcases Drain.drop_ok h hle hstop (hd.of_samePlace hplace) hleft panics with
    ⟨-, hdrop⟩ | ⟨-, m', v₂, hdrop, -, hholds⟩
  · refine ⟨m, _, b.take start, _, true, hdrop, (h.shorten (hle.trans hstop)).sound ?_,
      fun _ => rfl, fun hc => absurd hc (by simp)⟩
    -- what the panic leaks is behind what was started, and the tail is leaked as well
    have hstarted := (started_isPrefix panics (Drain.left (b.range start stop) (Drain.fronts calls)
      (Drain.backs calls))).sublist
    have hgone := ((hstarted.append_left (Drain.yielded replies)).subperm).trans hperm.symm.subperm
    have hkept : (b.items.take start ++ (Drain.yielded replies ++ started panics _)).Subperm
        (b.items.take start ++ b.range start stop) := (List.subperm_append_left _).mpr hgone
    refine hkept.trans (List.Sublist.subperm ?_)
    conv_rhs => rw [hitems]
    exact (List.sublist_append_left _ _).append_left _
  · refine ⟨m', v₂, b.remove start stop hle, _, false, hdrop, hholds.sound (List.Perm.subperm ?_),
      fun hc => absurd hc (by simp), fun _ => rfl⟩
    show (b.items.take start ++ b.items.drop stop ++ (Drain.yielded replies ++ _)).Perm b.items
    conv_rhs => rw [hitems]
    rw [List.append_assoc]
    refine List.Perm.append_left _ ?_
    exact List.perm_append_comm.trans (hperm.symm.append_right _)

/-! ## Filling -/

/-- The items that the loop takes are the first answers, up to the room, the end
of the iterator, or a panic. -/
structure Takes (n : ℕ) (iter : Source (Polled α)) (items : List α) (panicked : Bool) : Prop where
  length : items.length ≤ n
  answers : ∀ (k : ℕ) (a : α), items[k]? = some a → iter.poll k = some (.item a)
  panic : panicked = true → items.length < n ∧ iter.poll items.length = some .panic
  finished : panicked = false → items.length = n ∨ iter.poll items.length = none

theorem fillLoop_sound (n : ℕ) {m : Cells α} {v : FixedVec E.ty} {b : Bounded α}
    (h : Holds E m v b) (hn : b.items.length + n ≤ b.cap) (iter : Source (Polled α)) :
    ∃ m' v' b' items panicked, fillLoopUnwinding n m v iter = (m', v', items, panicked) ∧
      Holds E m' v' b' ∧ b'.items = b.items ++ items ∧ b'.cap = b.cap ∧
      Takes n iter items panicked := by
  induction n generalizing m v b iter with
  | zero =>
    exact ⟨m, v, b, [], false, rfl, h, (List.append_nil _).symm, rfl, le_rfl,
      fun k a hk => absurd hk (by simp), fun hc => absurd hc (by simp), fun _ => Or.inl rfl⟩
  | succ n ih =>
    have hnil : ∀ (k : ℕ) (a : α), ([] : List α)[k]? = some a → iter.poll k = some (.item a) :=
      fun k a hk => absurd hk (by simp)
    cases hpoll : iter.poll 0 with
    | none =>
      refine ⟨m, v, b, [], false, ?_, h, (List.append_nil _).symm, rfl, Nat.zero_le _, hnil,
        fun hc => absurd hc (by simp), fun _ => Or.inr hpoll⟩
      simp only [fillLoopUnwinding, Source.next, hpoll]
    | some answer =>
      cases answer with
      | panic =>
        refine ⟨m, v, b, [], true, ?_, h, (List.append_nil _).symm, rfl, Nat.zero_le _, hnil,
          fun _ => ⟨Nat.succ_pos n, hpoll⟩, fun hc => absurd hc (by simp)⟩
        simp only [fillLoopUnwinding, Source.next, hpoll]
      | item a =>
        have hpush : b.push a = some ⟨b.items ++ [a], b.cap, by
            rw [List.length_append, List.length_singleton]
            omega⟩ := dif_neg (by omega)
        obtain ⟨m', v', b', items, panicked, hloop, hholds, hitems, hcap, htakes⟩ :=
          ih (h.write_end hpush) (by
            show (b.items ++ [a]).length + n ≤ b.cap
            rw [List.length_append, List.length_singleton]
            omega) (iter.advance 1)
        have hnext : ∀ k, (iter.advance 1).poll k = iter.poll (k + 1) :=
          fun k => congrArg iter.poll (Nat.add_comm 1 k)
        refine ⟨m', v', b', a :: items, panicked, ?_, hholds, ?_, hcap, ?_, ?_, ?_, ?_⟩
        · simp only [fillLoopUnwinding, Source.next, hpoll, hloop]
        · rw [hitems, List.append_assoc]
          rfl
        · exact Nat.succ_le_succ htakes.length
        · intro k x hk
          cases k with
          | zero =>
            obtain rfl := Option.some.inj hk
            exact hpoll
          | succ k =>
            rw [← hnext]
            exact htakes.answers k x hk
        · intro hp
          obtain ⟨hlt, hpanic⟩ := htakes.panic hp
          refine ⟨Nat.succ_lt_succ hlt, ?_⟩
          rw [List.length_cons, ← hnext]
          exact hpanic
        · intro hp
          rcases htakes.finished hp with hall | hnone
          · exact Or.inl (congrArg (· + 1) hall)
          · refine Or.inr ?_
            rw [List.length_cons, ← hnext]
            exact hnone

/-- Filling from an iterator that may panic: what was taken is in the vector. -/
theorem fill_sound (h : Holds E m v b) (iter : Source (Polled α)) :
    ∃ m' v' b' items panicked, v.fillUnwinding m iter = (m', v', items, panicked) ∧
      Takes (v.capacity - v.length) iter items panicked ∧ b'.items = b.items ++ items ∧
      Sound E m' v' b' [] (b.items ++ items) := by
  have hb := b.bounded
  obtain ⟨m', v', b', items, panicked, hloop, hholds, hitems, -, htakes⟩ :=
    fillLoop_sound (v.capacity - v.length) h (by rw [h.cap, h.length]; omega) iter
  refine ⟨m', v', b', items, panicked, hloop, htakes, hitems, hholds.sound ?_⟩
  rw [List.append_nil, hitems]

/-- **Vectors are safe from panics.**  Whichever destructors panic while a vector is
truncated: it then holds the elements below some `i`, the destructors of those from
`i` on have all been started once, and if one of them panicked it was that of the
element `i`, which is the last that would.  Whichever panic while an iterator over
a range is dropped, after any calls on it, and at whatever step the iterator panics
from which a vector is filled: the elements in the vector are different ones from
those that were yielded or dropped, and its length covers elements only.  When the
vector is dropped after that, it starts the destructors of the elements it holds,
each once, all of them unless a second panic aborts the process. -/
theorem panic_safe (E : Element w α) {m : Cells α} {v : FixedVec E.ty} {b : Bounded α}
    (h : Holds E m v b) :
    (∀ (panics : α → Bool) (len : ℕ), ∃ i panicked, v.truncate m panics len =
        .ok ({ v with length := i }, (b.items.drop i).reverse, panicked) ∧
      Sound E m { v with length := i } (b.take i) (b.items.drop i).reverse b.items ∧
      (panicked = true → ∃ hi : i < b.items.length, len ≤ i ∧ panics b.items[i] = true ∧
        ∀ a ∈ b.items.drop (i + 1), panics a = false) ∧
      (panicked = false → i = min len v.length ∧ ∀ a ∈ b.items.drop len, panics a = false)) ∧
    (∀ (build : Build) (start stop : ℕ) (hle : start ≤ stop), stop ≤ v.length →
      ∃ v₁ d, v.drain build (.included start, .excluded stop) = .ok (v₁, d) ∧
        ∀ calls : List Drain.Call, ∃ d' replies, d.run m calls = .ok (d', replies) ∧
          ∀ panics : α → Bool, ∃ m' v₂ b' dropped panicked,
            d'.drop m panics v₁ = .ok (m', v₂, dropped, panicked) ∧
            Sound E m' v₂ b' (Drain.yielded replies ++ dropped) b.items ∧
            (panicked = true → b' = b.take start) ∧
            (panicked = false → b' = b.remove start stop hle)) ∧
    ∀ iter : Source (Polled α), ∃ m' v' b' items panicked,
      v.fillUnwinding m iter = (m', v', items, panicked) ∧
      Takes (v.capacity - v.length) iter items panicked ∧ b'.items = b.items ++ items ∧
      Sound E m' v' b' [] (b.items ++ items) :=
  ⟨truncate_sound h, fun build _ _ hle hstop => drain_sound h build hle hstop, fill_sound h⟩

/-- Of five, six and seven, the destructor of six panics when all are to be dropped. -/
theorem panic_safe_halfWords :
    ∃ v', halfWords.full.truncate halfWords.cells (· == 6) 0 = .ok (v', [7, 6], true) ∧
      Sound halfWords halfWords.cells v' ⟨[5], 3, by decide⟩ [7, 6] [5, 6, 7] := by
  obtain ⟨i, panicked, htruncate, hsound, hpanicked, hreturned⟩ :=
    (panic_safe halfWords halfWords.full_holds).1 (· == 6) 0
  have hp : panicked = true := by
    by_contra hne
    have hnone := (hreturned (Bool.eq_false_iff.mpr hne)).2 6 (by decide)
    exact absurd hnone (by decide)
  subst hp
  obtain ⟨hi, -, hsix, -⟩ := hpanicked rfl
  have hlt : i < 3 := hi
  obtain rfl | rfl | rfl : i = 0 ∨ i = 1 ∨ i = 2 := by omega
  · exact absurd (show (5 == 6) = true from hsix) (by decide)
  · exact ⟨_, htruncate, hsound⟩
  · exact absurd (show (7 == 6) = true from hsix) (by decide)

end

end FixedVec
end StaticAlloc
