import StaticAlloc.Fill.Model

/-!
# Which containers are filled lawfully

Of the implementations of `Fill` all but one keep the law: they pull an item only
while there is room, store what they pull, and stop at once when the container is
full (`fill_filled`).  A result does not look whether the container in its `Ok` is
full.  Its loop ends after an answer that is not an `Ok` item and in no other way
(`resultLoop_ends`), so it polls a full container's iterator, discards the items,
and runs on for as long as there are any.

`EndsBeforeFull` is the exact condition: the first answer that is not an `Ok` item
comes while there is room.  If it holds, the loop does what it should
(`resultLoop_filled`), since one item is stored as it should be whatever the
container (`fill_once`); and a law that was kept leaves the loop no other way to have
ended (`endsBeforeFull_of_filled`).
-/

namespace StaticAlloc

open Toolkit Iterator

namespace Fill

variable {α ι μ ε C T I : Type}

/-! ## The containers that see what they hold -/

theorem Buffer.fill_filled [Iterator I α] (v : Buffer α) (it : I) :
    ∃ taken, (vec α).sink.Filled v it taken (v.fill it).1 (v.fill it).2 :=
  Sink.forTake_filled (K := (vec α).sink) Buffer.room (fun _ => rfl) Buffer.room_push rfl it

theorem fillOption_filled [Iterator I α] (c : Option α) (it : I) :
    ∃ taken, (option α).sink.Filled c it taken (fillOption c it).1 (fillOption c it).2 := by
  cases c with
  | some a => exact ⟨[], Sink.Filled.of_full rfl⟩
  | none =>
    cases hnext : next it with
    | mk o it' =>
      rw [fillOption, hnext]
      cases o with
      | none => exact ⟨[], Sink.Filled.of_none rfl hnext⟩
      | some a => exact ⟨[a], Sink.Filled.cons rfl hnext (Sink.Filled.of_full rfl)⟩

/-- Either way to put an item fills the rest of a slice. -/
theorem IterMut.fillLoop_filled [Iterator I ι] (put : μ → α → ι → μ × α) (passed rest : List α)
    (memory : μ) (it : I) :
    ∃ taken, (⟨fun c => c.rest.isEmpty, advance put⟩ : Sink (IterMut μ α) ι).Filled
      ⟨passed, rest, memory⟩ it taken (fillLoop put passed rest memory it).1
      (fillLoop put passed rest memory it).2 := by
  induction rest generalizing passed memory it with
  | nil => exact ⟨[], Sink.Filled.of_full rfl⟩
  | cons old rest ih =>
    cases hnext : next it with
    | mk o it' =>
      rw [fillLoop, hnext]
      cases o with
      | none => exact ⟨[], Sink.Filled.of_none rfl hnext⟩
      | some item =>
        obtain ⟨taken, h⟩ := ih (passed ++ [(put memory old item).2]) (put memory old item).1 it'
        exact ⟨item :: taken, Sink.Filled.cons rfl hnext h⟩

theorem fillIterMut_filled [Iterator I α] (c : IterMut Unit α) (it : I) :
    ∃ taken, (iterMut α).sink.Filled c it taken (fillIterMut c it).1 (fillIterMut c it).2 :=
  IterMut.fillLoop_filled IterMut.assign c.passed c.rest c.memory it

theorem fillIterMutSwap_filled [Iterator I ℕ] (c : IterMut (ℕ → α) α) (it : I) :
    ∃ taken, (iterMutSwap α).sink.Filled c it taken (fillIterMutSwap c it).1
      (fillIterMutSwap c it).2 :=
  IterMut.fillLoop_filled IterMut.swap c.passed c.rest c.memory it

/-! ## The loop of a result -/

section Loop

variable [Iterator I (Except ε T)] {K : Sink C T} {store : C → T → Option C} {c : C} {it : I}

/-- The first answer that is not an `Ok` item comes while there is room. -/
inductive EndsBeforeFull (K : Sink C T) : C → I → Prop where
  | stop {c : C} {it : I} : K.full c = false → (∀ a, (next it).1 ≠ some (.ok a)) →
      EndsBeforeFull K c it
  | store {c : C} {it : I} {a : T} : K.full c = false → (next it).1 = some (.ok a) →
      EndsBeforeFull K (K.store c a) (next it).2 → EndsBeforeFull K c it

/-- The loop does what it should if it ends before the container is full. -/
theorem resultLoop_filled (h : EndsBeforeFull K c it) :
    ∃ n, ∀ (store : C → T → Option C),
      (∀ c a, K.full c = false → store c a = some (K.store c a)) → ∀ fuel, n ≤ fuel →
      ∃ c' it' taken, resultLoop store fuel c it = some (c', it') ∧
        (resultSink ε K).Filled (.ok c) it taken c' it' := by
  induction h with
  | @stop c it hroom hstop =>
    refine ⟨1, fun store hstore fuel hfuel => ?_⟩
    obtain ⟨fuel, rfl⟩ := Nat.exists_eq_add_of_le' hfuel
    cases hnext : next it with
    | mk o it' =>
      rw [resultLoop, hnext]
      rcases o with - | (err | a)
      · exact ⟨_, _, [], rfl, Sink.Filled.of_none hroom hnext⟩
      · exact ⟨_, _, [.error err], rfl, Sink.Filled.cons hroom hnext (Sink.Filled.of_full rfl)⟩
      · exact absurd (congrArg Prod.fst hnext) (hstop a)
  | @store c it a hroom hitem _ ih =>
    obtain ⟨n, hn⟩ := ih
    refine ⟨n + 1, fun store hstore fuel hfuel => ?_⟩
    obtain ⟨fuel, rfl⟩ := Nat.exists_eq_add_of_le' (Nat.le_of_add_left_le hfuel)
    obtain ⟨c', it', taken, hloop, hfilled⟩ := hn store hstore fuel (by omega)
    have hnext : next it = (some (.ok a), (next it).2) := Prod.ext hitem rfl
    refine ⟨c', it', .ok a :: taken, ?_, Sink.Filled.cons hroom hnext hfilled⟩
    rw [resultLoop, hnext]
    simp only [hstore c a hroom, Option.bind_some, hloop]

/-- The loop ends after an answer that is not an `Ok` item. -/
theorem resultLoop_ends {fuel : ℕ} {c' : Except ε C} {it' : I}
    (h : resultLoop store fuel c it = some (c', it')) :
    ∃ m, it' = after (m + 1) it ∧ ∀ a, answer m it ≠ some (.ok a) := by
  induction fuel generalizing c it with
  | zero => exact absurd h (by simp [resultLoop])
  | succ fuel ih =>
    rw [resultLoop] at h
    cases hnext : next it with
    | mk o it₁ =>
      rw [hnext] at h
      rcases o with - | (err | a)
      · obtain ⟨-, rfl⟩ := Prod.mk.inj (Option.some.inj h)
        refine ⟨0, (after_succ hnext 0).symm, fun a ha => ?_⟩
        rw [answer_zero hnext] at ha
        exact absurd ha (by simp)
      · obtain ⟨-, rfl⟩ := Prod.mk.inj (Option.some.inj h)
        refine ⟨0, (after_succ hnext 0).symm, fun a ha => ?_⟩
        rw [answer_zero hnext] at ha
        exact absurd ha (by simp)
      · obtain ⟨container, -, hrest⟩ := Option.bind_eq_some_iff.mp h
        obtain ⟨m, hm, hlast⟩ := ih hrest
        refine ⟨m + 1, hm.trans (after_succ hnext (m + 1)).symm, fun a ha => ?_⟩
        rw [answer_succ hnext] at ha
        exact hlast a ha

end Loop

/-- A result that was filled lawfully, and whose loop ended as it does, ended before
its container was full. -/
theorem endsBeforeFull_of_filled {K : Sink C T} {c : C} {it it' : Cursor (Except ε T)}
    {taken : List (Except ε T)} {c' : Except ε C} {m : ℕ}
    (h : (resultSink ε K).Filled (.ok c) it taken c' it') (hend : it' = after (m + 1) it)
    (hlast : ∀ a, answer m it ≠ some (.ok a)) : EndsBeforeFull K c it := by
  induction taken generalizing c it m with
  | nil =>
    rcases h.stopped with ⟨-, hstop⟩ | ⟨hroom, hnone, -⟩
    · have hzero := Cursor.after_injective (hend.symm.trans hstop)
      exact absurd hzero (Nat.succ_ne_zero m)
    · rw [h.stored] at hroom
      refine .stop hroom fun a ha => ?_
      have hfirst : (next it).1 = none := hnone
      rw [hfirst] at ha
      exact absurd ha (by simp)
  | cons x taken ih =>
    obtain ⟨hroom, hfirst, hrest⟩ := h.uncons
    cases x with
    | error err =>
      refine .stop hroom fun a ha => ?_
      rw [hfirst] at ha
      exact absurd (Option.some.inj ha) (by simp)
    | ok a =>
      cases m with
      | zero => exact absurd hfirst (hlast a)
      | succ m => exact .store hroom hfirst (ih hrest hend hlast)

/-! ## The implementations -/

/-- The implementation for a result. -/
def IsResult : Fill C T → Prop
  | result _ _ => True
  | _ => False

/-- **All implementations but one are lawful**, whatever the iterator. -/
theorem fill_filled (f : Fill C T) (hf : ¬ f.IsResult) [Iterator I T] (fuel : ℕ) (c : C) (it : I) :
    ∃ c' it' taken, f.fill fuel c it = some (c', it') ∧ f.sink.Filled c it taken c' it' := by
  cases f with
  | vec α =>
    obtain ⟨taken, h⟩ := c.fill_filled it
    exact ⟨_, _, taken, rfl, h⟩
  | vecDeque α =>
    obtain ⟨taken, h⟩ := c.fill_filled it
    exact ⟨_, _, taken, rfl, h⟩
  | option α =>
    obtain ⟨taken, h⟩ := fillOption_filled c it
    exact ⟨_, _, taken, rfl, h⟩
  | iterMut α =>
    obtain ⟨taken, h⟩ := fillIterMut_filled c it
    exact ⟨_, _, taken, rfl, h⟩
  | iterMutSwap α =>
    obtain ⟨taken, h⟩ := fillIterMutSwap_filled c it
    exact ⟨_, _, taken, rfl, h⟩
  | result ε inner => exact absurd trivial hf

/-- What is filled from one item has stored it. -/
theorem store_of_filled_once {K : Sink C T} {c c' : C} {a : T} {it' : Once T} {taken : List T}
    (hroom : K.full c = false) (h : K.Filled c (Once.mk (some a)) taken c' it') :
    c' = K.store c a := by
  cases taken with
  | nil =>
    rcases h.stopped with ⟨hfull, -⟩ | ⟨-, hnone, -⟩
    · rw [h.stored] at hfull
      exact absurd (hroom.symm.trans hfull) (by simp)
    · exact absurd (hnone : some a = none) (Option.some_ne_none a)
  | cons x taken =>
    obtain ⟨-, hx, hrest⟩ := h.uncons
    obtain rfl : a = x := Option.some.inj hx
    cases taken with
    | nil => exact hrest.stored
    | cons y taken => exact absurd (hrest.uncons.2.1 : none = some y) (by simp)

theorem fill_once_of_direct (f : Fill C T) (hf : ¬ f.IsResult) (fuel : ℕ) {c : C}
    (h : f.sink.full c = false) (a : T) :
    (f.fill fuel c (Once.mk (some a))).map Prod.fst = some (f.sink.store c a) := by
  obtain ⟨c', it', taken, hfill, hfilled⟩ := f.fill_filled hf fuel c (Once.mk (some a))
  rw [hfill, Option.map_some, store_of_filled_once h hfilled]

/-- **One item** is stored into any container that is not full. -/
theorem fill_once (f : Fill C T) {fuel : ℕ} (hfuel : 2 ≤ fuel) {c : C} (h : f.sink.full c = false)
    (a : T) : (f.fill fuel c (Once.mk (some a))).map Prod.fst = some (f.sink.store c a) := by
  induction f with
  | vec α | vecDeque α | option α | iterMut α | iterMutSwap α =>
    exact fill_once_of_direct _ id fuel h a
  | result ε inner ih =>
    cases c with
    | error err => exact absurd h (by simp [sink, resultSink])
    | ok container =>
      obtain ⟨fuel, rfl⟩ := Nat.exists_eq_add_of_le' hfuel
      cases a with
      | error err => rfl
      | ok a =>
        -- the item goes to the inner container, and the second poll ends the loop
        have hinner := ih h a
        show ((inner.fill (fuel + 2) container (Once.mk (some a))).map Prod.fst |>.bind
          fun container => resultLoop _ (fuel + 1) container (Once.mk none)).map Prod.fst = _
        rw [hinner]
        rfl

/-- The condition under which an implementation does what it should: a result holds an
error, or it ends before its container is full. -/
def StopsInTime : {C T : Type} → Fill C T → C → Cursor T → Prop
  | _, _, result _ inner, c, it =>
    match c with
    | .ok container => EndsBeforeFull inner.sink container it
    | .error _ => True
  | _, _, vec _, _, _ | _, _, vecDeque _, _, _ | _, _, option _, _, _ | _, _, iterMut _, _, _
  | _, _, iterMutSwap _, _, _ => True

/-- More fuel does not change what is returned. -/
theorem resultLoop_mono [Iterator I (Except ε T)] {store store' : C → T → Option C}
    (hstore : ∀ c a c', store c a = some c' → store' c a = some c') {fuel fuel' : ℕ}
    (hle : fuel ≤ fuel') {c : C} {it : I} {r : Except ε C × I}
    (h : resultLoop store fuel c it = some r) : resultLoop store' fuel' c it = some r := by
  induction fuel generalizing c it fuel' with
  | zero => exact absurd h (by simp [resultLoop])
  | succ fuel ih =>
    obtain ⟨fuel', rfl⟩ := Nat.exists_eq_add_of_le' (Nat.le_of_add_left_le hle)
    rw [resultLoop] at h ⊢
    cases hnext : next it with
    | mk o it₁ =>
      rw [hnext] at h
      rcases o with - | (err | a)
      · exact h
      · exact h
      · obtain ⟨container, hitem, hrest⟩ := Option.bind_eq_some_iff.mp h
        show (store' c a).bind _ = _
        rw [hstore _ _ _ hitem]
        exact ih (by omega) hrest

theorem fill_mono (f : Fill C T) {fuel fuel' : ℕ} (hle : fuel ≤ fuel') :
    ∀ {I : Type} [Iterator I T] {c : C} {it : I} {r : C × I},
      f.fill fuel c it = some r → f.fill fuel' c it = some r := by
  induction f with
  | vec α | vecDeque α | option α | iterMut α | iterMutSwap α =>
    intro I _ c it r h
    exact h
  | result ε inner ih =>
    intro I _ c it r h
    cases c with
    | error err => exact h
    | ok container =>
      have hloop : resultLoop (fun container ok =>
          (inner.fill fuel container (Once.mk (some ok))).map Prod.fst) fuel container it =
          some r := h
      refine resultLoop_mono ?_ hle hloop
      intro c a c' hc
      obtain ⟨r', hr', rfl⟩ := Option.map_eq_some_iff.mp hc
      rw [ih hr']
      rfl

/-- The law of `fill` and of `fill_and_keep_tail`: they return, and what they return
is filled. -/
structure Lawful (f : Fill C T) (c : C) (it : Cursor T) : Prop where
  returns : ∃ fuel, (f.fill fuel c it).isSome
  filled : ∀ fuel c' it', f.fill fuel c it = some (c', it') →
    ∃ taken, f.sink.Filled c it taken c' it'
  tail : ∀ fuel c' it', f.fillAndKeepTail fuel c it = some (c', it') →
    ∃ taken, f.sink.Filled c it taken c' it'

/-- One lawful outcome is enough. -/
theorem Lawful.of_outcome {f : Fill C T} {c c' : C} {it it' : Cursor T} {fuel : ℕ}
    {taken : List T} (h : f.fill fuel c it = some (c', it'))
    (hfilled : f.sink.Filled c it taken c' it') : f.Lawful c it := by
  have hall : ∀ fuel₂ c₂ it₂, f.fill fuel₂ c it = some (c₂, it₂) →
      ∃ taken, f.sink.Filled c it taken c₂ it₂ := by
    intro fuel₂ c₂ it₂ h₂
    have h₁ := f.fill_mono (le_max_left fuel fuel₂) h
    rw [f.fill_mono (le_max_right fuel fuel₂) h₂] at h₁
    obtain ⟨rfl, rfl⟩ := Prod.mk.inj (Option.some.inj h₁)
    exact ⟨taken, hfilled⟩
  exact ⟨⟨fuel, by rw [h]; rfl⟩, hall, hall⟩

/-- A result that is filled lawfully ends before its container is full. -/
theorem Lawful.endsBeforeFull {ε : Type} {inner : Fill C T} {container : C}
    {it : Cursor (Except ε T)} (h : (result ε inner).Lawful (.ok container) it) :
    EndsBeforeFull inner.sink container it := by
  obtain ⟨fuel, hsome⟩ := h.returns
  obtain ⟨⟨c', it'⟩, hfill⟩ := Option.isSome_iff_exists.mp hsome
  obtain ⟨taken, hfilled⟩ := h.filled fuel c' it' hfill
  obtain ⟨m, hend, hlast⟩ := resultLoop_ends hfill
  exact endsBeforeFull_of_filled hfilled hend hlast

/-- **Which containers are filled lawfully.**  `fill` and `fill_and_keep_tail` return,
pull an item only while there is room, store every item they pull, in order, end as
soon as the container is full or the iterator has nothing more, and leave the rest
of the iterator, exactly if the container is not a result, or a result that holds an
error, or one whose iterator has an answer that is not an `Ok` item before the
container in its `Ok` is full. -/
theorem fill_lawful_iff (f : Fill C T) (c : C) (it : Cursor T) :
    f.Lawful c it ↔ f.StopsInTime c it := by
  have hdirect : ¬ f.IsResult → f.Lawful c it := by
    intro hf
    obtain ⟨c', it', taken, hfill, hfilled⟩ := f.fill_filled hf 0 c it
    exact Lawful.of_outcome hfill hfilled
  cases f with
  | vec α | vecDeque α | option α | iterMut α | iterMutSwap α =>
    exact iff_of_true (hdirect id) trivial
  | result ε inner =>
    cases c with
    | error err =>
      have hfill : (result ε inner).fill 0 (.error err) it = some (.error err, it) := rfl
      exact iff_of_true (Lawful.of_outcome hfill (Sink.Filled.of_full rfl)) trivial
    | ok container =>
      constructor
      · intro h
        exact h.endsBeforeFull
      · intro h
        obtain ⟨n, hn⟩ := resultLoop_filled h
        obtain ⟨c', it', taken, hloop, hfilled⟩ := hn
          (fun container ok => (inner.fill (max n 2) container (Once.mk (some ok))).map Prod.fst)
          (fun c a hroom => inner.fill_once (le_max_right n 2) hroom a) (max n 2)
          (le_max_left n 2)
        exact Lawful.of_outcome hloop hfilled

/-- **What a full `Ok` does to its iterator.**  An option in a result is filled from
two `Ok` items: it takes the first, and the second is gone.  From an iterator that
never ends, it never returns. -/
theorem result_discards :
    let two : Cursor (Except ℕ ℕ) := ⟨⟨fun k => if k < 2 then some (.ok k) else none⟩, 0⟩
    let forever : Cursor (Except ℕ ℕ) := ⟨⟨fun k => some (.ok k)⟩, 0⟩
    let f := result ℕ (option ℕ)
    f.fillAndKeepTail 3 (.ok none) two = some (.ok (some 0), { two with polls := 3 }) ∧
      ¬ f.Lawful (.ok none) two ∧ ∀ fuel, f.fill fuel (.ok none) forever = none := by
  refine ⟨rfl, ?_, ?_⟩
  · intro h
    cases h.endsBeforeFull with
    | stop _ hstop => exact hstop 0 rfl
    | store _ _ hrest =>
      -- the option is full with the first item
      cases hrest with
      | stop hroom _ => exact absurd hroom (by simp [sink])
      | store hroom _ _ => exact absurd hroom (by simp [sink])
  · intro fuel
    rw [Option.eq_none_iff_forall_ne_some]
    rintro ⟨c', it'⟩ hfill
    obtain ⟨m, -, hlast⟩ := resultLoop_ends hfill
    exact hlast _ (Cursor.answer_eq m _)

end Fill

end StaticAlloc
