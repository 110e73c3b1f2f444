import StaticAlloc.Core.Layout

/-!
# The shared arena: one allocation attempt

`bump.rs` keeps an arena as a region of bytes and one atomic counter,
`consumed`, the number of bytes handed out so far.  An allocation attempt at an
expected level computes where the block would go, and then tries to move the
counter from the expected level to the end of the block with a single
`compare_exchange`.

Everything before the exchange depends on the arguments only, so it is a
function of its own here, `prepare`; the exchange is `compareExchange`, and what
follows a successful one is `granted`.  Run one after the other they are
`tryAllocAt`, the sequential meaning of `BumpView::try_alloc_at`; an interleaving
of several threads takes them apart at the exchange.

`prepare_eq` says what `prepare` computes on every valid request: the block goes
to the least offset at or after the level whose address is aligned, it is
refused exactly when it does not end inside the region, and none of the five
assertions fires.
-/

namespace StaticAlloc
namespace Bump

open Toolkit

/-- `Level`: an amount of consumed space. -/
abbrev Level := ℕ

/-- `Failure`. -/
inductive Failure where
  | exhausted
  | mismatch (observed : Level)
  deriving DecidableEq, Repr

/-- `Allocation<'_, u8>`: the pointer and the level after the allocation. -/
structure Allocation where
  ptr : ℕ
  level : Level
  deriving DecidableEq, Repr

/-- What `try_alloc_at` has computed when it is about to move the counter. -/
structure Attempt where
  expectConsumed : ℕ
  newConsumed : ℕ
  atAligned : ℕ
  deriving DecidableEq, Repr

/-- `NonNull::new`. -/
def nonNullNew (addr : ℕ) : Option ℕ := if addr = 0 then none else some addr

variable {w : ℕ}

/-- `BumpView::try_alloc_at` up to the exchange, with the assertions of
`BumpView::bump`; `none` is the early return of `Failure::Exhausted`. -/
def prepare (S : Storage w) (layout : Layout w) (expectConsumed : ℕ) :
    Except Stop (Option Attempt) := do
  assert (0 < layout.size) "layout.size() > 0"
  let length := S.len
  let alignment := layout.align
  let requested := layout.size
  assert (expectConsumed ≤ length) "expect_consumed <= length"
  let available ← unwrap (checkedSub length expectConsumed)
  let ptrTo := wrappingAdd w S.base expectConsumed
  let offset := alignOffset ptrTo alignment
  if requested > saturatingSub available offset then
    return none
  assert (offset < available) "offset < available"
  let atAligned ← unwrap (checkedAdd w expectConsumed offset)
  let newConsumed ← unwrap (checkedAdd w atAligned requested)
  assert (newConsumed ≤ length) "new_consumed <= length"
  assert (atAligned < length) "at_aligned < length"
  -- `BumpView::bump` asserts once more before it touches the counter
  assert (expectConsumed ≤ newConsumed) "expect_consumed <= new_consumed"
  assert (newConsumed ≤ S.len) "new_consumed <= self.storage.get().len()"
  return some ⟨expectConsumed, newConsumed, atAligned⟩

/-- `AtomicUsize::compare_exchange`, as `Header::bump` calls it: the counter
afterwards, and the value observed on failure. -/
def compareExchange (consumed expected new : ℕ) : ℕ × Except ℕ Unit :=
  if consumed = expected then (new, .ok ()) else (consumed, .error consumed)

/-- `try_alloc_at` after a successful exchange. -/
def granted (S : Storage w) (a : Attempt) : Except Stop Allocation := do
  let aligned := S.base + a.atAligned
  return ⟨← unwrap (nonNullNew aligned), a.newConsumed⟩

/-- `BumpView::try_alloc_at`, run without interruption on a counter that stands
at `consumed`. -/
def tryAllocAt (S : Storage w) (consumed : ℕ) (layout : Layout w) (expectConsumed : ℕ) :
    Except Stop (ℕ × Except Failure Allocation) := do
  match ← prepare S layout expectConsumed with
  | none => return (consumed, .error .exhausted)
  | some a =>
    match compareExchange consumed a.expectConsumed a.newConsumed with
    | (consumed, .error observed) => return (consumed, .error (.mismatch observed))
    | (consumed, .ok ()) => return (consumed, .ok (← granted S a))

/-! ## Where a block goes -/

/-- The least offset at or after `level` whose address is a multiple of the
alignment. -/
def placement (S : Storage w) (layout : Layout w) (level : ℕ) : ℕ :=
  level + padding (S.base + level) layout.align

variable {S : Storage w} {l : Layout w} {e : ℕ}

theorem le_placement : e ≤ placement S l e := Nat.le_add_right _ _

theorem dvd_placement : l.align ∣ S.base + placement S l e := by
  have h := dvd_add_padding (n := S.base + e) l.align_pos
  rwa [Nat.add_assoc] at h

/-- No earlier offset is aligned. -/
theorem placement_le {o : ℕ} (he : e ≤ o) (h : l.align ∣ S.base + o) : placement S l e ≤ o := by
  have h' : l.align ∣ S.base + e + (o - e) := by
    rwa [show S.base + e + (o - e) = S.base + o by omega]
  have := padding_le_of_dvd l.align_pos h'
  unfold placement
  omega

/-- The address arithmetic of `try_alloc_at` may wrap; the offset does not see it. -/
theorem alignOffset_wrappingAdd (x y : ℕ) :
    alignOffset (wrappingAdd w x y) l.align = padding (x + y) l.align :=
  padding_mod l.align_dvd

/-- **What an attempt computes.**  For a request of non-zero size and a level
inside the arena no assertion fires: the block starts at its placement, and the
request is refused exactly when the block would not end inside the arena. -/
theorem prepare_eq (hs : 0 < l.size) (he : e ≤ S.len) :
    prepare S l e = .ok (if placement S l e + l.size ≤ S.len then
      some ⟨e, placement S l e + l.size, placement S l e⟩ else none) := by
  have hfits := S.fits
  have hpos := S.nonnull
  unfold prepare
  simp only [assert_true hs, assert_true he, checkedSub_of_le he, unwrap_some, ok_bind,
    alignOffset_wrappingAdd, saturatingSub]
  by_cases hfit : placement S l e + l.size ≤ S.len
  · rw [if_pos hfit]
    unfold placement at hfit ⊢
    generalize padding (S.base + e) l.align = p at hfit ⊢
    have hlt : e + p < S.len := by omega
    have hle : e ≤ e + p + l.size := by omega
    rw [if_neg (by omega), assert_true (by omega), checkedAdd_of_lt (by omega), unwrap_some]
    simp only [ok_bind]
    rw [checkedAdd_of_lt (by omega), unwrap_some]
    simp only [ok_bind, assert_true hfit, assert_true hlt, assert_true hle]
    rfl
  · rw [if_neg hfit]
    unfold placement at hfit
    rw [if_pos (by omega)]
    rfl

/-- A zero-size request stops at the first assertion. -/
theorem prepare_of_size_eq_zero (hs : l.size = 0) :
    prepare S l e = .error (.panic "layout.size() > 0") := by
  unfold prepare
  rw [assert_false (by omega)]
  rfl

/-- A level from outside the arena stops at the second. -/
theorem prepare_of_lt (hs : 0 < l.size) (he : S.len < e) :
    prepare S l e = .error (.panic "expect_consumed <= length") := by
  have he' : ¬ e ≤ S.len := by omega
  simp only [prepare, assert_true hs, assert_false he', ok_bind, error_bind]

/-- An attempt that gets through its checks was given a size and a level inside the
arena. -/
theorem prepare_ok {r : Option Attempt} (h : prepare S l e = .ok r) :
    0 < l.size ∧ e ≤ S.len ∧ r = if placement S l e + l.size ≤ S.len then
      some ⟨e, placement S l e + l.size, placement S l e⟩ else none := by
  rcases Nat.eq_zero_or_pos l.size with hs | hs
  · rw [prepare_of_size_eq_zero hs] at h
    exact absurd h (by simp)
  rcases Nat.lt_or_ge S.len e with he | he
  · rw [prepare_of_lt hs he] at h
    exact absurd h (by simp)
  rw [prepare_eq hs he] at h
  exact ⟨hs, he, (Except.ok.inj h).symm⟩

/-- What an attempt that may move the counter satisfies. -/
structure Attempt.Sound (S : Storage w) (l : Layout w) (a : Attempt) : Prop where
  size_pos : 0 < l.size
  le_atAligned : a.expectConsumed ≤ a.atAligned
  newConsumed_eq : a.newConsumed = a.atAligned + l.size
  newConsumed_le : a.newConsumed ≤ S.len
  aligned : l.align ∣ S.base + a.atAligned

/-- **Only sound attempts are made**, whatever the arguments were. -/
theorem prepare_sound {a : Attempt} (h : prepare S l e = .ok (some a)) :
    a.Sound S l ∧ a.expectConsumed = e := by
  obtain ⟨hs, -, hr⟩ := prepare_ok h
  split at hr
  · rename_i hfit
    obtain rfl := Option.some.inj hr
    exact ⟨⟨hs, le_placement, rfl, hfit, dvd_placement⟩, rfl⟩
  · exact absurd hr (by simp)

theorem granted_eq (a : Attempt) : granted S a = .ok ⟨S.base + a.atAligned, a.newConsumed⟩ := by
  have hne : S.base + a.atAligned ≠ 0 := by
    have := S.nonnull
    omega
  simp only [granted, nonNullNew, if_neg hne, unwrap_some, ok_bind, pure_eq_ok]

theorem compareExchange_self (c n : ℕ) : compareExchange c c n = (n, .ok ()) := if_pos rfl

theorem compareExchange_of_ne {c e n : ℕ} (h : c ≠ e) :
    compareExchange c e n = (c, .error c) := if_neg h

end Bump
end StaticAlloc
