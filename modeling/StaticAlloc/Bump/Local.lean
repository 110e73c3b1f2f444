import StaticAlloc.Bump.Sync
import StaticAlloc.Core.Memory
import StaticAlloc.Library.Runs

/-!
# Allocating and reallocating through the allocator traits

`Bump<T>` and `BumpView` implement `GlobalAlloc` and `LocalAlloc`.  Deallocation
does nothing, and reallocation keeps the block where it is when it is large enough
and happens to be aligned; otherwise it allocates anew and copies.  `Bump<T>`
forwards everything to its view, except `LocalAlloc::realloc`, which it repeats word
by word.

The calls come one after the other here, so the loop of `try_alloc` is left in its
first turn (`tryAlloc_eq`); that it terminates at all is because an exchange fails
only with the value the counter really has.

A `Session` is one user of the arena: the memory, and the blocks allocated and not
yet deallocated, each with the layout its user now knows it by, which may be smaller
than the one it was allocated with.
-/

namespace StaticAlloc

open Toolkit

variable {w : ℕ} {β : Type}

namespace AllocTraits

/-- `alloc_traits::NonZeroLayout`. -/
structure NonZeroLayout (w : ℕ) extends Layout w where
  size_pos : 0 < size

/-- `NonZeroLayout::from_layout`. -/
def NonZeroLayout.fromLayout (layout : Layout w) : Option (NonZeroLayout w) :=
  if h : 0 < layout.size then some ⟨layout, h⟩ else none

/-- `alloc_traits::Allocation`. -/
structure Allocation (w : ℕ) where
  ptr : ℕ
  layout : NonZeroLayout w

/-- The bytes of a block. -/
def Allocation.span (a : Allocation w) : Span := ⟨a.ptr, a.layout.size⟩

theorem NonZeroLayout.fromLayout_of_pos {layout : Layout w} (h : 0 < layout.size) :
    fromLayout layout = some ⟨layout, h⟩ := dif_pos h

end AllocTraits

namespace Bump

open AllocTraits (NonZeroLayout)

/-! ## The retry loop -/

variable {S : Storage w} {l : Layout w} {c e : ℕ}

/-- An exchange fails with the value of the counter, and only if that is not the
one expected. -/
theorem tryAllocAt_mismatch {c' observed : ℕ}
    (h : tryAllocAt S c l e = .ok (c', .error (.mismatch observed))) :
    c' = c ∧ observed = c ∧ e ≠ c := by
  cases hp : prepare S l e with
  | error s =>
    rw [tryAllocAt, hp] at h
    exact absurd h (by simp)
  | ok attempt =>
    cases attempt with
    | none =>
      rw [tryAllocAt, hp] at h
      exact absurd h (by simp)
    | some a =>
      obtain ⟨-, ha⟩ := prepare_sound hp
      rw [tryAllocAt, hp] at h
      simp only [ok_bind] at h
      by_cases heq : c = a.expectConsumed
      · rw [← heq, compareExchange_self] at h
        simp only [granted_eq, ok_bind] at h
        exact absurd h (by simp)
      · rw [compareExchange_of_ne heq] at h
        have hpair := ok_pair_inj h
        refine ⟨hpair.1.symm, ?_, ?_⟩
        · exact (Failure.mismatch.inj (Except.error.inj hpair.2)).symm
        · rw [← ha]
          exact Ne.symm heq

/-- The loop of `BumpView::try_alloc`, with the guess of the level it tries next.
After a mismatch the guess is right. -/
def tryAllocLoop (S : Storage w) (counter : ℕ) (layout : Layout w) (consumed : ℕ) :
    Except Stop (ℕ × Except Level Allocation) :=
  match _ : tryAllocAt S counter layout consumed with
  | .error stop => .error stop
  | .ok (counter', .ok alloc) => .ok (counter', .ok alloc)
  | .ok (counter', .error .exhausted) => .ok (counter', .error consumed)
  | .ok (counter', .error (.mismatch observed)) => tryAllocLoop S counter' layout observed
termination_by if consumed = counter then 0 else 1
decreasing_by
  rename_i hturn
  obtain ⟨rfl, rfl, hne⟩ := tryAllocAt_mismatch hturn
  rw [if_pos rfl, if_neg hne]
  exact Nat.one_pos

/-- `BumpView::try_alloc`. -/
def tryAlloc (S : Storage w) (counter : ℕ) (layout : Layout w) :
    Except Stop (ℕ × Except Level Allocation) :=
  tryAllocLoop S counter layout counter

theorem tryAllocAt_eq (hs : 0 < l.size) (hc : c ≤ S.len) :
    tryAllocAt S c l c = .ok (if placement S l c + l.size ≤ S.len then
      (placement S l c + l.size, .ok ⟨S.base + placement S l c, placement S l c + l.size⟩)
      else (c, .error .exhausted)) := by
  rw [tryAllocAt, prepare_eq hs hc]
  by_cases hfit : placement S l c + l.size ≤ S.len
  · rw [if_pos hfit, if_pos hfit]
    simp only [ok_bind, compareExchange_self, granted_eq]
    rfl
  · rw [if_neg hfit, if_neg hfit]
    rfl

/-- **The loop is left in its first turn.** -/
theorem tryAlloc_eq (hs : 0 < l.size) (hc : c ≤ S.len) :
    tryAlloc S c l = .ok (if placement S l c + l.size ≤ S.len then
      (placement S l c + l.size, .ok ⟨S.base + placement S l c, placement S l c + l.size⟩)
      else (c, .error c)) := by
  have h := tryAllocAt_eq hs hc
  rw [tryAlloc, tryAllocLoop]
  by_cases hfit : placement S l c + l.size ≤ S.len
  · rw [if_pos hfit] at h ⊢
    split
    all_goals simp_all
  · rw [if_neg hfit] at h ⊢
    split
    all_goals simp_all

theorem tryAlloc_of_size_eq_zero (hs : l.size = 0) :
    tryAlloc S c l = .error (.panic "layout.size() > 0") := by
  have h : tryAllocAt S c l c = .error (.panic "layout.size() > 0") := by
    rw [tryAllocAt, prepare_of_size_eq_zero hs]
    rfl
  rw [tryAlloc, tryAllocLoop]
  split
  all_goals simp_all

/-! ## The trait implementations -/

/-- The counter of an arena and all bytes. -/
structure Memory (β : Type) where
  consumed : ℕ
  bytes : Bytes β

namespace BumpView

/-- `BumpView::get_layout`. -/
def getLayout (S : Storage w) (σ : Memory β) (layout : Layout w) :
    Except Stop (Memory β × Option Allocation) := do
  match ← tryAlloc S σ.consumed layout with
  | (consumed, .ok alloc) => return ({ σ with consumed := consumed }, some alloc)
  | (consumed, .error _) => return ({ σ with consumed := consumed }, none)

/-- `LocalAlloc::alloc`. -/
def localAlloc (S : Storage w) (σ : Memory β) (layout : NonZeroLayout w) :
    Except Stop (Memory β × Option (AllocTraits.Allocation w)) := do
  match ← getLayout S σ layout.toLayout with
  | (σ, some rawAlloc) => return (σ, some ⟨rawAlloc.ptr, layout⟩)
  | (σ, none) => return (σ, none)

end BumpView

/-- The body of both `LocalAlloc::realloc`. -/
def reallocBy (S : Storage w)
    (alloc : Memory β → NonZeroLayout w →
      Except Stop (Memory β × Option (AllocTraits.Allocation w)))
    (σ : Memory β) (old : AllocTraits.Allocation w) (layout : NonZeroLayout w) :
    Except Stop (Memory β × Option (AllocTraits.Allocation w)) := do
  if old.ptr % layout.align = 0 ∧ old.layout.size ≥ layout.size then
    return (σ, some ⟨old.ptr, layout⟩)
  match ← alloc σ layout with
  | (σ, none) => return (σ, none)
  | (σ, some newAlloc) =>
    let bytes ← ptrCopyNonoverlapping S.span σ.bytes old.ptr newAlloc.ptr
      (min layout.size old.layout.size)
    return ({ σ with bytes := bytes }, some newAlloc)

/-- `layout_reallocated`. -/
def layoutReallocated (layout : NonZeroLayout w) (target : ℕ) :
    Except Stop (Option (NonZeroLayout w)) :=
  match Layout.fromSizeAlign w target layout.align with
  | none => .ok none
  | some layout => do return some (← unwrap (NonZeroLayout.fromLayout layout))

namespace BumpView

/-- `LocalAlloc::realloc`. -/
def localRealloc (S : Storage w) (σ : Memory β) (alloc : AllocTraits.Allocation w)
    (layout : NonZeroLayout w) : Except Stop (Memory β × Option (AllocTraits.Allocation w)) :=
  reallocBy S (localAlloc S) σ alloc layout

/-- `BumpView::alloc`. -/
def alloc (S : Storage w) (σ : Memory β) (layout : Layout w) :
    Except Stop (Memory β × Option ℕ) := do
  match ← tryAlloc S σ.consumed layout with
  | (consumed, .ok alloc) => return ({ σ with consumed := consumed }, some alloc.ptr)
  | (consumed, .error _) => return ({ σ with consumed := consumed }, none)

/-- `GlobalAlloc::alloc`; the null pointer is `0`. -/
def globalAlloc (S : Storage w) (σ : Memory β) (layout : Layout w) :
    Except Stop (Memory β × ℕ) := do
  match ← alloc S σ layout with
  | (σ, some ptr) => return (σ, ptr)
  | (σ, none) => return (σ, 0)

/-- `GlobalAlloc::realloc`. -/
def globalRealloc (S : Storage w) (σ : Memory β) (ptr : ℕ) (current : Layout w)
    (newSize : ℕ) : Except Stop (Memory β × ℕ) := do
  let current ← unwrap (NonZeroLayout.fromLayout current)
  if newSize = 0 then
    .error (.undefined "NonZeroUsize::new_unchecked(0)")
  else
    match ← layoutReallocated current newSize with
    | none => return (σ, 0)
    | some target =>
      if ptr = 0 then
        .error (.undefined "NonNull::new_unchecked(null)")
      else
        match ← localRealloc S σ ⟨ptr, current⟩ target with
        | (σ, some alloc) => return (σ, alloc.ptr)
        | (σ, none) => return (σ, 0)

end BumpView

/-- `Bump::get_layout`. -/
def getLayout (S : Storage w) (σ : Memory β) (layout : Layout w) :
    Except Stop (Memory β × Option Allocation) :=
  BumpView.getLayout S σ layout

/-- `LocalAlloc::alloc` for `Bump<T>`. -/
def localAlloc (S : Storage w) (σ : Memory β) (layout : NonZeroLayout w) :
    Except Stop (Memory β × Option (AllocTraits.Allocation w)) := do
  match ← getLayout S σ layout.toLayout with
  | (σ, some rawAlloc) => return (σ, some ⟨rawAlloc.ptr, layout⟩)
  | (σ, none) => return (σ, none)

/-- `LocalAlloc::realloc` for `Bump<T>`. -/
def localRealloc (S : Storage w) (σ : Memory β) (alloc : AllocTraits.Allocation w)
    (layout : NonZeroLayout w) : Except Stop (Memory β × Option (AllocTraits.Allocation w)) :=
  reallocBy S (localAlloc S) σ alloc layout

/-- `GlobalAlloc::alloc` for `Bump<T>`. -/
def globalAlloc (S : Storage w) (σ : Memory β) (layout : Layout w) :
    Except Stop (Memory β × ℕ) :=
  BumpView.globalAlloc S σ layout

/-- `GlobalAlloc::realloc` for `Bump<T>`. -/
def globalRealloc (S : Storage w) (σ : Memory β) (ptr : ℕ) (current : Layout w)
    (newSize : ℕ) : Except Stop (Memory β × ℕ) :=
  BumpView.globalRealloc S σ ptr current newSize

/-! ## One user of the arena -/

/-- Which of the two types is called. -/
inductive Via where
  | bump
  | view
  deriving DecidableEq

namespace Via

/-- `LocalAlloc::alloc`. -/
def localAlloc (S : Storage w) (σ : Memory β) : Via → NonZeroLayout w →
    Except Stop (Memory β × Option (AllocTraits.Allocation w))
  | bump => Bump.localAlloc S σ
  | view => BumpView.localAlloc S σ

/-- `LocalAlloc::realloc`. -/
def localRealloc (S : Storage w) (σ : Memory β) : Via → AllocTraits.Allocation w →
    NonZeroLayout w → Except Stop (Memory β × Option (AllocTraits.Allocation w))
  | bump => Bump.localRealloc S σ
  | view => BumpView.localRealloc S σ

/-- `GlobalAlloc::alloc`. -/
def globalAlloc (S : Storage w) (σ : Memory β) : Via → Layout w → Except Stop (Memory β × ℕ)
  | bump => Bump.globalAlloc S σ
  | view => BumpView.globalAlloc S σ

/-- `GlobalAlloc::realloc`. -/
def globalRealloc (S : Storage w) (σ : Memory β) : Via → ℕ → Layout w → ℕ →
    Except Stop (Memory β × ℕ)
  | bump => Bump.globalRealloc S σ
  | view => BumpView.globalRealloc S σ

end Via

/-- An arena, and the blocks its user holds. -/
structure Session (w : ℕ) (β : Type) where
  memory : Memory β
  live : List (AllocTraits.Allocation w)

/-- What the user may do. -/
inductive Request (w : ℕ) (β : Type) where
  | localAlloc (via : Via) (layout : NonZeroLayout w)
  | localRealloc (via : Via) (i : ℕ) (layout : NonZeroLayout w)
  | globalAlloc (via : Via) (layout : NonZeroLayout w)
  | globalRealloc (via : Via) (i : ℕ) (newSize : ℕ)
  | dealloc (via : Via) (i : ℕ)
  /-- Write a byte of the `i`-th block. -/
  | write (i k : ℕ) (b : β)

namespace Session

/-- The user has a new block. -/
def push (σ : Session w β) (memory : Memory β) (a : AllocTraits.Allocation w) : Session w β :=
  ⟨memory, σ.live ++ [a]⟩

/-- The user has another block in place of its `i`-th. -/
def replace (σ : Session w β) (memory : Memory β) (i : ℕ) (a : AllocTraits.Allocation w) :
    Session w β :=
  ⟨memory, σ.live.set i a⟩

/-- One request; what the user holds afterwards follows from what was returned. -/
def exec (S : Storage w) (σ : Session w β) : Request w β → Except Stop (Session w β)
  | .localAlloc via layout => do
    match ← via.localAlloc S σ.memory layout with
    | (memory, some a) => return σ.push memory a
    | (memory, none) => return { σ with memory := memory }
  | .localRealloc via i layout =>
    match σ.live[i]? with
    | none => .ok σ
    | some a => do
      match ← via.localRealloc S σ.memory a layout with
      | (memory, some a) => return σ.replace memory i a
      | (memory, none) => return { σ with memory := memory }
  | .globalAlloc via layout => do
    match ← via.globalAlloc S σ.memory layout.toLayout with
    | (memory, 0) => return { σ with memory := memory }
    | (memory, ptr) => return σ.push memory ⟨ptr, layout⟩
  | .globalRealloc via i newSize =>
    match σ.live[i]? with
    | none => .ok σ
    | some a => do
      match ← via.globalRealloc S σ.memory a.ptr a.layout.toLayout newSize,
        ← layoutReallocated a.layout newSize with
      | (memory, 0), _ => return { σ with memory := memory }
      | (memory, ptr), some layout => return σ.replace memory i ⟨ptr, layout⟩
      | (memory, _), none => return { σ with memory := memory }
  | .dealloc _ i => .ok { σ with live := σ.live.eraseIdx i }
  | .write i k b =>
    match σ.live[i]? with
    | none => .ok σ
    | some a => .ok { σ with memory.bytes := σ.memory.bytes.store (a.ptr + k) b }

/-- What the contracts of the traits ask of the user. -/
def Enabled (σ : Session w β) : Request w β → Prop
  | .localRealloc _ i _ => i < σ.live.length
  | .globalRealloc _ i newSize => i < σ.live.length ∧ 0 < newSize
  | .dealloc _ i => i < σ.live.length
  | .write i k _ => ∃ a, σ.live[i]? = some a ∧ k < a.layout.size
  | _ => True

/-- All runs of one user, on an arena whatever its bytes and its level. -/
def machine (S : Storage w) : Machine (Session w β) (Request w β) where
  init σ := σ.live = [] ∧ σ.memory.consumed ≤ S.len
  step σ r τ := σ.Enabled r ∧ σ.exec S r = .ok τ

end Session

end Bump
end StaticAlloc
