import StaticAlloc.AllocatorApi.Shrink
import StaticAlloc.Bump.Unchecked

/-!
# What the wrapper tells about allocations

`WithAllocationInfo` wraps an arena and keeps two levels in cells: where the last block
starts, and the level its last call of `try_alloc` told of, in success or failure.
Reading the level of the arena instead would be a race; what `try_alloc` tells is not.

What it tells is `Answers`: at the one step in which the call is decided, the arena
stands at the level of the refusal, or moves over the block to the level of the
success.  `answered_tryAlloc` finds this in any interleaving of threads.  `Tells` is
what follows for the cells and for all calls so far, and `Tells.tell` carries it over a
call, whatever happened to the arena in between.

A wrapper is used by one thread at a time, since its cells are not shared; so its calls
are those of `try_alloc` by one thread, which no one else calls by name.
-/

namespace StaticAlloc
namespace AllocatorApi

open Toolkit
open Bump (Level Allocation Fits placement)

variable {w : ℕ} {β : Type}

/-- `WithAllocationInfo`, without the arena it wraps. -/
structure WithAllocationInfo where
  /-- The placement of the last allocation. -/
  allocation : Level
  /-- The observed usage of the arena. -/
  observedLevel : Level
  deriving DecidableEq

namespace WithAllocationInfo

/-- `WithAllocationInfo::new`. -/
def new : WithAllocationInfo := ⟨0, 0⟩

/-- `WithAllocationInfo::last_observed_level`. -/
def lastObservedLevel (info : WithAllocationInfo) : ℕ := info.observedLevel

/-- `WithAllocationInfo::last_allocation_start`. -/
def lastAllocationStart (info : WithAllocationInfo) : ℕ := info.allocation

/-- `Allocator::allocate`, which is the same for all wrapped arenas but for the arena
whose `try_alloc` is called.  In the shared one that call takes several steps, so its
answer is an argument. -/
def allocate (b : Build) (info : WithAllocationInfo) (layout : Layout w)
    (tryAlloc : Except Stop (Except Level Allocation)) :
    Except Stop (WithAllocationInfo × Except AllocError Span) := do
  let len := layout.size
  match ← tryAlloc with
  | .ok allocation =>
    let start ← subUsize b w allocation.level len
    return (⟨start, allocation.level⟩, .ok ⟨allocation.ptr, len⟩)
  | .error level => return ({ info with observedLevel := level }, .error .mk)

/-- `Allocator::shrink`, forwarded to the arena. -/
def shrink (arena : Arena) (b : Build) (m : Bytes β) (info : WithAllocationInfo) (ptr : ℕ)
    (oldLayout newLayout : Layout w) :
    Except Stop (Bytes β × WithAllocationInfo × Except AllocError Span) := do
  let (m, r) ← arena.shrink b m ptr oldLayout newLayout
  return (m, info, r)

end WithAllocationInfo

/-! ## What is told of a call -/

/-- A finished `allocate`: the cells before and after it, the level of the arena at the
step in which it was decided, and the result. -/
structure Told (w : ℕ) where
  layout : Layout w
  before : WithAllocationInfo
  during : ℕ
  after : WithAllocationInfo
  result : Except Stop (Except AllocError Span)

/-- What the cells say is true of the call.  One for a positive number of bytes does not
panic. -/
def Told.Consistent (S : Storage w) (y : Told w) : Prop :=
  match y.result with
  | .ok (.ok block) => block.size = y.layout.size ∧
      block.start = Bump.dataPtr S + y.after.lastAllocationStart ∧
      y.after.lastObservedLevel = y.after.lastAllocationStart + y.layout.size
  | .ok (.error _) => y.after.lastAllocationStart = y.before.lastAllocationStart ∧
      y.after.lastObservedLevel = y.during ∧ ¬ Fits S y.layout y.during
  | .error _ => y.layout.size = 0

/-- A wrapper, and its finished calls, latest first. -/
structure Handle (w : ℕ) where
  info : WithAllocationInfo
  told : List (Told w)

/-- A call of `allocate` that is decided while the arena stands at a level.  If it panics
the cells stay as they are. -/
def Handle.tell (b : Build) (H : Handle w) (layout : Layout w) (level : ℕ)
    (tryAlloc : Except Stop (Except Level Allocation)) : Handle w :=
  match H.info.allocate b layout tryAlloc with
  | .ok (info, r) => ⟨info, ⟨layout, H.info, level, info, .ok r⟩ :: H.told⟩
  | .error stop => ⟨H.info, ⟨layout, H.info, level, H.info, .error stop⟩ :: H.told⟩

/-- The answers of `try_alloc` while the arena stands at a level, and the level
afterwards. -/
inductive Answers (S : Storage w) (l : Layout w) (level : ℕ) :
    Except Stop (Except Level Allocation) → ℕ → Prop where
  | granted (fits : placement S l level + l.size ≤ S.len) :
      Answers S l level
        (.ok (.ok ⟨S.base + placement S l level, placement S l level + l.size⟩))
        (placement S l level + l.size)
  | refused (full : ¬ Fits S l level) : Answers S l level (.ok (.error level)) level
  | stopped {s : Stop} (empty : l.size = 0) : Answers S l level (.error s) level

/-- What the cells tell, while the arena stands at a level: every call was told of
truly, no level lies above a later one, and the last is not above the arena's. -/
structure Tells (S : Storage w) (level : ℕ) (H : Handle w) : Prop where
  consistent : ∀ y ∈ H.told, y.Consistent S
  sorted : (H.told.map fun y => y.after.lastObservedLevel).Pairwise (· ≥ ·)
  seen : ∀ y ∈ H.told, y.after.lastObservedLevel ≤ H.info.lastObservedLevel
  observed_le : H.info.lastObservedLevel ≤ level

/-- The answer of `try_alloc` in a reply. -/
def tryAllocAnswer : Bump.Reply → Except Stop (Except Level Allocation)
  | .granted a => .ok (.ok a)
  | .refused level => .ok (.error level)
  | .stopped s => .error s
  | .pointer _ | .slice _ _ _ | .nothing | .failed _ =>
    .error (.undefined "not an answer of try_alloc")

variable {b : Build} {S : Storage w} {l : Layout w} {H : Handle w} {level n : ℕ}

theorem Tells.new (S : Storage w) (level : ℕ) : Tells S level ⟨.new, []⟩ where
  consistent _ hy := absurd hy List.not_mem_nil
  sorted := .nil
  seen _ hy := absurd hy List.not_mem_nil
  observed_le := Nat.zero_le _

/-- Others may move the arena. -/
theorem Tells.mono (h : Tells S level H) (hle : level ≤ n) : Tells S n H :=
  { h with observed_le := h.observed_le.trans hle }

/-- One more call, after which the level told is not below the one before. -/
theorem Tells.cons {y : Told w} (h : Tells S level H) (hy : y.Consistent S)
    (hbefore : H.info.lastObservedLevel ≤ y.after.lastObservedLevel)
    (hafter : y.after.lastObservedLevel ≤ n) : Tells S n ⟨y.after, y :: H.told⟩ where
  consistent := by
    intro x hx
    rcases List.mem_cons.mp hx with rfl | hx
    · exact hy
    · exact h.consistent x hx
  sorted := by
    rw [List.map_cons]
    refine List.pairwise_cons.mpr ⟨fun m hm => ?_, h.sorted⟩
    obtain ⟨x, hx, rfl⟩ := List.mem_map.mp hm
    exact (h.seen x hx).trans hbefore
  seen := by
    intro x hx
    rcases List.mem_cons.mp hx with rfl | hx
    · exact le_rfl
    · exact (h.seen x hx).trans hbefore
  observed_le := hafter

/-- Between two states of the wrapper one call was told of: with the cells as they were
before it and are now, and the level it was decided at. -/
def Decides (l : Layout w) (level : ℕ) (H H' : Handle w) : Prop :=
  ∃ y, H'.told = y :: H.told ∧ y.layout = l ∧ y.during = level ∧ y.before = H.info ∧
    y.after = H'.info

theorem Handle.tell_decides {answer : Except Stop (Except Level Allocation)} :
    Decides l level H (H.tell b l level answer) := by
  rw [tell]
  cases H.info.allocate b l answer with
  | ok p => exact ⟨_, rfl, rfl, rfl, rfl, rfl⟩
  | error stop => exact ⟨_, rfl, rfl, rfl, rfl, rfl⟩

/-- A granted call: `allocate` computes the start of the block from its end. -/
theorem Handle.tell_granted {o : ℕ} : H.tell b l level (.ok (.ok ⟨S.base + o, o + l.size⟩)) =
    ⟨⟨o, o + l.size⟩,
      ⟨l, H.info, level, ⟨o, o + l.size⟩, .ok (.ok ⟨S.base + o, l.size⟩)⟩ :: H.told⟩ := by
  have hstart : subUsize b w (o + l.size) l.size = .ok o := by
    rw [subUsize_of_le (Nat.le_add_left _ _), Nat.add_sub_cancel]
  rw [Handle.tell, WithAllocationInfo.allocate, ok_bind]
  simp only [hstart]
  rfl

/-- **A call tells the truth.** -/
theorem Tells.tell {answer : Except Stop (Except Level Allocation)} (h : Tells S level H)
    (hanswer : Answers S l level answer n) : Tells S n (H.tell b l level answer) := by
  cases hanswer with
  | granted fits =>
    rw [Handle.tell_granted]
    have hy : Told.Consistent S ⟨l, H.info, level, ⟨placement S l level, placement S l level +
        l.size⟩, .ok (.ok ⟨S.base + placement S l level, l.size⟩)⟩ := ⟨rfl, rfl, rfl⟩
    exact h.cons hy ((h.observed_le.trans Bump.le_placement).trans (Nat.le_add_right _ _)) le_rfl
  | refused full =>
    have hy : Told.Consistent S ⟨l, H.info, level, { H.info with observedLevel := level },
        .ok (.error .mk)⟩ := ⟨rfl, rfl, full⟩
    exact h.cons hy h.observed_le le_rfl
  | @stopped s empty =>
    have hy : Told.Consistent S ⟨l, H.info, level, H.info, .error s⟩ := empty
    exact h.cons hy le_rfl h.observed_le

end AllocatorApi

/-! ## Answers in an interleaving -/

namespace Bump
namespace Arena

open AllocatorApi (Answers)

variable {w : ℕ} {ι : Type*} [DecidableEq ι] {S : Storage w} {σ : Arena ι w} {t u : ι}
  {c : Call w} {l : Layout w} {todo : List (Call w)} {r : Reply} {e : ℕ} {x : Next w}

theorem settle_log_eq_cons (h : (σ.settle t c todo x).log = ⟨u, c, r⟩ :: σ.log) :
    x = .done r := by
  cases x with
  | goto pc => exact absurd h.symm (List.cons_ne_self _ _)
  | done r' =>
    rw [settle_log_done] at h
    rw [(Entry.mk.inj (List.cons.inj h).1).2.2]

/-- An attempt at the level of the arena passes its checks. -/
theorem attempt_ne_stopped (hs : 0 < l.size) (he : e ≤ S.len) (s : Stop) :
    attempt S c l e ≠ .done (.stopped s) := by
  rw [attempt, prepare_eq hs he]
  by_cases hfit : placement S l e + l.size ≤ S.len
  · rw [if_pos hfit]
    simp
  · rw [if_neg hfit]
    cases c <;> simp [Call.exhausted]

/-- **No call of the loop for a positive number of bytes panics.** -/
theorem loop_not_stopped (hσ : (machine S).Reachable σ) (hb : c.body = .loop l)
    (hs : 0 < l.size) (s : Stop) : (σ.step S t).log ≠ ⟨t, c, .stopped s⟩ :: σ.log := by
  intro hlog
  have htracked := reachable_tracked hσ
  have hlevel := (reachable_invariant hσ).level_le
  have hf := htracked t
  obtain hin | hin := (logs_of_log htracked hlog).inside
  · cases hpc : (σ.threads t).pc with
    | idle => exact absurd (hpc ▸ hin) (by simp [Pc.call?])
    | observing c' =>
      rw [hpc] at hin hf
      obtain rfl := Option.some.inj hin
      exact absurd (hb.symm.trans hf) (by simp)
    | loading c' l' =>
      rw [hpc] at hin hf
      obtain rfl := Option.some.inj hin
      obtain rfl : l = l' := Body.loop.inj (hb.symm.trans hf)
      simp only [step, hpc] at hlog
      exact attempt_ne_stopped hs hlevel s (settle_log_eq_cons hlog)
    | exchanging c' l' a =>
      rw [hpc] at hin hf
      obtain rfl := Option.some.inj hin
      obtain rfl : l = l' := by
        rcases hf.2 with ⟨hb', -⟩ | hb'
        · exact Body.loop.inj (hb.symm.trans hb')
        · exact absurd (hb.symm.trans hb') (by simp)
      simp only [step, hpc] at hlog
      by_cases heq : σ.consumed = a.expectConsumed
      · rw [exchange, heq, compareExchange_self, finish, granted_eq] at hlog
        have hhead := (List.cons.inj ((settle_log_done _ t c' _ _).symm.trans hlog)).1
        have hr := (Entry.mk.inj hhead).2.2
        cases c' <;> exact absurd hr (by simp [Call.succeed])
      · rw [exchange_of_ne heq, mismatched, if_pos (Call.retries_of_loop hb)] at hlog
        exact attempt_ne_stopped hs hlevel s (settle_log_eq_cons hlog)
  · exact hin l hb

/-- **What `try_alloc` tells is true at the step in which it is decided.** -/
theorem answered_tryAlloc (hσ : (machine S).Reachable σ)
    (hlog : (σ.step S t).log = ⟨t, .tryAlloc l, r⟩ :: σ.log) :
    Answers S l σ.consumed (AllocatorApi.tryAllocAnswer r) (σ.step S t).consumed := by
  have hreturns := (logs_of_log (reachable_tracked hσ) hlog).returns
  generalize hn : (σ.step S t).consumed = n at hreturns
  cases hreturns with
  | @granted l' tries size_pos fits =>
    obtain rfl : l = l' := by
      rcases tries with ⟨hb, -⟩ | hb
      · exact Body.loop.inj hb
      · exact absurd hb (by simp [Call.body])
    exact .granted fits
  | @exhausted l' e tries size_pos full =>
    obtain ⟨rfl, rfl⟩ : l = l' ∧ e = σ.consumed := by
      rcases tries with ⟨hb, he⟩ | hb
      · exact ⟨Body.loop.inj hb, he⟩
      · exact absurd hb (by simp [Call.body])
    exact .refused full
  | mismatch once => exact absurd once (by simp [Call.body])
  | observed observe => exact absurd observe (by simp [Call.body])
  | gaveUp giveUp => exact absurd giveUp (by simp [Call.body])
  | @stopped l' e s tries =>
    refine .stopped (Nat.eq_zero_of_not_pos fun hs => ?_)
    exact loop_not_stopped hσ rfl hs s hlog

end Arena
end Bump

namespace AllocatorApi

open Toolkit
open Bump (Level Allocation Fits placement)

variable {w : ℕ} {β : Type} {b : Build} {S : Storage w}

/-! ## A wrapper of the shared arena -/

section Shared

variable {ι : Type*} [DecidableEq ι] {t u : ι}

omit [DecidableEq ι] in
/-- The call that returned in a step of the arena. -/
def finished (σ σ' : Bump.Arena ι w) : Option (Bump.Entry ι w) :=
  if σ'.log.length = σ.log.length then none else σ'.log.head?

/-- A shared arena with its threads and all bytes, and a wrapper. -/
structure Shared (ι : Type*) (w : ℕ) (β : Type) where
  arena : Bump.Arena ι w
  handle : Handle w
  bytes : Bytes β

/-- A thread takes a step, or the wrapper is asked to shrink a block. -/
inductive Event (ι : Type*) (w : ℕ) where
  | thread (u : ι)
  | shrink (ptr : ℕ) (oldLayout newLayout : Layout w)

namespace Shared

/-- What happens, with the wrapper in the hands of thread `t`. -/
def step (b : Build) (S : Storage w) (t : ι) (x : Shared ι w β) : Event ι w → Shared ι w β
  | .thread u =>
    let arena := x.arena.step S u
    match finished x.arena arena with
    | some ⟨u', .tryAlloc layout, r⟩ =>
      if u' = t then
        { x with
          arena := arena
          handle := x.handle.tell b layout x.arena.consumed (tryAllocAnswer r) }
      else { x with arena := arena }
    | _ => { x with arena := arena }
  | .shrink ptr oldLayout newLayout =>
    match x.handle.info.shrink .bump b x.bytes ptr oldLayout newLayout with
    | .ok (bytes, info, _) => { x with bytes := bytes, handle := { x.handle with info := info } }
    | .error _ => x

/-- Any threads with any programs, on an arena that was just wrapped. -/
def machine (b : Build) (S : Storage w) (t : ι) : Machine (Shared ι w β) (Event ι w) where
  init x := ∃ program consumed bytes, consumed ≤ S.len ∧
    x = ⟨Bump.Arena.start program consumed, ⟨.new, []⟩, bytes⟩
  step x e x' := x' = x.step b S t e

variable {x : Shared ι w β}

omit [DecidableEq ι] in
theorem finished_of_same {σ σ' : Bump.Arena ι w} (h : σ'.log = σ.log) :
    finished σ σ' = none := if_pos (by rw [h])

omit [DecidableEq ι] in
theorem finished_of_cons {σ σ' : Bump.Arena ι w} {e : Bump.Entry ι w}
    (h : σ'.log = e :: σ.log) : finished σ σ' = some e := by
  rw [finished, h, if_neg (by rw [List.length_cons]; omega), List.head?_cons]

/-- **What a step of a thread can do.**  The arena moves on, and unless it is thread `t`
that returns from `try_alloc` nothing else changes. -/
theorem thread_cases (h : x.arena.Tracked S) (u : ι) :
    (x.step b S t (.thread u)).arena = x.arena.step S u ∧
      ((x.step b S t (.thread u)).handle = x.handle ∨
        ∃ l r, u = t ∧ (x.arena.step S u).log = ⟨u, .tryAlloc l, r⟩ :: x.arena.log ∧
          (x.step b S t (.thread u)).handle =
            x.handle.tell b l x.arena.consumed (tryAllocAnswer r)) := by
  rcases (Bump.Arena.step_returns h u).2 with ⟨-, hsame⟩ | ⟨c, r, hlogs⟩
  · rw [step]
    simp only [finished_of_same hsame]
    exact ⟨trivial, Or.inl trivial⟩
  · rw [step]
    simp only [finished_of_cons hlogs.log]
    cases c with
    | tryAlloc l =>
      by_cases hu : u = t
      · simp only [if_pos hu]
        exact ⟨trivial, Or.inr ⟨l, r, hu, hlogs.log, rfl⟩⟩
      · simp only [if_neg hu]
        exact ⟨trivial, Or.inl trivial⟩
    | _ => exact ⟨rfl, Or.inl rfl⟩

/-- Shrinking a block leaves the cells and the arena alone. -/
theorem shrink_eq (ptr : ℕ) (oldLayout newLayout : Layout w) :
    (x.step b S t (.shrink ptr oldLayout newLayout)).handle = x.handle ∧
      (x.step b S t (.shrink ptr oldLayout newLayout)).arena = x.arena := by
  rw [step, WithAllocationInfo.shrink]
  cases Arena.bump.shrink b x.bytes ptr oldLayout newLayout with
  | error stop => exact ⟨rfl, rfl⟩
  | ok p => exact ⟨rfl, rfl⟩

/-- What holds at every moment. -/
structure Invariant (S : Storage w) (x : Shared ι w β) : Prop where
  arena : (Bump.Arena.machine S).Reachable x.arena
  tells : Tells S x.arena.consumed x.handle

theorem step_invariant (h : x.Invariant S) (e : Event ι w) : (x.step b S t e).Invariant S := by
  cases e with
  | thread u =>
    have hstep : (Bump.Arena.machine S).Reachable (x.arena.step S u) := h.arena.tail rfl
    have htracked := Bump.Arena.reachable_tracked h.arena
    have hle := Bump.Arena.step_consumed_le (Bump.Arena.reachable_invariant h.arena).placed u
    obtain ⟨harena, hhandle | ⟨l, r, -, hlog, hhandle⟩⟩ :=
      thread_cases (b := b) (t := t) htracked u
    · refine ⟨harena ▸ hstep, ?_⟩
      rw [harena, hhandle]
      exact h.tells.mono hle
    · refine ⟨harena ▸ hstep, ?_⟩
      rw [harena, hhandle]
      exact h.tells.tell (Bump.Arena.answered_tryAlloc h.arena hlog)
  | shrink ptr oldLayout newLayout =>
    obtain ⟨hhandle, harena⟩ :=
      shrink_eq (b := b) (S := S) (t := t) (x := x) ptr oldLayout newLayout
    refine ⟨harena ▸ h.arena, ?_⟩
    rw [hhandle, harena]
    exact h.tells

theorem reachable_invariant (h : (machine b S t).Reachable x) : x.Invariant S := by
  refine Machine.Reachable.invariant ?_ ?_ h
  · rintro x ⟨program, consumed, bytes, hc, rfl⟩
    exact ⟨Machine.Reachable.of_init ⟨program, consumed, hc, rfl⟩, .new S consumed⟩
  · rintro x e x' - hinv rfl
    exact step_invariant hinv e

/-- When thread `t` returns from `try_alloc` the call is told of: it was decided in that
step, and the thread was in it. -/
theorem decided (h : x.Invariant S) {l : Layout w} {r : Bump.Reply}
    (hlog : (x.arena.step S t).log = ⟨t, .tryAlloc l, r⟩ :: x.arena.log) :
    (x.arena.threads t).pc.call? = some (.tryAlloc l) ∧
      Decides l x.arena.consumed x.handle (x.step b S t (.thread t)).handle := by
  have htracked := Bump.Arena.reachable_tracked h.arena
  refine ⟨?_, ?_⟩
  · obtain hin | hin := (Bump.Arena.logs_of_log htracked hlog).inside
    · exact hin
    · exact absurd rfl (hin l)
  · rw [step]
    simp only [finished_of_cons hlog, if_pos]
    exact Handle.tell_decides

end Shared

end Shared

/-! ## A wrapper of the unsynchronized arena -/

/-- An unsynchronized arena with all bytes, and a wrapper. -/
structure Owned (w : ℕ) (β : Type) where
  index : ℕ
  handle : Handle w
  bytes : Bytes β

/-- A call of another user, who cannot reset the arena while it is wrapped, or one
through the wrapper. -/
inductive Use (w : ℕ) where
  | other (c : Unsync.Call w) (borrowed : c ≠ .reset)
  | allocate (layout : Layout w)
  | shrink (ptr : ℕ) (oldLayout newLayout : Layout w)

namespace Owned

/-- A call. -/
def step (b : Build) (S : Storage w) (x : Owned w β) : Use w → Owned w β
  | .other c _ =>
    match c.exec b S x.index with
    | .ok (index, _) => { x with index := index }
    | .error _ => x
  | .allocate layout =>
    match Unsync.tryAlloc b S x.index layout with
    | .ok (index, answer) =>
      { x with index := index, handle := x.handle.tell b layout x.index (.ok answer) }
    | .error stop => { x with handle := x.handle.tell b layout x.index (.error stop) }
  | .shrink ptr oldLayout newLayout =>
    match x.handle.info.shrink .unsyncBumpSlice b x.bytes ptr oldLayout newLayout with
    | .ok (bytes, info, _) => { x with bytes := bytes, handle := { x.handle with info := info } }
    | .error _ => x

/-- Any calls, on an arena that was just wrapped. -/
def machine (b : Build) (S : Storage w) : Machine (Owned w β) (Use w) where
  init x := x.index ≤ S.len ∧ x.handle = ⟨.new, []⟩
  step x c x' := x' = x.step b S c

variable {x : Owned w β}

theorem shrink_eq (ptr : ℕ) (oldLayout newLayout : Layout w) :
    (x.step b S (.shrink ptr oldLayout newLayout)).handle = x.handle ∧
      (x.step b S (.shrink ptr oldLayout newLayout)).index = x.index := by
  rw [step, WithAllocationInfo.shrink]
  cases Arena.unsyncBumpSlice.shrink b x.bytes ptr oldLayout newLayout with
  | error stop => exact ⟨rfl, rfl⟩
  | ok p => exact ⟨rfl, rfl⟩

/-- A call through the wrapper is answered as in the shared arena. -/
theorem allocate_cases (hi : x.index ≤ S.len) (l : Layout w) :
    (x.step b S (.allocate l)).index ≤ S.len ∧
      ∃ answer, Answers S l x.index answer (x.step b S (.allocate l)).index ∧
        (x.step b S (.allocate l)).handle = x.handle.tell b l x.index answer := by
  rcases Nat.eq_zero_or_pos l.size with hs | hs
  · rw [step, Unsync.tryAlloc_of_size_eq_zero hs]
    exact ⟨hi, _, .stopped hs, rfl⟩
  rw [step, Unsync.tryAlloc_eq hs hi]
  by_cases hfit : placement S l x.index + l.size ≤ S.len
  · rw [if_pos hfit]
    exact ⟨hfit, _, .granted hfit, rfl⟩
  · rw [if_neg hfit]
    exact ⟨hi, _, .refused fun h => hfit (Bump.fits_iff_placement.mp h), rfl⟩

/-- What holds at every moment. -/
structure Invariant (S : Storage w) (x : Owned w β) : Prop where
  index_le : x.index ≤ S.len
  tells : Tells S x.index x.handle

theorem step_invariant (h : x.Invariant S) (c : Use w) : (x.step b S c).Invariant S := by
  cases c with
  | other c borrowed =>
    rw [step]
    cases hexec : c.exec b S x.index with
    | error stop => exact h
    | ok p =>
      obtain ⟨hle, hlen, -⟩ := Unsync.Call.exec_ok borrowed hexec
      exact ⟨hlen h.index_le, h.tells.mono hle⟩
  | allocate l =>
    obtain ⟨hlen, answer, hanswer, hhandle⟩ := allocate_cases (b := b) h.index_le l
    exact ⟨hlen, hhandle ▸ h.tells.tell hanswer⟩
  | shrink ptr oldLayout newLayout =>
    obtain ⟨hhandle, hindex⟩ := shrink_eq (b := b) (S := S) (x := x) ptr oldLayout newLayout
    refine ⟨hindex ▸ h.index_le, ?_⟩
    rw [hhandle, hindex]
    exact h.tells

theorem reachable_invariant (h : (machine b S).Reachable x) : x.Invariant S := by
  refine Machine.Reachable.invariant ?_ ?_ h
  · rintro x ⟨hi, hhandle⟩
    exact ⟨hi, hhandle ▸ .new S x.index⟩
  · rintro x c x' - hinv rfl
    exact step_invariant hinv c

end Owned

/-- **What the wrapper tells is consistent.**  In every run of any threads, one of which
uses the wrapper, and of an unsynchronized arena: each finished `allocate` left the cells
as they should be.  After a success they are the offsets of the two ends of the block;
after a failure the start is what it was, and the level is one the arena stood at while
the thread was in the call, with no room for the request.  From call to call the levels
observed do not fall, and the last is at most that of the arena.  Shrinking a block
changes neither cell. -/
theorem info_consistent {ι : Type*} [DecidableEq ι] (b : Build) (S : Storage w) :
    (∀ (t : ι) (x : Shared ι w β), (Shared.machine b S t).Reachable x →
      Tells S x.arena.consumed x.handle ∧
      (∀ l r, (x.arena.step S t).log = ⟨t, .tryAlloc l, r⟩ :: x.arena.log →
        (x.arena.threads t).pc.call? = some (.tryAlloc l) ∧
          Decides l x.arena.consumed x.handle (x.step b S t (.thread t)).handle) ∧
      ∀ ptr oldLayout newLayout,
        (x.step b S t (.shrink ptr oldLayout newLayout)).handle = x.handle) ∧
    (∀ x : Owned w β, (Owned.machine b S).Reachable x →
      Tells S x.index x.handle ∧
      (∀ l, Decides l x.index x.handle (x.step b S (.allocate l)).handle) ∧
      ∀ ptr oldLayout newLayout,
        (x.step b S (.shrink ptr oldLayout newLayout)).handle = x.handle) := by
  refine ⟨fun t x hx => ?_, fun x hx => ?_⟩
  · have hinv := Shared.reachable_invariant hx
    exact ⟨hinv.tells, fun l r hlog => Shared.decided hinv hlog,
      fun ptr oldLayout newLayout => (Shared.shrink_eq ptr oldLayout newLayout).1⟩
  · have hinv := Owned.reachable_invariant hx
    refine ⟨hinv.tells, fun l => ?_,
      fun ptr oldLayout newLayout => (Owned.shrink_eq ptr oldLayout newLayout).1⟩
    obtain ⟨-, answer, -, hhandle⟩ := Owned.allocate_cases (b := b) hinv.index_le l
    rw [hhandle]
    exact Handle.tell_decides

/-- A word is allocated, and no second one. -/
theorem info_consistent_word :
    (∃ H : Handle 64, Tells Bump.oneWord 8 H ∧ H.info = ⟨0, 8⟩ ∧ H.told.length = 1) ∧
      ∃ H : Handle 64, Tells Bump.oneWord 8 H ∧ H.info = ⟨0, 8⟩ ∧ H.told.length = 2 := by
  have hinit : (Shared.machine .debug Bump.oneWord ()).Reachable
      (⟨Bump.Arena.start (fun _ => [.tryAlloc Ty.word.toLayout]) 0, ⟨.new, []⟩, fun _ => 0⟩ :
        Shared Unit 64 ℕ) :=
    Machine.Reachable.of_init ⟨_, 0, _, Nat.zero_le _, rfl⟩
  have hend := ((hinit.tail (l := .thread ()) rfl).tail (l := .thread ()) rfl).tail
    (l := .thread ()) rfl
  have hinit' : (Owned.machine .debug Bump.oneWord).Reachable
      (⟨0, ⟨.new, []⟩, fun _ => 0⟩ : Owned 64 ℕ) :=
    Machine.Reachable.of_init ⟨Nat.zero_le _, rfl⟩
  have hend' := (hinit'.tail (l := .allocate Ty.word.toLayout) rfl).tail
    (l := .allocate Ty.word.toLayout) rfl
  exact ⟨⟨_, ((info_consistent .debug Bump.oneWord).1 () _ hend).1, rfl, rfl⟩,
    _, ((info_consistent (ι := Unit) .debug Bump.oneWord).2 _ hend').1, rfl, rfl⟩

end AllocatorApi
end StaticAlloc
