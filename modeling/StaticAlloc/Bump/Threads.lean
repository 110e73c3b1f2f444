import StaticAlloc.Bump.Sync
import StaticAlloc.Library.Runs
import Mathlib.Logic.Function.Basic

/-!
# Threads on one shared arena

Any number of threads call the entry points of one arena.  What they share is
the counter, and they touch it in two ways only: the load that reads the level,
and the `compare_exchange` of `Header::bump`.  Both are single atomic steps, so
a state of the system is the value of the counter together with, for each
thread, where between two such steps it stands (`Pc`), and an interleaving is
the list of the threads in the order in which they take their steps.

The entry points differ in how they reach the counter and in what they make of
the answer.  `Call.body` is the first half: the retry loop of `try_alloc`, the
single attempt of `try_alloc_at`, the bare load behind a zero-sized value, or
none at all.  `Call.succeed`, `Call.exhausted` and `Call.observed` are the second.

A thread whose call panics makes no further calls.
-/

namespace StaticAlloc
namespace Bump

open Toolkit

variable {w : ℕ} {ι : Type*}

/-- The entry points of `BumpView`, with the type a generic one is called at. -/
inductive Call (w : ℕ) where
  | tryAlloc (layout : Layout w)
  | alloc (layout : Layout w)
  | getLayout (layout : Layout w)
  | get (V : Ty w)
  | getSlice (V : Ty w) (len : ℕ)
  | allocAt (layout : Layout w) (level : Level)
  | getLayoutAt (layout : Layout w) (level : Level)
  | getAt (V : Ty w) (level : Level)

/-- What an entry point returns. -/
inductive Reply where
  /-- `Ok(allocation)` or `Some(allocation)`. -/
  | granted (a : Allocation)
  /-- `alloc` returns the pointer alone. -/
  | pointer (ptr : ℕ)
  /-- `get_slice` returns a pointer with a length. -/
  | slice (ptr len : ℕ) (level : Level)
  /-- `try_alloc` returns `Err(level)`. -/
  | refused (level : Level)
  /-- `None`. -/
  | nothing
  /-- `Err(failure)`. -/
  | failed (f : Failure)
  /-- The call did not return. -/
  | stopped (s : Stop)
  deriving DecidableEq, Repr

/-- How a call reaches the counter. -/
inductive Body (w : ℕ) where
  /-- the loop of `try_alloc` -/
  | loop (layout : Layout w)
  /-- one `try_alloc_at` -/
  | once (layout : Layout w) (level : Level)
  /-- `zst_fake_alloc`, or the level of an empty slice -/
  | observe
  /-- the slice has no layout -/
  | giveUp

namespace Call

/-- The first half of an entry point. -/
def body : Call w → Body w
  | tryAlloc layout => .loop layout
  | alloc layout => .loop layout
  | getLayout layout => .loop layout
  | get V => if V.size = 0 then .observe else .loop V.toLayout
  | getSlice V len =>
    if len = 0 then .observe else
      match Layout.array V len with
      | none => .giveUp
      | some layout => if layout.size = 0 then .observe else .loop layout
  | allocAt layout level => .once layout level
  | getLayoutAt layout level => .once layout level
  | getAt V level => if V.size = 0 then .observe else .once V.toLayout level

/-- Whether a mismatch is answered by another attempt, as `try_alloc` does. -/
def retries : Call w → Bool
  | allocAt _ _ | getLayoutAt _ _ | getAt _ _ => false
  | _ => true

/-- What is returned when the attempt succeeded. -/
def succeed (c : Call w) (a : Allocation) : Reply :=
  match c with
  | alloc _ => .pointer a.ptr
  | getSlice _ len => .slice a.ptr len a.level
  | _ => .granted a

/-- What is returned when the attempt at `level` found no room. -/
def exhausted (c : Call w) (level : Level) : Reply :=
  match c with
  | tryAlloc _ => .refused level
  | allocAt _ _ | getLayoutAt _ _ | getAt _ _ => .failed .exhausted
  | _ => .nothing

/-- What a request that needs no memory returns at the level it observed.  The
pointer is that of an empty array of the element type. -/
def observed (c : Call w) (level : Level) : Reply :=
  match c with
  | get V => .granted ⟨V.align, level⟩
  | getSlice V len => .slice V.align len level
  | getAt V expected =>
    if level ≠ expected then .failed (.mismatch level) else .granted ⟨V.align, level⟩
  | _ => .nothing

/-- The number of bytes asked for. -/
def size : Call w → ℕ
  | tryAlloc layout | alloc layout | getLayout layout => layout.size
  | get V => V.size
  | getSlice V len => V.size * len
  | allocAt layout _ | getLayoutAt layout _ => layout.size
  | getAt V _ => V.size

/-- The alignment asked for. -/
def align : Call w → ℕ
  | tryAlloc layout | alloc layout | getLayout layout => layout.align
  | get V => V.align
  | getSlice V _ => V.align
  | allocAt layout _ | getLayoutAt layout _ => layout.align
  | getAt V _ => V.align

end Call

/-- Where a thread stands: the atomic step it takes next. -/
inductive Pc (w : ℕ) where
  /-- between two calls -/
  | idle
  /-- about to load the level, in `try_alloc` -/
  | loading (c : Call w) (layout : Layout w)
  /-- about to load the level, for a request that needs no memory -/
  | observing (c : Call w)
  /-- about to move the counter -/
  | exchanging (c : Call w) (layout : Layout w) (a : Attempt)

/-- A thread: where it stands and the calls it has yet to make. -/
structure Thread (w : ℕ) where
  pc : Pc w
  todo : List (Call w)

/-- A finished call. -/
structure Entry (ι : Type*) (w : ℕ) where
  thread : ι
  call : Call w
  reply : Reply

/-- The arena with its threads, and the calls finished so far, latest first. -/
structure Arena (ι : Type*) (w : ℕ) where
  consumed : ℕ
  threads : ι → Thread w
  log : List (Entry ι w)

/-- What a thread does between two atomic steps: go on, or return. -/
inductive Next (w : ℕ) where
  | goto (pc : Pc w)
  | done (r : Reply)

/-- One pass through `try_alloc_at`, up to the exchange. -/
def attempt (S : Storage w) (c : Call w) (layout : Layout w) (expectConsumed : ℕ) : Next w :=
  match prepare S layout expectConsumed with
  | .error s => .done (.stopped s)
  | .ok none => .done (c.exhausted expectConsumed)
  | .ok (some a) => .goto (.exchanging c layout a)

/-- The start of a call. -/
def enter (S : Storage w) (c : Call w) : Next w :=
  match c.body with
  | .loop layout => .goto (.loading c layout)
  | .once layout level => attempt S c layout level
  | .observe => .goto (.observing c)
  | .giveUp => .done .nothing

/-- After a successful exchange. -/
def finish (S : Storage w) (c : Call w) (a : Attempt) : Next w :=
  match granted S a with
  | .ok alloc => .done (c.succeed alloc)
  | .error s => .done (.stopped s)

/-- After an exchange that found the counter at `observed`. -/
def mismatched (S : Storage w) (c : Call w) (layout : Layout w) (observed : ℕ) : Next w :=
  if c.retries then attempt S c layout observed else .done (.failed (.mismatch observed))

namespace Arena

variable [DecidableEq ι]

/-- Thread `t` goes on as told: a call that returns is logged, and a thread that
stopped makes no further calls. -/
def settle (σ : Arena ι w) (t : ι) (c : Call w) (todo : List (Call w)) : Next w → Arena ι w
  | .goto pc => { σ with threads := Function.update σ.threads t ⟨pc, todo⟩ }
  | .done (.stopped s) =>
    { σ with
      threads := Function.update σ.threads t ⟨.idle, []⟩
      log := ⟨t, c, .stopped s⟩ :: σ.log }
  | .done r =>
    { σ with
      threads := Function.update σ.threads t ⟨.idle, todo⟩
      log := ⟨t, c, r⟩ :: σ.log }

/-- The atomic exchange of thread `t`, and what the thread makes of its outcome. -/
def exchange (S : Storage w) (σ : Arena ι w) (t : ι) (c : Call w) (todo : List (Call w))
    (layout : Layout w) (a : Attempt) : Arena ι w :=
  match compareExchange σ.consumed a.expectConsumed a.newConsumed with
  | (n, .ok ()) => { σ with consumed := n }.settle t c todo (finish S c a)
  | (n, .error seen) => { σ with consumed := n }.settle t c todo (mismatched S c layout seen)

/-- The next step of thread `t`. -/
def step (S : Storage w) (σ : Arena ι w) (t : ι) : Arena ι w :=
  let th := σ.threads t
  match th.pc with
  | .idle =>
    match th.todo with
    | [] => σ
    | c :: todo => σ.settle t c todo (enter S c)
  | .loading c layout => σ.settle t c th.todo (attempt S c layout σ.consumed)
  | .observing c => σ.settle t c th.todo (.done (c.observed σ.consumed))
  | .exchanging c layout a => exchange S σ t c th.todo layout a

/-- An interleaving: the threads in the order of their steps. -/
def run (S : Storage w) (σ : Arena ι w) (schedule : List ι) : Arena ι w := schedule.foldl (step S) σ

omit [DecidableEq ι] in
/-- All threads before their first call, on an arena whose level is `consumed`. -/
def start (program : ι → List (Call w)) (consumed : ℕ) : Arena ι w :=
  ⟨consumed, fun t => ⟨.idle, program t⟩, []⟩

/-- The system as a machine; a step is labelled by the thread that takes it. -/
def machine (S : Storage w) : Machine (Arena ι w) ι where
  init σ := ∃ program consumed, consumed ≤ S.len ∧ σ = start program consumed
  step σ t σ' := σ' = σ.step S t

/-- An interleaving is a run of the machine. -/
theorem run_spec (S : Storage w) (schedule : List ι) (σ : Arena ι w) :
    ∃ h, (machine S).Run σ h (σ.run S schedule) := by
  induction schedule generalizing σ with
  | nil => exact ⟨[], Machine.Run.refl σ⟩
  | cons t schedule ih =>
    obtain ⟨h, hrun⟩ := ih (σ.step S t)
    exact ⟨_, Machine.Run.head rfl hrun⟩

end Arena

/-! ## The blocks handed out -/

/-- A block somebody was given: its bytes and the alignment it was asked for. -/
structure Block where
  span : Span
  align : ℕ
  deriving DecidableEq, Repr

/-- The pointer in a successful reply. -/
def Reply.ptr? : Reply → Option ℕ
  | granted a => some a.ptr
  | pointer p => some p
  | slice p _ _ => some p
  | _ => none

/-- The block a finished call obtained, when it asked for any bytes and succeeded. -/
def Entry.block? (e : Entry ι w) : Option Block :=
  if e.call.size = 0 then none else
    e.reply.ptr?.map fun p => ⟨⟨p, e.call.size⟩, e.call.align⟩

/-- All blocks handed out so far. -/
def Arena.blocks (σ : Arena ι w) : List Block := σ.log.filterMap Entry.block?

end Bump
end StaticAlloc
