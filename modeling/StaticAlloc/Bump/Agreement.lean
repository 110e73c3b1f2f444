import StaticAlloc.Bump.Placement

/-!
# The two arenas agree

The shared and the unsynchronized arena are written separately.  One subtracts
with saturation and compares numbers, the other subtracts with a check and
compares options; one moves an atomic counter in a loop, the other a cell, once,
and calls the remaining case unreachable.

`Concur` is agreement of two results: both are the same value, or both are
panics, whose messages may differ.  `tryAllocAt_concur` is that for one attempt,
on every argument there is, and `exec_concur` for one operation, since all of them
are made of attempts.  `arenas_agree` runs the two side by side over a list of
operations: at every step they have the same outcome and the same level.

A panic leaves the counter where it was in both, since every assertion comes
before the counter is touched.
-/

namespace StaticAlloc
namespace Bump

open Toolkit

variable {w : ℕ} {β : Type} {S : Storage w} {l : Layout w} {c e : ℕ}

/-! ## Agreement of two results -/

/-- The same value, or a panic in both. -/
inductive Concur {α : Type} : Except Stop α → Except Stop α → Prop where
  | same (a : α) : Concur (.ok a) (.ok a)
  | panics (m m' : String) : Concur (.error (.panic m)) (.error (.panic m'))

/-- **One attempt.** -/
theorem tryAllocAt_concur (b : Build) (S : Storage w) (c : ℕ) (l : Layout w) (e : ℕ) :
    Concur (tryAllocAt S c l e) (Unsync.tryAllocAt b S c l e) := by
  rcases Nat.eq_zero_or_pos l.size with hs | hs
  · rw [tryAllocAt, prepare_of_size_eq_zero hs, Unsync.tryAllocAt_of_size_eq_zero hs]
    exact .panics _ _
  rcases Nat.lt_or_ge S.len e with he | he
  · rw [tryAllocAt, prepare_of_lt hs he, Unsync.tryAllocAt_of_lt hs he]
    exact .panics _ _
  rw [tryAllocAt_eq_of_le hs he, Unsync.tryAllocAt_eq hs he]
  exact .same _

/-- The loop, left in its first turn, and the straight line. -/
theorem tryAlloc_concur (b : Build) (S : Storage w) (c : ℕ) (l : Layout w) :
    Concur (tryAlloc S c l) (Unsync.tryAlloc b S c l) := by
  have h := tryAllocAt_concur b S c l c
  rw [tryAlloc, tryAllocLoop, Unsync.tryAlloc]
  generalize Unsync.tryAllocAt b S c l c = y at h
  split
  · rename_i stop hx
    rw [hx] at h
    cases h
    exact .panics _ _
  · rename_i c' a hx
    rw [hx] at h
    cases h
    exact .same _
  · rename_i c' hx
    rw [hx] at h
    cases h
    exact .same _
  · rename_i c' observed hx
    exact absurd rfl (tryAllocAt_mismatch hx).2.2

/-- **The branch that is called unreachable is.** -/
theorem unsync_never_mismatched (b : Build) (S : Storage w) (index : ℕ) (l : Layout w) (i : ℕ)
    (observed : Level) :
    Unsync.tryAllocAt b S index l index ≠ .ok (i, .error (.mismatch observed)) := by
  intro hy
  have h := tryAllocAt_concur b S index l index
  rw [hy] at h
  generalize hx : tryAllocAt S index l index = x at h
  cases h
  exact (tryAllocAt_mismatch hx).2.2 rfl

/-! ## Operations -/

/-- What both arenas offer. -/
inductive Operation (w : ℕ) where
  | alloc (layout : Layout w)
  | allocAt (layout : Layout w) (level : Level)
  | level
  | reset

/-- What the caller sees of an operation. -/
inductive Outcome where
  | alloc (ptr : Option ℕ)
  /-- The address and the new level, or the failure. -/
  | allocAt (r : Except Failure (ℕ × Level))
  | level (l : Level)
  | reset
  | panicked
  | undefined

/-- How a call that did not return shows. -/
def Outcome.ofStop : Stop → Outcome
  | .panic _ => .panicked
  | .undefined _ => .undefined

/-- `BumpView::alloc_at`. -/
def BumpView.allocAt (S : Storage w) (σ : Memory β) (layout : Layout w) (level : Level) :
    Except Stop (Memory β × Except Failure Allocation) := do
  match ← tryAllocAt S σ.consumed layout level with
  | (consumed, .ok alloc) => return ({ σ with consumed := consumed }, .ok alloc)
  | (consumed, .error failure) => return ({ σ with consumed := consumed }, .error failure)

/-- `BumpView::level`. -/
def BumpView.level (σ : Memory β) : Level := σ.consumed

/-- `Bump::reset`. -/
def reset (σ : Memory β) : Memory β := { σ with consumed := 0 }

namespace BumpView

/-- One operation of the shared arena. -/
def exec (S : Storage w) (σ : Memory β) : Operation w → Except Stop (Memory β × Outcome)
  | .alloc layout => do
    let (σ, ptr) ← alloc S σ layout
    return (σ, .alloc ptr)
  | .allocAt layout level => do
    let (σ, r) ← allocAt S σ layout level
    return (σ, .allocAt (r.map fun a => (a.ptr, a.level)))
  | .level => .ok (σ, .level (level σ))
  | .reset => .ok (reset σ, .reset)

/-- Operations one after the other: the arena at the end, and what was seen of each
with the level after it.  A caught panic leaves the arena as it was. -/
def execAll (S : Storage w) (σ : Memory β) : List (Operation w) → Memory β × List (Outcome × Level)
  | [] => (σ, [])
  | op :: ops =>
    let (σ, seen) := match exec S σ op with
      | .ok (σ, seen) => (σ, seen)
      | .error stop => (σ, .ofStop stop)
    let (τ, rest) := execAll S σ ops
    (τ, (seen, level σ) :: rest)

end BumpView

end Bump

namespace Unsync

open StaticAlloc.Bump (Level Operation Outcome)

variable {w : ℕ}

/-- `BumpSlice::level`. -/
def level (index : ℕ) : Level := index

/-- `BumpSlice::reset`. -/
def reset (_ : ℕ) : ℕ := 0

/-- One operation of the unsynchronized arena.  Its `alloc_at` returns the pointer
alone; the new level is read off it afterwards. -/
def exec (b : Build) (S : Storage w) (index : ℕ) : Operation w → Except Stop (ℕ × Outcome)
  | .alloc layout => do
    let (index, ptr) ← alloc b S index layout
    return (index, .alloc ptr)
  | .allocAt layout at' => do
    let (index, r) ← allocAt b S index layout at'
    return (index, .allocAt (r.map fun ptr => (ptr, level index)))
  | .level => .ok (index, .level (level index))
  | .reset => .ok (reset index, .reset)

/-- Operations one after the other, as for the shared arena. -/
def execAll (b : Build) (S : Storage w) (index : ℕ) :
    List (Operation w) → ℕ × List (Outcome × Level)
  | [] => (index, [])
  | op :: ops =>
    let (index, seen) := match exec b S index op with
      | .ok (index, seen) => (index, seen)
      | .error stop => (index, .ofStop stop)
    let (final, rest) := execAll b S index ops
    (final, (seen, level index) :: rest)

end Unsync

namespace Bump

variable {w : ℕ} {β : Type} {S : Storage w} {l : Layout w} {σ : Memory β}

/-- A success at some level leaves the arena at the level returned. -/
theorem tryAllocAt_level {c c' e : ℕ} {a : Allocation}
    (h : tryAllocAt S c l e = .ok (c', .ok a)) : c' = a.level := by
  obtain ⟨r, hprepare, -⟩ := of_bind_ok h
  obtain ⟨hs, he, -⟩ := prepare_ok hprepare
  rw [tryAllocAt_eq_of_le hs he] at h
  split at h
  · split at h
    · obtain ⟨rfl, ha⟩ := ok_pair_inj h
      rw [← Except.ok.inj ha]
    · exact absurd h (by simp)
  · exact absurd h (by simp)

/-- **One operation.**  The results concur, with the arenas at the same level, and
the bytes of the shared one as they were. -/
theorem exec_concur (b : Build) (S : Storage w) (σ : Memory β) (op : Operation w) :
    Concur (BumpView.exec S σ op) (do
      let (index, seen) ← Unsync.exec b S σ.consumed op
      return ({ σ with consumed := index }, seen)) := by
  cases op with
  | alloc layout =>
    have h := tryAlloc_concur b S σ.consumed layout
    simp only [BumpView.exec, BumpView.alloc, Unsync.exec, Unsync.alloc]
    generalize tryAlloc S σ.consumed layout = x at h
    generalize Unsync.tryAlloc b S σ.consumed layout = y at h
    cases h with
    | panics m m' => exact .panics m m'
    | same r =>
      obtain ⟨index, r⟩ := r
      cases r with
      | ok a => exact .same _
      | error e => exact .same _
  | allocAt layout e =>
    have h := tryAllocAt_concur b S σ.consumed layout e
    have hlevel : ∀ c' a, tryAllocAt S σ.consumed layout e = .ok (c', .ok a) → c' = a.level :=
      fun _ _ => tryAllocAt_level
    simp only [BumpView.exec, BumpView.allocAt, Unsync.exec, Unsync.allocAt]
    generalize tryAllocAt S σ.consumed layout e = x at h hlevel
    generalize Unsync.tryAllocAt b S σ.consumed layout e = y at h
    cases h with
    | panics m m' => exact .panics m m'
    | same r =>
      obtain ⟨index, r⟩ := r
      cases r with
      | ok a =>
        obtain rfl := hlevel index a rfl
        exact .same _
      | error f => exact .same _
  | level => exact .same _
  | reset => exact .same _

/-- **The two arenas agree.**  Over equal memory and from the same level, every
list of operations, one after the other, gives at each step the same outcome and
the same level, and leaves both at the same level; and the branch of the
unsynchronized arena that is called unreachable is never taken. -/
theorem arenas_agree (b : Build) (S : Storage w) (σ : Memory β) (ops : List (Operation w)) :
    BumpView.execAll S σ ops =
      (⟨(Unsync.execAll b S σ.consumed ops).1, σ.bytes⟩,
        (Unsync.execAll b S σ.consumed ops).2) ∧
    ∀ (index : ℕ) (l : Layout w) (i : ℕ) (observed : Level),
      Unsync.tryAllocAt b S index l index ≠ .ok (i, .error (.mismatch observed)) := by
  refine ⟨?_, unsync_never_mismatched b S⟩
  induction ops generalizing σ with
  | nil => rfl
  | cons op ops ih =>
    have h := exec_concur b S σ op
    rw [BumpView.execAll, Unsync.execAll]
    generalize BumpView.exec S σ op = x at h
    generalize Unsync.exec b S σ.consumed op = y at h
    cases y with
    | error stop =>
      cases h with
      | panics m m' => simp only [ih σ]; rfl
    | ok r =>
      obtain ⟨index, seen⟩ := r
      cases h with
      | same a => simp only [ih ⟨index, σ.bytes⟩]; rfl

end Bump
end StaticAlloc
