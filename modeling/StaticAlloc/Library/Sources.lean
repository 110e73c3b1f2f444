import Mathlib.Data.List.Basic
import Mathlib.Tactic.Linarith

/-!
# Sources of items

An iterator, as far as those who pull from it are concerned, is the sequence of
answers it gives to being polled.  Nothing says that it stays silent after it has
once said `none`, and nothing bounds how many items it has.

`pull n s` polls `s` until it has `n` items or an answer `none`, whichever comes
first.  `pull_spec` says what was pulled and what is left: the items are the first
answers, there are `n` of them unless the answer after the last was `none`, and
the rest of the source is what follows the answers that were used up.
-/

namespace Toolkit

variable {α : Type*}

/-- A source: its answers, in the order in which it is polled. -/
structure Source (α : Type*) where
  poll : ℕ → Option α

namespace Source

/-- The source after `k` polls. -/
def advance (s : Source α) (k : ℕ) : Source α := ⟨fun i => s.poll (k + i)⟩

/-- Poll once. -/
def next (s : Source α) : Option α × Source α := (s.poll 0, s.advance 1)

/-- Poll until there are `n` items, or the answer is `none`. -/
def pull : ℕ → Source α → List α × Source α
  | 0, s => ([], s)
  | n + 1, s =>
    match s.next with
    | (none, s') => ([], s')
    | (some a, s') => (a :: (pull n s').1, (pull n s').2)

variable {s : Source α} {n : ℕ}

theorem advance_zero (s : Source α) : s.advance 0 = s := by
  cases s
  simp only [advance, Nat.zero_add]

theorem advance_advance (s : Source α) (j k : ℕ) :
    (s.advance j).advance k = s.advance (j + k) := by
  simp only [advance, Nat.add_assoc]

/-- How many polls it took. -/
def polls (n : ℕ) (s : Source α) : ℕ :=
  if (pull n s).1.length < n then (pull n s).1.length + 1 else n

theorem pull_length_le (n : ℕ) (s : Source α) : (pull n s).1.length ≤ n := by
  induction n generalizing s with
  | zero => exact le_rfl
  | succ n ih =>
    rw [pull]
    cases h : s.next with
    | mk o s' =>
      cases o with
      | none => exact Nat.zero_le _
      | some a => exact Nat.succ_le_succ (ih s')

/-- **What is pulled, and what is left.** -/
theorem pull_spec (n : ℕ) (s : Source α) :
    (∀ k, k < (pull n s).1.length → s.poll k = (pull n s).1[k]?) ∧
      ((pull n s).1.length < n → s.poll (pull n s).1.length = none) ∧
      (pull n s).2 = s.advance (polls n s) := by
  induction n generalizing s with
  | zero =>
    refine ⟨fun k hk => absurd hk (Nat.not_lt_zero k), fun h => absurd h (Nat.not_lt_zero _), ?_⟩
    exact (advance_zero s).symm
  | succ n ih =>
    cases h : s.poll 0 with
    | none =>
      have hpull : pull (n + 1) s = ([], s.advance 1) := by simp only [pull, next, h]
      refine ⟨?_, ?_, ?_⟩
      · rw [hpull]
        exact fun k hk => absurd hk (Nat.not_lt_zero k)
      · rw [hpull]
        exact fun _ => h
      · rw [polls, hpull]
        rfl
    | some a =>
      have hpull : pull (n + 1) s = (a :: (pull n (s.advance 1)).1, (pull n (s.advance 1)).2) := by
        simp only [pull, next, h]
      obtain ⟨h₁, h₂, h₃⟩ := ih (s.advance 1)
      refine ⟨?_, ?_, ?_⟩
      · rw [hpull]
        intro k hk
        cases k with
        | zero => exact h
        | succ k =>
          have := h₁ k (Nat.lt_of_succ_lt_succ hk)
          rw [List.getElem?_cons_succ, ← this]
          exact congrArg s.poll (Nat.add_comm k 1)
      · rw [hpull]
        intro hlt
        have := h₂ (Nat.lt_of_succ_lt_succ hlt)
        rw [← this]
        exact congrArg s.poll (Nat.add_comm _ 1)
      · have hpolls : polls (n + 1) s = 1 + polls n (s.advance 1) := by
          rw [polls, polls, hpull, List.length_cons]
          split <;> split <;> omega
        rw [hpolls, ← advance_advance, ← h₃, hpull]

end Source

end Toolkit
