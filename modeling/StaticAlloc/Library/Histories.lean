import StaticAlloc.Library.Runs
import Mathlib.Data.List.Perm.Basic
import Mathlib.Logic.Function.Basic
import Mathlib.Order.Nat

/-!
# Concurrent histories and linearizability

A history is what the users of a shared object see: calls and returns, in the order
in which they happen.  A sequential object answers one operation after the other.  The
history is linearizable to it if the operations that returned can be put in an order
in which the sequential object gives the very replies that were given, and in which
no operation comes before one that had returned before it was called.

Where the operations have their effect is not part of the definition.  The rule that
is proved here is for the simplest case: if every operation has its effect in the step
in which it returns, then the order of the returns will do
(`linearizable_of_returns`), and it is enough to look at one step at a time
(`Machine.Run.linearizes`).

That the threads take turns with themselves, so that no thread calls while it is
waiting and none returns what it did not call, is `Alternates`.
-/

namespace Toolkit

variable {ι ο ρ σ τ ℓ : Type*}

/-- What happens at the border of a shared object. -/
inductive Interaction (ι ο ρ : Type*) where
  | call (t : ι) (op : ο)
  | ret (t : ι) (op : ο) (res : ρ)

namespace Interaction

/-- The operations that returned, with their replies, in the order of the returns. -/
def returns : List (Interaction ι ο ρ) → List (ο × ρ)
  | [] => []
  | .call _ _ :: h => returns h
  | .ret _ op res :: h => (op, res) :: returns h

theorem returns_append (h h' : List (Interaction ι ο ρ)) :
    returns (h ++ h') = returns h ++ returns h' := by
  induction h with
  | nil => rfl
  | cons e h ih =>
    cases e with
    | call t op => exact ih
    | ret t op res => exact congrArg ((op, res) :: ·) ih

variable [DecidableEq ι]

/-- The operations that one thread called. -/
def callsOf (t : ι) : List (Interaction ι ο ρ) → List ο
  | [] => []
  | .call u op :: h => if u = t then op :: callsOf t h else callsOf t h
  | .ret _ _ _ :: h => callsOf t h

theorem callsOf_append (t : ι) (h h' : List (Interaction ι ο ρ)) :
    callsOf t (h ++ h') = callsOf t h ++ callsOf t h' := by
  induction h with
  | nil => rfl
  | cons e h ih =>
    cases e with
    | call u op =>
      rw [List.cons_append, callsOf, callsOf, ih]
      split <;> rfl
    | ret u op res => exact ih

/-- Every thread calls only when it is not waiting, and returns from what it called.
The functions say what the threads wait for, before and after. -/
def Alternates (pending : ι → Option ο) : List (Interaction ι ο ρ) → (ι → Option ο) → Prop
  | [], pending' => pending' = pending
  | .call t op :: h, pending' =>
    pending t = none ∧ Alternates (Function.update pending t (some op)) h pending'
  | .ret t op _ :: h, pending' =>
    pending t = some op ∧ Alternates (Function.update pending t none) h pending'

theorem Alternates.append {p q r : ι → Option ο} {h h' : List (Interaction ι ο ρ)}
    (hpq : Alternates p h q) (hqr : Alternates q h' r) : Alternates p (h ++ h') r := by
  induction h generalizing p with
  | nil =>
    obtain rfl : q = p := hpq
    exact hqr
  | cons e h ih =>
    cases e with
    | call t op => exact ⟨hpq.1, ih hpq.2⟩
    | ret t op res => exact ⟨hpq.1, ih hpq.2⟩

/-- What returned was waited for at the beginning, or called. -/
theorem Alternates.called {p q : ι → Option ο} {h : List (Interaction ι ο ρ)}
    (halt : Alternates p h q) {x : ο × ρ} (hx : x ∈ returns h) :
    (∃ t, p t = some x.1) ∨ ∃ t, x.1 ∈ callsOf t h := by
  induction h generalizing p with
  | nil => exact absurd hx List.not_mem_nil
  | cons e h ih =>
    cases e with
    | call t op =>
      have hmem : ∀ u, x.1 ∈ callsOf u h → x.1 ∈ callsOf u (.call t op :: h) := by
        intro u hu
        rw [callsOf]
        split
        · exact List.mem_cons_of_mem _ hu
        · exact hu
      rcases ih halt.2 hx with ⟨u, hu⟩ | ⟨u, hu⟩
      · rw [Function.update_apply] at hu
        split at hu
        · refine Or.inr ⟨t, ?_⟩
          rw [callsOf, if_pos rfl, ← Option.some.inj hu]
          exact List.mem_cons_self
        · exact Or.inl ⟨u, hu⟩
      · exact Or.inr ⟨u, hmem u hu⟩
    | ret t op res =>
      rcases List.mem_cons.mp hx with rfl | hx
      · exact Or.inl ⟨t, halt.1⟩
      · rcases ih halt.2 hx with ⟨u, hu⟩ | hcalls
        · rw [Function.update_apply] at hu
          split at hu
          · exact absurd hu (by simp)
          · exact Or.inl ⟨u, hu⟩
        · exact Or.inr hcalls

end Interaction

/-- An operation that returned, and when it was called and when it returned. -/
structure Completed (ι ο ρ : Type*) where
  thread : ι
  op : ο
  res : ρ
  called : ℕ
  returned : ℕ

namespace Completed

/-- Real time: `a` had returned before `b` was called. -/
def Precedes (a b : Completed ι ο ρ) : Prop := a.returned < b.called

/-- What the sequential object is to reproduce. -/
def step (a : Completed ι ο ρ) : ο × ρ := (a.op, a.res)

variable [DecidableEq ι]

/-- The operations of a history that returned, from time `n` on; a thread that waits
called at `since`. -/
def ofHistoryFrom (n : ℕ) (since : ι → ℕ) : List (Interaction ι ο ρ) → List (Completed ι ο ρ)
  | [] => []
  | .call t _ :: h => ofHistoryFrom (n + 1) (Function.update since t n) h
  | .ret t op res :: h => ⟨t, op, res, since t, n⟩ :: ofHistoryFrom (n + 1) since h

/-- The operations of a history that returned. -/
def ofHistory (h : List (Interaction ι ο ρ)) : List (Completed ι ο ρ) :=
  ofHistoryFrom 0 (fun _ => 0) h

theorem ofHistoryFrom_steps (n : ℕ) (since : ι → ℕ) (h : List (Interaction ι ο ρ)) :
    (ofHistoryFrom n since h).map step = Interaction.returns h := by
  induction h generalizing n since with
  | nil => rfl
  | cons e h ih =>
    cases e with
    | call t op => exact ih _ _
    | ret t op res => exact congrArg ((op, res) :: ·) (ih _ _)

/-- An operation returns after it was called, and not before the history begins. -/
theorem ofHistoryFrom_times {n : ℕ} {since : ι → ℕ} (hsince : ∀ t, since t ≤ n)
    {h : List (Interaction ι ο ρ)} {a : Completed ι ο ρ} (ha : a ∈ ofHistoryFrom n since h) :
    n ≤ a.returned ∧ a.called ≤ a.returned := by
  induction h generalizing n since with
  | nil => exact absurd ha List.not_mem_nil
  | cons e h ih =>
    cases e with
    | call t op =>
      have hsince' : ∀ u, Function.update since t n u ≤ n + 1 := by
        intro u
        rw [Function.update_apply]
        split
        · exact Nat.le_succ n
        · exact (hsince u).trans (Nat.le_succ n)
      have := ih hsince' ha
      omega
    | ret t op res =>
      rcases List.mem_cons.mp ha with rfl | ha
      · exact ⟨le_rfl, hsince t⟩
      · have := ih (fun u => (hsince u).trans (Nat.le_succ n)) ha
        omega

/-- In the order of the returns no operation comes before one that precedes it. -/
theorem ofHistoryFrom_ordered {n : ℕ} {since : ι → ℕ} (hsince : ∀ t, since t ≤ n)
    (h : List (Interaction ι ο ρ)) :
    (ofHistoryFrom n since h).Pairwise fun a b => ¬ b.Precedes a := by
  induction h generalizing n since with
  | nil => exact List.Pairwise.nil
  | cons e h ih =>
    have hsucc : ∀ u, since u ≤ n + 1 := fun u => (hsince u).trans (Nat.le_succ n)
    cases e with
    | call t op =>
      refine ih fun u => ?_
      rw [Function.update_apply]
      split
      · exact Nat.le_succ n
      · exact hsucc u
    | ret t op res =>
      refine List.Pairwise.cons (fun b hb hprec => ?_) (ih hsucc)
      have hafter := (ofHistoryFrom_times hsucc hb).1
      have hbefore : b.returned < since t := hprec
      have := hsince t
      omega

end Completed

/-- A sequential object: what an operation makes of its state, and the reply. -/
structure Sequential (τ ο ρ : Type*) where
  apply : τ → ο → τ × ρ

namespace Sequential

variable (O : Sequential τ ο ρ)

/-- Asked one operation after the other, the object gives these replies. -/
def Serves : τ → List (ο × ρ) → τ → Prop
  | s, [], s' => s' = s
  | s, (op, res) :: rest, s' => (O.apply s op).2 = res ∧ Serves (O.apply s op).1 rest s'

variable {O}

theorem Serves.append {s t u : τ} {xs ys : List (ο × ρ)} (hst : O.Serves s xs t)
    (htu : O.Serves t ys u) : O.Serves s (xs ++ ys) u := by
  induction xs generalizing s with
  | nil =>
    obtain rfl : t = s := hst
    exact htu
  | cons x xs ih => exact ⟨hst.1, ih hst.2⟩

/-- One operation. -/
theorem Serves.single {s : τ} {op : ο} {res : ρ} {s' : τ} (h : O.apply s op = (s', res)) :
    O.Serves s [(op, res)] s' := by
  refine ⟨?_, ?_⟩
  · rw [h]
  · rw [h]
    rfl

/-- **Two objects that agree** on the operations asked give the same replies. -/
theorem Serves.congr {O' : Sequential τ ο ρ} {I : τ → Prop} {P : ο → Prop}
    (hagree : ∀ s op, I s → P op → O'.apply s op = O.apply s op)
    (hkeeps : ∀ s op, I s → P op → I (O.apply s op).1) {s s' : τ} {xs : List (ο × ρ)} (hs : I s)
    (hP : ∀ x ∈ xs, P x.1) (h : O.Serves s xs s') : O'.Serves s xs s' := by
  induction xs generalizing s with
  | nil => exact h
  | cons x xs ih =>
    have hx := hP x List.mem_cons_self
    have heq := hagree s x.1 hs hx
    refine ⟨?_, ?_⟩
    · rw [heq]
      exact h.1
    · rw [heq]
      exact ih (hkeeps s x.1 hs hx) (fun y hy => hP y (List.mem_cons_of_mem _ hy)) h.2

end Sequential

section Linearizable

variable [DecidableEq ι] {O : Sequential τ ο ρ}

/-- The operations that returned have an order that the sequential object explains and
that agrees with real time. -/
def Linearizable (O : Sequential τ ο ρ) (s : τ) (h : List (Interaction ι ο ρ)) (s' : τ) : Prop :=
  ∃ order : List (Completed ι ο ρ), order.Perm (Completed.ofHistory h) ∧
    (order.Pairwise fun a b => ¬ b.Precedes a) ∧ O.Serves s (order.map Completed.step) s'

/-- **The order of the returns will do**, if the object explains the replies in it. -/
theorem linearizable_of_returns {s s' : τ} {h : List (Interaction ι ο ρ)}
    (hserves : O.Serves s (Interaction.returns h) s') : Linearizable O s h s' := by
  refine ⟨Completed.ofHistory h, List.Perm.refl _, ?_, ?_⟩
  · exact Completed.ofHistoryFrom_ordered (fun _ => le_rfl) h
  · rw [Completed.ofHistory, Completed.ofHistoryFrom_steps]
    exact hserves

/-- **Another object that agrees** on the operations asked explains the history too. -/
theorem Linearizable.congr {O' : Sequential τ ο ρ} {I : τ → Prop} {P : ο → Prop}
    (hagree : ∀ s op, I s → P op → O'.apply s op = O.apply s op)
    (hkeeps : ∀ s op, I s → P op → I (O.apply s op).1) {s s' : τ} {h : List (Interaction ι ο ρ)}
    (hs : I s) (hP : ∀ x ∈ Interaction.returns h, P x.1) (hlin : Linearizable O s h s') :
    Linearizable O' s h s' := by
  obtain ⟨order, hperm, hordered, hserves⟩ := hlin
  refine ⟨order, hperm, hordered, hserves.congr hagree hkeeps hs fun x hx => hP x ?_⟩
  have hmap := (hperm.map Completed.step).mem_iff.mp hx
  rwa [Completed.ofHistory, Completed.ofHistoryFrom_steps] at hmap

end Linearizable

namespace Machine

variable {M : Machine σ ℓ}

/-- The history of a run, given what is seen of one step. -/
def history (emit : σ × ℓ × σ → List (Interaction ι ο ρ)) (run : List (σ × ℓ × σ)) :
    List (Interaction ι ο ρ) := run.flatMap emit

/-- **From one step to a run.**  If the sequential object, in the state a step leaves,
explains what returns in the step, it explains all that returns in a run. -/
theorem Run.serves {O : Sequential τ ο ρ} {emit : σ × ℓ × σ → List (Interaction ι ο ρ)}
    {abs : σ → τ}
    (hstep : ∀ s l t, M.Reachable s → M.step s l t →
      O.Serves (abs s) (Interaction.returns (emit (s, l, t))) (abs t))
    {s t : σ} {run : List (σ × ℓ × σ)} (hs : M.Reachable s) (h : M.Run s run t) :
    O.Serves (abs s) (Interaction.returns (history emit run)) (abs t) := by
  induction h with
  | refl => exact rfl
  | tail hrun hx ih =>
    rw [history, List.flatMap_append, Interaction.returns_append, List.flatMap_singleton]
    exact ih.append (hstep _ _ _ (hrun.reachable hs) hx)

theorem Run.linearizes [DecidableEq ι] {O : Sequential τ ο ρ}
    {emit : σ × ℓ × σ → List (Interaction ι ο ρ)} {abs : σ → τ}
    (hstep : ∀ s l t, M.Reachable s → M.step s l t →
      O.Serves (abs s) (Interaction.returns (emit (s, l, t))) (abs t))
    {s t : σ} {run : List (σ × ℓ × σ)} (hs : M.Reachable s) (h : M.Run s run t) :
    Linearizable O (abs s) (history emit run) (abs t) :=
  linearizable_of_returns (h.serves hstep hs)

/-- **Threads that take turns with themselves in every step do so in a run.** -/
theorem Run.alternates [DecidableEq ι] {emit : σ × ℓ × σ → List (Interaction ι ο ρ)}
    {waits : σ → ι → Option ο}
    (hstep : ∀ s l t, M.Reachable s → M.step s l t →
      Interaction.Alternates (waits s) (emit (s, l, t)) (waits t))
    {s t : σ} {run : List (σ × ℓ × σ)} (hs : M.Reachable s) (h : M.Run s run t) :
    Interaction.Alternates (waits s) (history emit run) (waits t) := by
  induction h with
  | refl => exact rfl
  | tail hrun hx ih =>
    rw [history, List.flatMap_append, List.flatMap_singleton]
    exact ih.append (hstep _ _ _ (hrun.reachable hs) hx)

end Machine

end Toolkit
