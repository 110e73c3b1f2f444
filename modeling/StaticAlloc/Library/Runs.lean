import Mathlib.Logic.Relation

/-!
# Runs of a labelled machine

A machine here is nothing but a set of starting states and a set of labelled
steps.  What a verification says about it is almost always one of three things:
something holds in every state a run can reach, something holds of every step a
run takes, or a run of one machine is matched step by step by a run of another.
Each of the three is an induction over the run, and each is done here once.

A run is kept with its *history*: the list of the steps taken, every step with
the state it left and the state it led to.  "Every step of the run met the
condition" is then a statement about a list, and needs no second machine.

* `Machine.Run` and `Machine.Reachable`, with `Run.trans`, `Run.reachable` and
  `Run.of_labels_snoc`.
* `Reachable.invariant`: an invariant carried to every reachable state.
* `Run.invariant`: an invariant carried along the runs whose steps all meet a
  condition.
* `Run.history_reachable`: every step of a history leaves a reachable state.
* `Run.forall_iff`: two conditions on steps that agree at every reachable state
  agree on every run.
* `Simulation`: forward simulations, and what they carry over.
-/

namespace Toolkit

variable {σ τ ℓ : Type*}

/-- A labelled machine: the states it may start in and the steps it may take. -/
structure Machine (σ ℓ : Type*) where
  /-- The starting states. -/
  init : σ → Prop
  /-- `step s l t`: doing `l` in state `s` may lead to state `t`. -/
  step : σ → ℓ → σ → Prop

namespace Machine

variable (M : Machine σ ℓ)

/-- Runs, with their history, oldest step first. -/
inductive Run : σ → List (σ × ℓ × σ) → σ → Prop where
  | refl (s : σ) : Run s [] s
  | tail {s t u : σ} {h : List (σ × ℓ × σ)} {l : ℓ} :
      Run s h t → M.step t l u → Run s (h ++ [(t, l, u)]) u

/-- The states some run leads to. -/
def Reachable (s : σ) : Prop := ∃ s₀ h, M.init s₀ ∧ M.Run s₀ h s

variable {M}

theorem Run.head {s t u : σ} {l : ℓ} {h : List (σ × ℓ × σ)} (hst : M.step s l t)
    (htu : M.Run t h u) : M.Run s ((s, l, t) :: h) u := by
  induction htu with
  | refl => exact (Run.refl s).tail hst
  | tail _ hx ih => exact ih.tail hx

theorem Run.trans {s t u : σ} {h h' : List (σ × ℓ × σ)} (hst : M.Run s h t)
    (htu : M.Run t h' u) : M.Run s (h ++ h') u := by
  induction htu with
  | refl => rw [List.append_nil]; exact hst
  | tail _ hx ih =>
    rw [← List.append_assoc]
    exact ih.tail hx

theorem Reachable.of_init {s : σ} (h : M.init s) : M.Reachable s :=
  ⟨s, [], h, Run.refl s⟩

theorem Reachable.tail {s t : σ} {l : ℓ} (hs : M.Reachable s) (hst : M.step s l t) :
    M.Reachable t := by
  obtain ⟨s₀, h, h₀, hrun⟩ := hs
  exact ⟨s₀, _, h₀, hrun.tail hst⟩

theorem Run.reachable {s t : σ} {h : List (σ × ℓ × σ)} (hst : M.Run s h t)
    (hs : M.Reachable s) : M.Reachable t := by
  obtain ⟨s₀, h₀, hi, hrun⟩ := hs
  exact ⟨s₀, _, hi, hrun.trans hst⟩

/-- The last step of a run whose last label is known. -/
theorem Run.of_labels_snoc {s t : σ} {h : List (σ × ℓ × σ)} {ls : List ℓ} {l : ℓ}
    (hst : M.Run s h t) (hlabels : h.map (fun x => x.2.1) = ls ++ [l]) :
    ∃ u h', M.Run s h' u ∧ h'.map (fun x => x.2.1) = ls ∧ M.step u l t := by
  cases hst with
  | refl => exact absurd hlabels (by simp)
  | @tail u _ h' l' hrun hx =>
    rw [List.map_append, List.map_singleton] at hlabels
    obtain ⟨hls, hl⟩ := List.append_inj' hlabels rfl
    obtain rfl : l' = l := List.singleton_inj.mp hl
    exact ⟨u, h', hrun, hls, hx⟩

/-- **The invariant rule.**  What holds at the start and is kept by every step
out of a reachable state holds in every reachable state. -/
theorem Reachable.invariant {I : σ → Prop} (h₀ : ∀ s, M.init s → I s)
    (hstep : ∀ s l t, M.Reachable s → I s → M.step s l t → I t) {s : σ}
    (hs : M.Reachable s) : I s := by
  obtain ⟨s₀, h, hi, hrun⟩ := hs
  induction hrun with
  | refl => exact h₀ _ hi
  | @tail t u h l hrun hx ih => exact hstep t l u ⟨s₀, h, hi, hrun⟩ ih hx

/-- **The invariant rule under a condition.**  What is kept by every step that
meets a condition holds at the end of every run whose steps all meet it. -/
theorem Run.invariant {I : σ → Prop} {P : σ → ℓ → Prop}
    (hstep : ∀ s l t, I s → P s l → M.step s l t → I t) {s t : σ} {h : List (σ × ℓ × σ)}
    (hs : I s) (hrun : M.Run s h t) (hP : ∀ x ∈ h, P x.1 x.2.1) : I t := by
  induction hrun with
  | refl => exact hs
  | @tail t u h l hrun hx ih =>
    have hI := ih fun x hx => hP x (List.mem_append_left _ hx)
    exact hstep t l u hI (hP _ (List.mem_append_right _ (List.mem_singleton_self _))) hx

/-- A relation between the two ends of every run: reflexive, and kept when a
step out of a reachable state is added. -/
theorem Run.induct_ends {R : σ → σ → Prop} (hrefl : ∀ s, R s s)
    (hstep : ∀ s t l u, M.Reachable t → R s t → M.step t l u → R s u) {s t : σ}
    {h : List (σ × ℓ × σ)} (hs : M.Reachable s) (hrun : M.Run s h t) : R s t := by
  induction hrun with
  | refl => exact hrefl _
  | @tail t u h l hrun hx ih => exact hstep s t l u (hrun.reachable hs) ih hx

/-- Every step of a history is a step of the machine out of a reachable state. -/
theorem Run.history_reachable {s t : σ} {h : List (σ × ℓ × σ)} (hs : M.Reachable s)
    (hrun : M.Run s h t) : ∀ x ∈ h, M.Reachable x.1 ∧ M.step x.1 x.2.1 x.2.2 := by
  induction hrun with
  | refl => intro x hx; exact absurd hx List.not_mem_nil
  | tail hrun hx ih =>
    intro x hmem
    rcases List.mem_append.mp hmem with hmem | hmem
    · exact ih x hmem
    · rw [List.mem_singleton.mp hmem]
      exact ⟨hrun.reachable hs, hx⟩

/-- **Step conditions carried to runs.**  Two conditions that agree on every
step out of a reachable state hold throughout the same runs. -/
theorem Run.forall_iff {P Q : σ → ℓ → σ → Prop}
    (hPQ : ∀ s l t, M.Reachable s → M.step s l t → (P s l t ↔ Q s l t)) {s t : σ}
    {h : List (σ × ℓ × σ)} (hs : M.Reachable s) (hrun : M.Run s h t) :
    (∀ x ∈ h, P x.1 x.2.1 x.2.2) ↔ ∀ x ∈ h, Q x.1 x.2.1 x.2.2 := by
  have hreach := hrun.history_reachable hs
  constructor
  · intro hP x hx
    exact (hPQ _ _ _ (hreach x hx).1 (hreach x hx).2).mp (hP x hx)
  · intro hQ x hx
    exact (hPQ _ _ _ (hreach x hx).1 (hreach x hx).2).mpr (hQ x hx)

end Machine

/-! ## Simulation -/

/-- A forward simulation: every start is matched, and every step is matched by
a step with the same label. -/
structure Simulation (M : Machine σ ℓ) (N : Machine τ ℓ) (R : σ → τ → Prop) : Prop where
  init : ∀ s, M.init s → ∃ t, N.init t ∧ R s t
  step : ∀ s l s' t, M.Reachable s → R s t → M.step s l s' → ∃ t', N.step t l t' ∧ R s' t'

/-- **Runs are matched.**  A simulated machine does nothing the simulating one
cannot do: the matching run has the same labels in the same order. -/
theorem Simulation.run {M : Machine σ ℓ} {N : Machine τ ℓ} {R : σ → τ → Prop}
    (sim : Simulation M N R) {s s' : σ} {h : List (σ × ℓ × σ)} {t : τ} (hs : M.Reachable s)
    (hR : R s t) (hrun : M.Run s h s') :
    ∃ t' h', N.Run t h' t' ∧ h'.map (fun x => x.2.1) = h.map (fun x => x.2.1) ∧ R s' t' := by
  induction hrun with
  | refl => exact ⟨t, [], Machine.Run.refl t, rfl, hR⟩
  | @tail u v h l hrun hx ih =>
    obtain ⟨u', h', hrun', hlab, hR'⟩ := ih
    obtain ⟨v', hstep, hRv⟩ := sim.step u l v u' (hrun.reachable hs) hR' hx
    exact ⟨v', _, hrun'.tail hstep, by rw [List.map_append, List.map_append, hlab]; rfl, hRv⟩

end Toolkit
