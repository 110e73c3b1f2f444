import StaticAlloc.Rc.Counting

/-!
# A value that points back at its own box

A value may own `Weak` handles to the box it lives in, and its destructor may use
them.  `Rc::drop` of the last handle has then already moved both counters: while
the destructor runs, `strong` is zero and the share of `weak` that stood for all
`Rc`s is given up.  To `Weak::try_unwrap` this looks like a box whose value is
gone, so if it is called on the only handle left, it hands out the memory the
destructor is still working in.

`handed_back_iff` says that this is the only way.  In a run of any operations,
the memory is handed back only when nothing is left in it, if and only if no
`Weak::try_unwrap` is made on the only handle while the destructor runs.
-/

namespace StaticAlloc
namespace Rc

open Toolkit

variable {w : ℕ} {B : Types w} {V H : Type} [DecidableEq H]

/-- `Weak::try_unwrap` returns the memory. -/
def HandsBack (b : Build) (σ : World B H V) (op : Op H V) : Prop :=
  ∃ σ' mem, σ.exec b op = .ok (σ', .memory mem)

/-- If the memory is handed back, it is by the last handle, and no value is
stored in it or still being dropped. -/
def SafeReturn (b : Build) (σ : World B H V) (op : Op H V) : Prop :=
  HandsBack b σ op →
    (∃ h, op = .weakTryUnwrap h ∧ σ.weaks = {h}) ∧ σ.rcs = ∅ ∧ σ.raw = none ∧ σ.box.val = .gone

/-- `Weak::try_unwrap` is not called on the only handle while the destructor of
the value runs. -/
def Outlived (σ : World B H V) (op : Op H V) : Prop :=
  ∀ h, op = .weakTryUnwrap h → σ.weaks = {h} → ¬ ∃ v, σ.box.val = .dropping v

/-- The memory is handed back exactly by a `Weak::try_unwrap` on the last handle. -/
theorem handsBack_iff {b : Build} {σ : World B H V} (hσ : σ.Invariant) {op : Op H V}
    (hen : σ.Enabled op) :
    HandsBack b σ op ↔ ∃ h, op = .weakTryUnwrap h ∧ σ.rcs = ∅ ∧ σ.weaks = {h} := by
  obtain ⟨σ', r, hexec, heff⟩ := World.exec_effect b hσ hen
  constructor
  · rintro ⟨σ₁, mem, hexec₁⟩
    obtain ⟨-, rfl⟩ := ok_pair_inj (hexec.symm.trans hexec₁)
    obtain ⟨hr, h, rfl⟩ := heff.memory_iff.mp ⟨mem, rfl⟩
    exact ⟨h, rfl, not_not.mp fun hg => hr (heff.refused_iff.mpr hg)⟩
  · rintro ⟨h, rfl, hgrants⟩
    have hr : r ≠ .refused := fun hr => heff.refused_iff.mp hr hgrants
    obtain ⟨mem, rfl⟩ := heff.memory_iff.mpr ⟨hr, h, rfl⟩
    exact ⟨σ', mem, hexec⟩

/-- **One step.**  What is handed back is free exactly when the destructor of the
value does not call for it through the only handle. -/
theorem safeReturn_iff {b : Build} {σ : World B H V} (hσ : σ.Invariant) {op : Op H V}
    (hen : σ.Enabled op) : SafeReturn b σ op ↔ Outlived σ op := by
  rw [SafeReturn, handsBack_iff hσ hen]
  constructor
  · rintro hsafe h rfl hweaks ⟨v, hv⟩
    have hmem : h ∈ σ.weaks := hen
    have hval := hσ.val
    rw [hv] at hval
    have hrcs : σ.rcs = ∅ :=
      Finset.card_eq_zero.mp ((hσ.strong_of_weak hmem).symm.trans hval.1)
    obtain ⟨-, -, -, hgone⟩ := hsafe ⟨h, rfl, hrcs, hweaks⟩
    rw [hv] at hgone
    exact absurd hgone (by simp)
  · rintro hout ⟨h, rfl, hrcs, hweaks⟩
    have hmem : h ∈ σ.weaks := hen
    have hzero : σ.box.strong = 0 := by rw [hσ.strong_of_weak hmem, hrcs, Finset.card_empty]
    refine ⟨⟨h, rfl, hweaks⟩, hrcs, (hσ.settled (Or.inr ⟨h, hmem⟩)).2.1, ?_⟩
    have hval := hσ.val
    cases hv : σ.box.val with
    | stored v =>
      rw [hv] at hval
      exact absurd hval.1 (by omega)
    | dropping v => exact absurd ⟨v, hv⟩ (hout h rfl hweaks)
    | gone => rfl

/-- **When the memory of a box is free at the moment it is handed back.**  For
every value type, every destructor and every run of operations on one box: each
time `Weak::try_unwrap` hands back the memory, no `Rc` and no other `Weak` is
live and no value is stored or still being dropped there, if and only if the
destructor never makes that call on the only handle left. -/
theorem handed_back_iff (B : Types w) (b : Build) {σ₀ σ : World B H V}
    {hist : List (World B H V × Op H V × World B H V)} (h₀ : (machine B H V b).init σ₀)
    (hrun : (machine B H V b).Run σ₀ hist σ) :
    (∀ x ∈ hist, SafeReturn b x.1 x.2.1) ↔ ∀ x ∈ hist, Outlived x.1 x.2.1 := by
  refine Machine.Run.forall_iff (P := fun σ op _ => SafeReturn b σ op)
    (Q := fun σ op _ => Outlived σ op) ?_ (Machine.Reachable.of_init h₀) hrun
  rintro τ op τ' hτ ⟨hen, -⟩
  exact safeReturn_iff (reachable_invariant hτ) hen

/-! ## The smallest box whose destructor can ask for its own memory -/

/-- One `Weak` was made, and the last `Rc` is being dropped: the destructor runs. -/
def twoWords.dying : World twoWords ℕ ℕ :=
  { twoWords.fresh with box := ⟨.dropping 7, 0, 1⟩, rcs := ∅, weaks := {0} }

theorem twoWords.run_dying :
    ∃ hist, (machine twoWords ℕ ℕ .debug).Run twoWords.fresh hist twoWords.dying ∧
      ∀ x ∈ hist, ∀ h, x.2.1 ≠ .weakTryUnwrap h := by
  have h₁ : (machine twoWords ℕ ℕ .debug).step twoWords.fresh (.downgrade 0 0)
      { twoWords.fresh with box := ⟨.stored 7, 1, 2⟩, weaks := {0} } :=
    ⟨⟨by decide, by decide, by decide⟩, _, rfl⟩
  have h₂ : (machine twoWords ℕ ℕ .debug).step
      { twoWords.fresh with box := ⟨.stored 7, 1, 2⟩, weaks := {0} } (.drop 0) twoWords.dying :=
    ⟨Finset.mem_singleton_self 0, _, rfl⟩
  refine ⟨_, Machine.Run.head h₁ (Machine.Run.head h₂ (Machine.Run.refl _)), ?_⟩
  intro x hx h
  rcases List.mem_cons.mp hx with rfl | hx
  · simp
  · rw [List.mem_singleton.mp hx]
    simp

/-- When the destructor returns first, the memory that is handed back is free. -/
theorem handed_back_outlived :
    ∃ hist σ, (machine twoWords ℕ ℕ .debug).Run twoWords.fresh hist σ ∧ σ.returned ≠ none ∧
      ∀ x ∈ hist, SafeReturn .debug x.1 x.2.1 := by
  obtain ⟨hist, hrun, hnot⟩ := twoWords.run_dying
  have h₁ : (machine twoWords ℕ ℕ .debug).step twoWords.dying .dropEnd
      { twoWords.dying with box := ⟨.gone, 0, 1⟩, fates := [.dropped 7] } :=
    ⟨⟨7, rfl⟩, _, rfl⟩
  have h₂ : (machine twoWords ℕ ℕ .debug).step
      { twoWords.dying with box := ⟨.gone, 0, 1⟩, fates := [.dropped 7] } (.weakTryUnwrap 0)
      { twoWords.dying with
        box := ⟨.gone, 0, 0⟩
        fates := [.dropped 7]
        weaks := ∅
        returned := some (UninitView.fromMemory 4096 32 (by decide) (by decide)) } :=
    ⟨Finset.mem_singleton_self 0, _, rfl⟩
  have hall := (hrun.tail h₁).tail h₂
  refine ⟨_, _, hall, by simp, (handed_back_iff twoWords .debug ⟨_, _, _, twoWords.new_eq⟩
    hall).mpr ?_⟩
  intro x hx h hop
  rcases List.mem_append.mp hx with hx | hx
  · rcases List.mem_append.mp hx with hx | hx
    · exact absurd hop (hnot x hx h)
    · rw [List.mem_singleton.mp hx] at hop
      exact absurd hop (by simp)
  · rw [List.mem_singleton.mp hx]
    rintro - ⟨v, hv⟩
    exact absurd hv (by simp)

/-- **The memory is handed back too early.**  The destructor of the value makes
the call on the one `Weak` left, and gets the memory it is running in. -/
theorem handed_back_while_dropping :
    ∃ hist, (machine twoWords ℕ ℕ .debug).Run twoWords.fresh hist twoWords.dying ∧
      (machine twoWords ℕ ℕ .debug).init twoWords.fresh ∧
      twoWords.dying.Enabled (.weakTryUnwrap 0) ∧
      HandsBack .debug twoWords.dying (.weakTryUnwrap 0) ∧
      twoWords.dying.box.val = .dropping 7 ∧
      ¬ SafeReturn .debug twoWords.dying (.weakTryUnwrap 0) := by
  obtain ⟨hist, hrun, -⟩ := twoWords.run_dying
  have hback : HandsBack .debug twoWords.dying (.weakTryUnwrap 0) := ⟨_, _, rfl⟩
  refine ⟨hist, hrun, ⟨_, _, _, twoWords.new_eq⟩, Finset.mem_singleton_self 0, hback, rfl, ?_⟩
  intro hsafe
  obtain ⟨-, -, -, hgone⟩ := hsafe hback
  exact absurd hgone (by simp [twoWords.dying])

end Rc
end StaticAlloc
