import StaticAlloc.Rc.Counting

/-!
# Handles that are forgotten

`mem::forget` takes a handle out of the program and leaves its share in the
counter.  It needs no memory and it is safe, so nothing bounds how often it
happens: the counters of a box count all handles that were ever made and not
dropped, and there may be more of those than a word can count.

A state of a box is now a `World`, whose handles are all that were made and not
consumed, together with the names of those that have been forgotten; the rest
are *live*.  An operation is called on a live handle.  `Safe` is what the owner
of a live `Rc` or `Weak` relies on: its value is there, and nobody else holds the
memory.

The counters still count the handles as long as no increment wraps, and then
every state is safe, however many handles were forgotten (`run_safe`).  In a
debug build an increment that would wrap panics, so nothing more is needed
(`debug_run_safe`).  In a release build it does not panic, and forgetting
`2 ^ w - 1` clones is enough to drop a value under a live `Rc`
(`Leaky.run_dropping`).
-/

namespace StaticAlloc
namespace Rc

open Toolkit

variable {w : ℕ} {B : Types w} {V H : Type}

/-! ## States and steps -/

/-- A box some of whose handles have been forgotten.  The handles of `world` are
the ones that were made and not consumed, so a forgotten handle is still among
them. -/
structure Leaky (B : Types w) (H V : Type) where
  world : World B H V
  /-- the forgotten `Rc` handles -/
  forgotten : Finset H
  /-- the forgotten `Weak` handles -/
  forgottenWeak : Finset H

/-- What may happen to a box: an operation on it, or `mem::forget` of a handle. -/
inductive Event (H V : Type) where
  | call (op : Op H V)
  | forget (h : H)
  | forgetWeak (h : H)

namespace Leaky

variable [DecidableEq H]

/-- The `Rc` handles that the program still has. -/
def live (σ : Leaky B H V) : Finset H := σ.world.rcs \ σ.forgotten

/-- The `Weak` handles that the program still has. -/
def liveWeak (σ : Leaky B H V) : Finset H := σ.world.weaks \ σ.forgottenWeak

/-- An operation is not called on a forgotten handle, and no new handle takes the
name of one. -/
def Spared (σ : Leaky B H V) : Op H V → Prop
  | .clone h _ | .drop h | .downgrade h _ | .tryUnwrap h _ | .intoRaw h | .getMut h _ =>
    h ∉ σ.forgotten
  | .weakClone h _ | .weakDrop h | .upgrade h _ | .weakTryUnwrap h => h ∉ σ.forgottenWeak
  | .fromRaw _ new => new ∉ σ.forgotten
  | .dropEnd => True

/-- The increment that an event makes does not wrap. -/
def NoWrap (σ : Leaky B H V) : Event H V → Prop
  | .call op => σ.world.NoWrap op
  | .forget _ | .forgetWeak _ => True

/-- While an `Rc` is live its value has not been dropped or moved out, and while
the memory is in the caller's hands no handle is live. -/
structure Safe (σ : Leaky B H V) : Prop where
  stored : σ.live.Nonempty → ∃ v, σ.world.box.val = .stored v
  raw : σ.world.raw ≠ none → σ.live = ∅ ∧ σ.liveWeak = ∅
  returned : σ.world.returned ≠ none → σ.live = ∅ ∧ σ.liveWeak = ∅

end Leaky

variable [DecidableEq H]

/-- The life of one box whose handles may be forgotten, from `Rc::new` on. -/
def leakyMachine (B : Types w) (H V : Type) [DecidableEq H] (b : Build) :
    Machine (Leaky B H V) (Event H V) where
  init σ := ∃ val memory h, new B val memory h = .ok σ.world ∧ σ.forgotten = ∅ ∧
    σ.forgottenWeak = ∅
  step σ e σ' :=
    match e with
    | .call op => σ.world.Callable op ∧ σ.Spared op ∧
        ∃ world r, σ.world.exec b op = .ok (world, r) ∧ σ' = { σ with world := world }
    | .forget h => h ∈ σ.live ∧ σ' = { σ with forgotten := insert h σ.forgotten }
    | .forgetWeak h => h ∈ σ.liveWeak ∧ σ' = { σ with forgottenWeak := insert h σ.forgottenWeak }

theorem Leaky.step_call {b : Build} {σ : Leaky B H V} {op : Op H V} {world : World B H V}
    {r : Reply B V} (hcall : σ.world.Callable op) (hspared : σ.Spared op)
    (hexec : σ.world.exec b op = .ok (world, r)) :
    (leakyMachine B H V b).step σ (.call op) { σ with world := world } :=
  ⟨hcall, hspared, world, r, hexec, rfl⟩

/-! ## While no increment wraps -/

/-- **The step lemma.**  An event whose increment does not wrap leaves the
counters counting the handles, the forgotten ones included. -/
theorem leaky_step_invariant {b : Build} {σ σ' : Leaky B H V} {e : Event H V}
    (hσ : σ.world.Invariant) (hno : σ.NoWrap e) (hstep : (leakyMachine B H V b).step σ e σ') :
    σ'.world.Invariant := by
  cases e with
  | call op =>
    obtain ⟨hcall, -, world, r, hexec, rfl⟩ := hstep
    exact (World.effect_of_callable b hσ hcall hno hexec).invariant
  | forget h =>
    obtain ⟨-, rfl⟩ := hstep
    exact hσ
  | forgetWeak h =>
    obtain ⟨-, rfl⟩ := hstep
    exact hσ

/-- Counters that count the handles keep every live handle safe. -/
theorem Leaky.safe_of_invariant {σ : Leaky B H V} (hσ : σ.world.Invariant) : σ.Safe := by
  have hnone : ∀ {c : Prop}, (σ.world.rcs.Nonempty ∨ σ.world.weaks.Nonempty → ¬ c) → c →
      σ.live = ∅ ∧ σ.liveWeak = ∅ := by
    intro c hnot hc
    refine ⟨Finset.not_nonempty_iff_eq_empty.mp fun hlive => ?_,
      Finset.not_nonempty_iff_eq_empty.mp fun hlive => ?_⟩
    · exact hnot (Or.inl (hlive.mono Finset.sdiff_subset)) hc
    · exact hnot (Or.inr (hlive.mono Finset.sdiff_subset)) hc
  constructor
  · rintro ⟨h, hh⟩
    obtain ⟨v, hv, -⟩ := hσ.stored_of_rc (Finset.mem_sdiff.mp hh).1
    exact ⟨v, hv⟩
  · exact hnone fun hhandle hraw => hraw (hσ.settled hhandle).2.1
  · exact hnone fun hhandle hret => hret (hσ.settled hhandle).2.2

theorem leaky_run_invariant {b : Build} {σ₀ σ : Leaky B H V}
    {hist : List (Leaky B H V × Event H V × Leaky B H V)}
    (h₀ : (leakyMachine B H V b).init σ₀) (hrun : (leakyMachine B H V b).Run σ₀ hist σ)
    (hno : ∀ x ∈ hist, x.1.NoWrap x.2.1) : σ.world.Invariant := by
  obtain ⟨val, memory, h, hnew, -, -⟩ := h₀
  exact hrun.invariant (I := fun σ => σ.world.Invariant) (P := Leaky.NoWrap)
    (fun _ _ _ hσ hno hstep => leaky_step_invariant hσ hno hstep) (new_invariant hnew).1 hno

/-- **When forgotten handles do no harm.**  In every run of operations on one
box, of any length and with any handles forgotten on the way: if no step
increments a counter that is at `usize::MAX`, then while some `Rc` is live the
value has not been dropped or moved out, and the memory is in the caller's hands,
through `Rc::into_raw` or `Weak::try_unwrap`, only while no handle is live. -/
theorem run_safe (B : Types w) (b : Build) {σ₀ σ : Leaky B H V}
    {hist : List (Leaky B H V × Event H V × Leaky B H V)}
    (h₀ : (leakyMachine B H V b).init σ₀) (hrun : (leakyMachine B H V b).Run σ₀ hist σ)
    (hno : ∀ x ∈ hist, x.1.NoWrap x.2.1) : σ.Safe :=
  Leaky.safe_of_invariant (leaky_run_invariant h₀ hrun hno)

/-- A clone of two words' `Rc` that is forgotten. -/
theorem run_safe_one_forgotten :
    ∃ hist σ, (leakyMachine twoWords ℕ ℕ .release).Run ⟨twoWords.fresh, ∅, ∅⟩ hist σ ∧
      hist.map (fun x => x.2.1) = [.call (.clone 0 1), .forget 1] ∧ σ.Safe := by
  have h₀ : (leakyMachine twoWords ℕ ℕ .release).init ⟨twoWords.fresh, ∅, ∅⟩ :=
    ⟨_, _, _, twoWords.new_eq, rfl, rfl⟩
  have h₁ : (leakyMachine twoWords ℕ ℕ .release).step ⟨twoWords.fresh, ∅, ∅⟩
      (.call (.clone 0 1))
      ⟨{ twoWords.fresh with box := ⟨.stored 7, 2, 1⟩, rcs := {1, 0} }, ∅, ∅⟩ :=
    ⟨⟨by decide, by decide⟩, Finset.notMem_empty 0, _, _, rfl, rfl⟩
  have h₂ : (leakyMachine twoWords ℕ ℕ .release).step
      ⟨{ twoWords.fresh with box := ⟨.stored 7, 2, 1⟩, rcs := {1, 0} }, ∅, ∅⟩ (.forget 1)
      ⟨{ twoWords.fresh with box := ⟨.stored 7, 2, 1⟩, rcs := {1, 0} }, {1}, ∅⟩ :=
    ⟨by decide, rfl⟩
  have hrun := ((Machine.Run.refl _).tail h₁).tail h₂
  refine ⟨_, _, hrun, rfl, run_safe twoWords .release h₀ hrun ?_⟩
  intro x hx
  rcases List.mem_cons.mp hx with rfl | hx
  · show 1 + 1 < 2 ^ 64
    decide
  · rw [List.mem_singleton.mp hx]
    trivial

/-! ## In a debug build -/

/-- An increment that returns in a debug build has not wrapped. -/
theorem World.noWrap_of_debug {σ σ' : World B H V} {op : Op H V} {r : Reply B V}
    (h : σ.exec .debug op = .ok (σ', r)) : σ.NoWrap op := by
  have hstrong : ∀ {box : RcBox V}, σ.box.incStrong .debug w = .ok box →
      σ.box.strong + 1 < 2 ^ w := by
    intro box hinc
    obtain ⟨val, hval, -⟩ := of_bind_ok hinc
    exact addUsize_debug_lt hval
  have hweak : ∀ {box : RcBox V}, σ.box.incWeak .debug w = .ok box →
      σ.box.weak + 1 < 2 ^ w := by
    intro box hinc
    obtain ⟨val, hval, -⟩ := of_bind_ok hinc
    exact addUsize_debug_lt hval
  cases op with
  | clone h new =>
    obtain ⟨box, hinc, -⟩ := of_bind_ok (show σ.clone .debug new = _ from h)
    exact hstrong hinc
  | downgrade h new =>
    obtain ⟨box, hinc, -⟩ := of_bind_ok (show σ.downgrade .debug new = _ from h)
    exact hweak hinc
  | weakClone h new =>
    obtain ⟨box, hinc, -⟩ := of_bind_ok (show σ.weakClone .debug new = _ from h)
    exact hweak hinc
  | upgrade h' new =>
    by_cases hzero : σ.box.strong = 0
    · exact Or.inl hzero
    · have hup : σ.upgrade .debug new = .ok (σ', r) := h
      rw [upgrade, if_neg hzero] at hup
      obtain ⟨box, hinc, -⟩ := of_bind_ok hup
      exact Or.inr (hstrong hinc)
  | _ => trivial

/-- In a debug build every state is safe: the increment that would wrap panics. -/
theorem debug_run_safe {σ₀ σ : Leaky B H V}
    {hist : List (Leaky B H V × Event H V × Leaky B H V)}
    (h₀ : (leakyMachine B H V .debug).init σ₀)
    (hrun : (leakyMachine B H V .debug).Run σ₀ hist σ) : σ.Safe := by
  refine Leaky.safe_of_invariant (leaky_run_invariant h₀ hrun fun x hx => ?_)
  obtain ⟨-, hstep⟩ := hrun.history_reachable (Machine.Reachable.of_init h₀) x hx
  rcases x with ⟨τ, e, τ'⟩
  cases e with
  | call op =>
    obtain ⟨-, -, world, r, hexec, -⟩ := hstep
    exact World.noWrap_of_debug hexec
  | forget h => trivial
  | forgetWeak h => trivial

/-! ## In a release build -/

/-- `n` times: clone the handle `0` and forget the clone. -/
def forgetClones (V : Type) : ℕ → List (Event ℕ V)
  | 0 => []
  | n + 1 => forgetClones V n ++ [.call (.clone 0 (n + 1)), .forget (n + 1)]

/-- What that makes of a new box: the counter is a residue, the handle `0` is the
only live one. -/
def Leaky.forgotClones (σ : World B ℕ V) (n : ℕ) : Leaky B ℕ V where
  world := { σ with
    box := { σ.box with strong := (n + 1) % 2 ^ w }
    rcs := Finset.range (n + 1) }
  forgotten := (Finset.range (n + 1)).erase 0
  forgottenWeak := ∅

theorem World.clone_release (σ : World B H V) (new : H) :
    σ.clone .release new = .ok ({ σ with
      box := { σ.box with strong := (σ.box.strong + 1) % 2 ^ w }
      rcs := insert new σ.rcs }, .done) := by
  rw [clone, RcBox.incStrong, addUsize_release]
  rfl

theorem Leaky.zero_live (σ : World B ℕ V) (n : ℕ) :
    0 ∈ (forgotClones σ n).world.rcs ∧ 0 ∉ (forgotClones σ n).forgotten :=
  ⟨Finset.mem_range.mpr (Nat.succ_pos n), Finset.notMem_erase 0 _⟩

/-- One more round: the counter moves on by one, modulo `2 ^ w`. -/
theorem Leaky.run_round (σ : World B ℕ V) (n : ℕ) :
    ∃ τ, (leakyMachine B ℕ V .release).step (forgotClones σ n) (.call (.clone 0 (n + 1))) τ ∧
      (leakyMachine B ℕ V .release).step τ (.forget (n + 1)) (forgotClones σ (n + 1)) := by
  obtain ⟨hzero, hspared⟩ := zero_live σ n
  have hnew : n + 1 ∉ Finset.range (n + 1) := Finset.notMem_range_self
  have hclone := World.clone_release (forgotClones σ n).world (n + 1)
  refine ⟨_, ⟨⟨hzero, hnew⟩, hspared, _, _, hclone, rfl⟩, ?_, ?_⟩
  · refine Finset.mem_sdiff.mpr ⟨Finset.mem_insert_self _ _, fun h => ?_⟩
    exact hnew (Finset.mem_of_mem_erase h)
  · have hcount : ((n + 1) % 2 ^ w + 1) % 2 ^ w = (n + 1 + 1) % 2 ^ w := Nat.mod_add_mod _ _ _
    have hrcs : insert (n + 1) (Finset.range (n + 1)) = Finset.range (n + 1 + 1) :=
      Finset.range_add_one.symm
    have hforgotten : insert (n + 1) ((Finset.range (n + 1)).erase 0) =
        (Finset.range (n + 1 + 1)).erase 0 := by
      rw [← hrcs, Finset.erase_insert_of_ne (Nat.succ_ne_zero n)]
    simp only [forgotClones, hcount, hrcs, hforgotten]

/-- Any number of rounds. -/
theorem Leaky.run_forgetClones (σ : World B ℕ V) (n : ℕ) :
    ∃ hist, (leakyMachine B ℕ V .release).Run (forgotClones σ 0) hist (forgotClones σ n) ∧
      hist.map (fun x => x.2.1) = forgetClones V n := by
  induction n with
  | zero => exact ⟨[], Machine.Run.refl _, rfl⟩
  | succ n ih =>
    obtain ⟨hist, hrun, hlab⟩ := ih
    obtain ⟨τ, hclone, hforget⟩ := run_round σ n
    refine ⟨_, (hrun.tail hclone).tail hforget, ?_⟩
    rw [List.map_append, List.map_append, hlab, forgetClones, List.append_assoc]
    rfl

omit [DecidableEq H] in
/-- `Rc::new` makes one handle, and both counters are one. -/
theorem new_fresh {val : V} {memory : UninitView (Ty.unit w)} {h : H} {σ : World B H V}
    (hnew : new B val memory h = .ok σ) : σ.box = ⟨.stored val, 1, 1⟩ ∧ σ.rcs = {h} := by
  obtain ⟨-, -, hnew⟩ := of_bind_ok hnew
  obtain ⟨inner, -, hnew⟩ := of_bind_ok hnew
  rw [← Except.ok.inj hnew]
  exact ⟨rfl, rfl⟩

/-- Dropping a handle when both counters are one starts the destructor. -/
theorem World.drop_of_one {b : Build} {σ : World B H V} {v : V} (h : H)
    (hbox : σ.box = ⟨.stored v, 1, 1⟩) :
    σ.drop b h = .ok ({ σ with box := ⟨.dropping v, 0, 0⟩, rcs := σ.rcs.erase h }, .done) := by
  rw [drop, hbox]
  rfl

/-- Where the counter says that there is no `Rc`, a clone of a live one raises it
to one, and dropping the clone starts the destructor. -/
theorem Leaky.run_drop_clone {σ : Leaky B H V} {h new : H} {v : V} {strong : ℕ}
    (hh : h ∈ σ.world.rcs) (hspared : h ∉ σ.forgotten) (hnew : new ∉ σ.world.rcs)
    (hnot : new ∉ σ.forgotten) (hbox : σ.world.box = ⟨.stored v, strong, 1⟩)
    (hcount : (strong + 1) % 2 ^ w = 1) :
    ∃ τ υ, (leakyMachine B H V .release).step σ (.call (.clone h new)) τ ∧
      (leakyMachine B H V .release).step τ (.call (.drop new)) υ ∧
      h ∈ υ.live ∧ υ.world.box.val = .dropping v := by
  have hclone : σ.world.exec .release (.clone h new) =
      .ok ({ σ.world with box := ⟨.stored v, 1, 1⟩, rcs := insert new σ.world.rcs }, .done) := by
    show σ.world.clone .release new = _
    rw [World.clone_release, hbox, hcount]
  have hdrop := World.drop_of_one (b := .release)
    (σ := { σ.world with box := ⟨.stored v, 1, 1⟩, rcs := insert new σ.world.rcs }) new rfl
  refine ⟨_, _, step_call ⟨hh, hnew⟩ hspared hclone,
    step_call (Finset.mem_insert_self new _) hnot hdrop, ?_, rfl⟩
  have hne : h ≠ new := fun he => hnew (he ▸ hh)
  exact Finset.mem_sdiff.mpr
    ⟨Finset.mem_erase_of_ne_of_mem hne (Finset.mem_insert_of_mem hh), hspared⟩

/-- **`2 ^ w - 1` forgotten clones are too many.**  After them the counter of a
new box is zero; the next clone raises it to one, and dropping that clone starts
the destructor of the value while the first handle is live. -/
theorem Leaky.run_dropping (hw : 0 < w) {val : V} {memory : UninitView (Ty.unit w)}
    {σ : World B ℕ V} (hnew : new B val memory 0 = .ok σ) :
    ∃ hist τ, (leakyMachine B ℕ V .release).Run ⟨σ, ∅, ∅⟩ hist τ ∧
      hist.map (fun x => x.2.1) =
        forgetClones V (2 ^ w - 1) ++ [.call (.clone 0 (2 ^ w)), .call (.drop (2 ^ w))] ∧
      0 ∈ τ.live ∧ τ.world.box.val = .dropping val := by
  have hone : 1 < 2 ^ w := Nat.one_lt_two_pow (by omega)
  obtain ⟨hbox, hrcs⟩ := new_fresh hnew
  have hstart : (⟨σ, ∅, ∅⟩ : Leaky B ℕ V) = forgotClones σ 0 := by
    rcases σ with ⟨inner, box, rcs, weaks, raw, returned, fates⟩
    obtain rfl : box = _ := hbox
    obtain rfl : rcs = _ := hrcs
    simp [forgotClones, Nat.mod_eq_of_lt hone]
  obtain ⟨hist, hrun, hlab⟩ := run_forgetClones σ (2 ^ w - 1)
  obtain ⟨hzero, hspared⟩ := zero_live σ (2 ^ w - 1)
  have hfresh : 2 ^ w ∉ Finset.range (2 ^ w - 1 + 1) := by
    rw [Finset.mem_range]
    omega
  -- the counter has wrapped to zero
  have hcount : ((2 ^ w - 1 + 1) % 2 ^ w + 1) % 2 ^ w = 1 := by
    rw [Nat.sub_add_cancel (by omega), Nat.mod_self, Nat.zero_add, Nat.mod_eq_of_lt hone]
  have hwrapped : (forgotClones σ (2 ^ w - 1)).world.box =
      ⟨.stored val, (2 ^ w - 1 + 1) % 2 ^ w, 1⟩ := by
    rw [forgotClones, hbox]
  obtain ⟨τ, υ, hclone, hdrop, hlive, hval⟩ := run_drop_clone hzero hspared hfresh
    (fun h => hfresh (Finset.mem_of_mem_erase h)) hwrapped hcount
  rw [hstart]
  refine ⟨_, υ, (hrun.tail hclone).tail hdrop, ?_, hlive, hval⟩
  rw [List.map_append, List.map_append, hlab, List.append_assoc]
  rfl

/-! ## A 16-bit target -/

theorem narrow.isPowerOfTwo_two : (2 : ℕ).isPowerOfTwo := ⟨1, rfl⟩

theorem narrow.usize_bounded : 2 + 2 ≤ 2 ^ (16 - 1) := by decide

theorem narrow.usize_stride : 2 ∣ 2 := ⟨1, rfl⟩

theorem narrow.box_bounded : 6 + 2 ≤ 2 ^ (16 - 1) := by decide

/-- The layout of `usize` there. -/
def narrow.usize : Ty 16 where
  size := 2
  align := 2
  align_pow := narrow.isPowerOfTwo_two
  bounded := narrow.usize_bounded
  stride := narrow.usize_stride

/-- The layout of the box around one. -/
def narrow.boxTy : Ty 16 := ⟨⟨6, 2, narrow.isPowerOfTwo_two, narrow.box_bounded⟩, ⟨3, rfl⟩⟩

theorem narrow.boxLayout_eq : boxLayout narrow.usize narrow.usize = some narrow.boxTy := by decide

/-- The types of an `Rc<usize>` there. -/
def narrow : Types 16 where
  T := narrow.usize
  usize := narrow.usize
  box := narrow.boxTy
  box_eq := narrow.boxLayout_eq

/-- Memory for a box of this kind, at address 4096. -/
def narrow.memory : UninitView (Ty.unit 16) :=
  UninitView.fromMemory 4096 6 page_pos (by decide)

/-- **A live `Rc` whose value is being dropped.**  65535 clones are forgotten, one
more is dropped, and the destructor runs although the `Rc` they were made from is
live. -/
theorem forgotten_clones_unsafe :
    ∃ σ₀ hist σ, (leakyMachine narrow ℕ ℕ .release).init σ₀ ∧
      (leakyMachine narrow ℕ ℕ .release).Run σ₀ hist σ ∧
      hist.map (fun x => x.2.1) =
        forgetClones ℕ (2 ^ 16 - 1) ++ [.call (.clone 0 (2 ^ 16)), .call (.drop (2 ^ 16))] ∧
      ¬ σ.Safe := by
  obtain ⟨σ, hnew⟩ : ∃ σ : World narrow ℕ ℕ, new narrow 7 narrow.memory 0 = .ok σ := ⟨_, rfl⟩
  obtain ⟨hist, τ, hrun, hlab, hlive, hval⟩ := Leaky.run_dropping (by decide) hnew
  refine ⟨_, hist, τ, ⟨7, narrow.memory, 0, hnew, rfl, rfl⟩, hrun, hlab, fun hsafe => ?_⟩
  obtain ⟨v, hv⟩ := hsafe.stored ⟨0, hlive⟩
  rw [hval] at hv
  exact absurd hv (by simp)

end Rc
end StaticAlloc
