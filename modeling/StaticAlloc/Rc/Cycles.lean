import StaticAlloc.Library.Ancestors
import StaticAlloc.Rc.Balance

/-!
# Which values are never dropped

A value is in its box as long as there is an `Rc` of it.  The `Rc` may be owned by a value in a box,
which is there because of an `Rc` again; so, followed upwards, the owners end outside of the
boxes or go round in a circle.  `value_kept_iff` says that this decides it: a value is in its box if
and only if above it there is a handle that is not in a box, or a circle.  `Weak`s do not matter.

A program that lets go of all it has drops its handles and values one after the other, in any
order, and whatever that starts.  This comes to an end (`letting_go`), since each step makes
`weight` smaller: a stored value is heavier than the handles it owns, and these are what is put on
the stack when its destructor runs.  A circle stays, because the value of a box whose last `Rc` is
on the stack is owned by no other value.  So what is left in the end is what is below a circle, and
the circles are those of the beginning.
-/

namespace StaticAlloc
namespace Rc

open Toolkit Relation

variable {w : ℕ} {I H : Type} {B : I → Types w}

/-- The acts of a program that wants nothing any more. -/
def Act.LetsGo : Act I H → Prop
  | .drop _ | .dropValue _ | .work => True
  | _ => False

/-- A stored value is one heavier than what comes on the stack in its place. -/
def Slot.weight : Slot (Val I H) → ℕ
  | .stored v => v.fields.length + 2
  | .dropping _ | .gone => 0

/-- A value of the program is heavier than its fields on the stack. -/
def Val.weights (values : List (Val I H)) : ℕ := (values.map fun v => v.fields.length + 1).sum

theorem Val.weights_eraseIdx {values : List (Val I H)} {k : ℕ} {v : Val I H}
    (h : values[k]? = some v) :
    Val.weights values = v.fields.length + 1 + Val.weights (values.eraseIdx k) := by
  obtain ⟨hk, rfl⟩ := List.getElem?_eq_some_iff.mp h
  exact ((List.getElem_cons_eraseIdx_perm hk).map fun v => v.fields.length + 1).sum_eq.symm

namespace Graph

variable {σ τ : Graph B H} {i j : I} {total : Multiset Span}

/-! ## Owners of values -/

/-- The value in one box owns an `Rc` of the other. -/
def Owns (σ : Graph B H) (j i : I) : Prop :=
  j ∈ σ.boxes ∧ ∃ n, ⟨.rc, i, n⟩ ∈ (σ.world j).box.val.handles

/-- There is an `Rc` of the box that is not in a box, or the caller has the raw value. -/
def Root (σ : Graph B H) (i : I) : Prop :=
  i ∈ σ.boxes ∧ ((∃ n, ⟨.rc, i, n⟩ ∈ σ.outside) ∨ (σ.world i).raw ≠ none)

/-- A value is in the box. -/
def Stored (σ : Graph B H) (i : I) : Prop := i ∈ σ.boxes ∧ ∃ v, (σ.world i).box.val = .stored v

theorem mem_inside {h : Handle I H} :
    h ∈ σ.inside ↔ ∃ j ∈ σ.boxes, h ∈ (σ.world j).box.val.handles := Multiset.mem_sum

theorem Owns.stored_owner (h : σ.Owns j i) : σ.Stored j := by
  obtain ⟨hj, n, hn⟩ := h
  refine ⟨hj, ?_⟩
  cases hv : (σ.world j).box.val with
  | stored v => exact ⟨v, rfl⟩
  | dropping v =>
    rw [hv] at hn
    exact absurd hn (Multiset.notMem_zero _)
  | gone =>
    rw [hv] at hn
    exact absurd hn (Multiset.notMem_zero _)

section Sound

variable (hσ : σ.Sound total)

include hσ

theorem Owns.stored (h : σ.Owns j i) : σ.Stored i := by
  obtain ⟨hj, n, hn⟩ := h
  obtain ⟨hi, -, -, -, hv⟩ :=
    hσ.rc_live (Multiset.mem_add.mpr (Or.inr (mem_inside.mpr ⟨j, hj, hn⟩)))
  exact ⟨hi, hv⟩

theorem Root.stored (h : σ.Root i) : σ.Stored i := by
  obtain ⟨hi, ⟨n, hn⟩ | hraw⟩ := h
  · obtain ⟨-, -, -, -, hv⟩ := hσ.rc_live (Multiset.mem_add.mpr (Or.inl hn))
    exact ⟨hi, hv⟩
  · exact ⟨hi, (hσ.raw_live hi hraw).2.2⟩

/-- A value that is there has an owner. -/
theorem Stored.owner (h : σ.Stored i) : σ.Root i ∨ ∃ j, σ.Owns j i := by
  obtain ⟨hi, v, hv⟩ := h
  have hW := hσ.world i hi
  have hpos := hW.val.stored_iff.mp ⟨v, hv⟩
  by_cases hraw : (σ.world i).raw = none
  · have hpending : (σ.world i).pending = 0 := by
      rw [World.pending, hraw]
      rfl
    have hstrong := hW.strong_eq
    obtain ⟨n, hn⟩ := Finset.card_pos.mp (show 0 < (σ.world i).rcs.card by omega)
    have hmem : (⟨.rc, i, n⟩ : Handle I H) ∈ σ.outside + σ.inside := by
      rw [hσ.handles_eq]
      exact Multiset.mem_sum.mpr ⟨i, hi, World.mem_handles.mpr ⟨rfl, hn⟩⟩
    rcases Multiset.mem_add.mp hmem with hout | hin
    · exact Or.inl ⟨hi, Or.inl ⟨n, hout⟩⟩
    · obtain ⟨j, hj, hn⟩ := mem_inside.mp hin
      exact Or.inr ⟨j, hj, n, hn⟩
  · exact Or.inl ⟨hi, Or.inr hraw⟩

/-- Above a value that is there is a root or a circle, and below them values are there. -/
theorem Sound.stored_iff :
    σ.Stored i ↔ ∃ c, ReflTransGen σ.Owns c i ∧ (σ.Root c ∨ TransGen σ.Owns c c) := by
  classical
  constructor
  · intro hi
    have howner : ∀ a ∈ σ.boxes.filter σ.Stored,
        σ.Root a ∨ ∃ p ∈ σ.boxes.filter σ.Stored, σ.Owns p a := by
      intro a ha
      refine (Stored.owner hσ (Finset.mem_filter.mp ha).2).imp_right ?_
      rintro ⟨p, hp⟩
      exact ⟨p, Finset.mem_filter.mpr ⟨hp.1, hp.stored_owner⟩, hp⟩
    obtain ⟨c, -, hc⟩ := exists_root_or_cycle howner (Finset.mem_filter.mpr ⟨hi.1, hi⟩)
    exact ⟨c, hc⟩
  · rintro ⟨c, hci, htop⟩
    have hc : σ.Stored c := by
      rcases htop with hroot | hcycle
      · exact hroot.stored hσ
      · obtain ⟨p, -, hp⟩ := TransGen.tail'_iff.mp hcycle
        exact hp.stored hσ
    rcases ReflTransGen.cases_tail hci with rfl | ⟨p, -, hp⟩
    · exact hc
    · exact hp.stored hσ

end Sound

/-! ## Letting go -/

/-- How much is to be done until nothing is left. -/
def weight (σ : Graph B H) : ℕ :=
  2 * σ.hands.card + σ.stack.length + Val.weights σ.values +
    ∑ i ∈ σ.boxes, (σ.world i).box.val.weight

/-- What is left of a graph, and lighter by `n`. -/
structure Fading (σ τ : Graph B H) (n : ℕ) : Prop where
  boxes : τ.boxes = σ.boxes
  stored : ∀ i v, (τ.world i).box.val = .stored v → (σ.world i).box.val = .stored v
  raw : ∀ i, (τ.world i).raw = (σ.world i).raw
  forgotten : τ.forgotten = σ.forgotten
  made : τ.made = σ.made
  apart : τ.apart = σ.apart
  weight : τ.weight + n ≤ σ.weight

theorem Fading.refl (σ : Graph B H) : Fading σ σ 0 :=
  ⟨rfl, fun _ _ h => h, fun _ => rfl, rfl, rfl, rfl, le_rfl⟩

theorem Fading.trans {ρ : Graph B H} {m n : ℕ} (h : Fading σ τ m) (h' : Fading τ ρ n) :
    Fading σ ρ (m + n) where
  boxes := h'.boxes.trans h.boxes
  stored i v hv := h.stored i v (h'.stored i v hv)
  raw i := (h'.raw i).trans (h.raw i)
  forgotten := h'.forgotten.trans h.forgotten
  made := h'.made.trans h.made
  apart := h'.apart.trans h.apart
  weight := by
    have := h.weight
    have := h'.weight
    omega

/-- An owner that is left was one before. -/
theorem Fading.owns {n : ℕ} (h : Fading σ τ n) (hown : τ.Owns j i) : σ.Owns j i := by
  obtain ⟨-, v, hv⟩ := hown.stored_owner
  obtain ⟨hj, m, hm⟩ := hown
  refine ⟨h.boxes ▸ hj, m, ?_⟩
  rw [hv] at hm
  rw [h.stored j v hv]
  exact hm

section Steps

variable [DecidableEq I]

/-- A box gives up its value or keeps it, and the stack grows by less than that. -/
theorem Fading.of_setWorld {W : World (B i) H (Val I H)} {stack : List (Task I H)}
    {dropped : Multiset ℕ} (hi : i ∈ σ.boxes) (hraw : W.raw = (σ.world i).raw)
    (hval : ∀ v, W.box.val = .stored v → (σ.world i).box.val = .stored v)
    (hweight : stack.length + W.box.val.weight + 1 ≤
      σ.stack.length + (σ.world i).box.val.weight) :
    Fading σ { σ.setWorld i W with stack := stack, dropped := dropped } 1 := by
  refine ⟨rfl, ?_, ?_, rfl, rfl, rfl, ?_⟩
  · exact (Function.forall_update_iff σ.world (p := fun j W =>
      ∀ v, W.box.val = .stored v → (σ.world j).box.val = .stored v)).mpr
        ⟨hval, fun _ _ _ h => h⟩
  · exact (Function.forall_update_iff σ.world (p := fun j W => W.raw = (σ.world j).raw)).mpr
      ⟨hraw, fun _ _ => rfl⟩
  · have hsum := sum_insert_update σ.boxes σ.world (fun _ W => W.box.val.weight) i W
    rw [if_pos hi, Finset.insert_eq_of_mem hi] at hsum
    show 2 * σ.hands.card + stack.length + Val.weights σ.values +
      (∑ j ∈ σ.boxes, (Function.update σ.world i W j).box.val.weight) + 1 ≤
        2 * σ.hands.card + σ.stack.length + Val.weights σ.values +
          ∑ j ∈ σ.boxes, (σ.world j).box.val.weight
    omega

theorem Worked.fading [DecidableEq H] (h : σ.Worked τ) : Fading σ τ 1 := by
  cases h with
  | spent hs hi hret hW hB hraw hold =>
    refine .of_setWorld hi hraw (fun v hv => hB.val ▸ hv) ?_
    rw [hB.val, hs, List.length_cons]
    omega
  | @started i n rest W v hs hi hret hW hn hv hB hraw =>
    refine .of_setWorld hi hraw (fun v hv => absurd (hB.val.symm.trans hv) (by simp)) ?_
    rw [hB.val, hv, hs, List.length_append, List.length_cons, List.length_cons, Val.drops,
      List.length_map, Slot.weight, Slot.weight]
    omega
  | ended hs hi hret hW hv hB hraw =>
    refine .of_setWorld hi hraw (fun v hv => absurd (hB.val.symm.trans hv) (by simp)) ?_
    rw [hB.val, hv, hs, List.length_cons]
    exact le_rfl

variable [DecidableEq H] {b : Build}

/-- A program that lets go of something is left with less. -/
theorem Sound.fading (hσ : σ.Sound total) {a : Act I H} (ha : a.LetsGo) (hen : σ.Enabled a)
    {granted : Bool} (hexec : σ.exec b a = .ok (τ, granted)) : Fading σ τ 1 := by
  cases a with
  | drop h =>
    obtain ⟨rfl, -⟩ := ok_pair_inj hexec
    refine ⟨rfl, fun _ _ h => h, fun _ => rfl, rfl, rfl, rfl, ?_⟩
    have hcard := Multiset.card_erase_add_one (show h ∈ σ.hands from hen)
    show 2 * (σ.hands.erase h).card + (σ.stack.length + 1) + Val.weights σ.values +
      (∑ j ∈ σ.boxes, (σ.world j).box.val.weight) + 1 ≤
        2 * σ.hands.card + σ.stack.length + Val.weights σ.values +
          ∑ j ∈ σ.boxes, (σ.world j).box.val.weight
    omega
  | dropValue k =>
    have hk : σ.values[k]? = some σ.values[k] := List.getElem?_eq_getElem hen
    generalize σ.values[k] = v at hk
    rw [exec, hk] at hexec
    obtain ⟨rfl, -⟩ := ok_pair_inj hexec
    refine ⟨rfl, fun _ _ h => h, fun _ => rfl, rfl, rfl, rfl, ?_⟩
    have hsum := Val.weights_eraseIdx hk
    show 2 * σ.hands.card + (v.drops ++ σ.stack).length + Val.weights (σ.values.eraseIdx k) +
      (∑ j ∈ σ.boxes, (σ.world j).box.val.weight) + 1 ≤
        2 * σ.hands.card + σ.stack.length + Val.weights σ.values +
          ∑ j ∈ σ.boxes, (σ.world j).box.val.weight
    rw [List.length_append, Val.drops, List.length_map]
    omega
  | work =>
    obtain ⟨τ', hwork, hτ⟩ := work_worked b hσ hen
    obtain ⟨rfl, -⟩ := ok_pair_inj (hwork.symm.trans hexec)
    exact hτ.fading
  | _ => exact ha.elim

/-! ## Runs -/

variable {free : List (UninitView (Ty.unit w))}
  {hist : List (Graph B H × (Act I H × Bool) × Graph B H)}

/-- What a run of letting go leaves. -/
theorem fading_run (hσ : (machine B H b free).Reachable σ)
    (hrun : (machine B H b free).Run σ hist τ) (hlets : ∀ x ∈ hist, x.2.1.1.LetsGo) :
    Fading σ τ hist.length := by
  induction hrun with
  | refl => exact Fading.refl σ
  | @tail ρ τ hist l hrun hstep ih =>
    have hfade := ih fun x hx => hlets x (List.mem_append_left _ hx)
    have hlast : Fading ρ τ 1 :=
      (reachable_sound (hrun.reachable hσ)).fading
        (hlets _ (List.mem_append_right _ (List.mem_singleton_self _))) hstep.1 hstep.2
    rw [List.length_append]
    exact hfade.trans hlast

/-- A box whose value starts to go was owned by no value. -/
theorem Worked.not_owned_of_started (hσ : σ.Sound total) {i : I} {n : H} {rest : List (Task I H)}
    {W : World (B i) H (Val I H)} {v : Val I H} (hs : σ.stack = .drop ⟨.rc, i, n⟩ :: rest)
    (hW : W.Invariant)
    (hB : World.Became (σ.world i) W ((σ.world i).rcs.erase n) (σ.world i).weaks (.dropping v)) :
    ¬ ∃ j, σ.Owns j i := by
  rintro ⟨j, hj, m, hm⟩
  have hin : (⟨.rc, i, m⟩ : Handle I H) ∈ σ.inside := mem_inside.mpr ⟨j, hj, hm⟩
  have hzero : W.box.strong = 0 := by
    have hval := hW.val
    rw [hB.val] at hval
    exact hval.1
  -- it was the last `Rc`, and that one was on the stack
  have hlast : (σ.world i).rcs.erase n = ∅ := by
    have hstrong := hW.strong_eq
    rw [hzero, hB.rcs] at hstrong
    exact Finset.card_eq_zero.mp (by omega)
  have hmn : m = n := by
    by_contra hne
    have hmem := Finset.mem_erase.mpr ⟨hne, (hσ.rc_live (Multiset.mem_add.mpr (Or.inr hin))).2.2.1⟩
    rw [hlast] at hmem
    exact Finset.notMem_empty m hmem
  have hout : (⟨.rc, i, m⟩ : Handle I H) ∈ σ.outside := by
    have hmem : (⟨.rc, i, m⟩ : Handle I H) ∈
        holdings Task.handles (σ.stack : Multiset (Task I H)) := by
      rw [hmn]
      exact mem_holdings.mpr ⟨.drop ⟨.rc, i, n⟩, by rw [hs]; exact List.mem_cons_self,
        Multiset.mem_singleton_self _⟩
    simp only [outside, Multiset.mem_add]
    tauto
  exact Multiset.disjoint_left.mp (Multiset.nodup_add.mp hσ.nodup).2.2 hout hin

/-- What an owned value owns it keeps. -/
theorem Worked.owns (hσ : σ.Sound total) (h : σ.Worked τ) {p j i : I} (hp : σ.Owns p j)
    (hown : σ.Owns j i) : τ.Owns j i := by
  have hsame : ∀ {k : I} {W : World (B k) H (Val I H)},
      (k = j → W.box.val.handles = (σ.world k).box.val.handles) →
        (Function.update σ.world k W j).box.val.handles = (σ.world j).box.val.handles := by
    intro k W hk
    by_cases hjk : j = k
    · subst hjk
      rw [Function.update_self]
      exact hk rfl
    · rw [Function.update_of_ne hjk]
  obtain ⟨hj, n, hn⟩ := hown
  refine ⟨?_, n, ?_⟩
  · cases h <;> exact hj
  · cases h with
    | spent hs hi hret hW hB hraw hold =>
      show _ ∈ (Function.update σ.world _ _ j).box.val.handles
      rw [hsame fun _ => by rw [hB.val]]
      exact hn
    | started hs hi hret hW hn' hv hB hraw =>
      show _ ∈ (Function.update σ.world _ _ j).box.val.handles
      rw [hsame fun hkj => absurd ⟨p, by rw [hkj]; exact hp⟩ (not_owned_of_started hσ hs hW hB)]
      exact hn
    | ended hs hi hret hW hv hB hraw =>
      show _ ∈ (Function.update σ.world _ _ j).box.val.handles
      rw [hsame fun _ => by rw [hB.val, hv]; rfl]
      exact hn

/-- What a program that lets go leaves of an owned value. -/
theorem Sound.owns (hσ : σ.Sound total) {a : Act I H} (ha : a.LetsGo) (hen : σ.Enabled a)
    {granted : Bool} (hexec : σ.exec b a = .ok (τ, granted)) {p j i : I} (hp : σ.Owns p j)
    (hown : σ.Owns j i) : τ.Owns j i := by
  cases a with
  | drop h =>
    obtain ⟨rfl, -⟩ := ok_pair_inj hexec
    exact hown
  | dropValue k =>
    have hk : σ.values[k]? = some σ.values[k] := List.getElem?_eq_getElem hen
    rw [exec, hk] at hexec
    obtain ⟨rfl, -⟩ := ok_pair_inj hexec
    exact hown
  | work =>
    obtain ⟨τ', hwork, hτ⟩ := work_worked b hσ hen
    obtain ⟨rfl, -⟩ := ok_pair_inj (hwork.symm.trans hexec)
    exact hτ.owns hσ hp hown
  | _ => exact ha.elim

/-- The box is one of a circle of owners, or below one. -/
def Circled (σ : Graph B H) (i : I) : Prop :=
  ∃ c, TransGen σ.Owns c c ∧ ReflTransGen σ.Owns c i

/-- The circles are the same after a run of letting go. -/
theorem circled_run (hσ : (machine B H b free).Reachable σ)
    (hrun : (machine B H b free).Run σ hist τ) (hlets : ∀ x ∈ hist, x.2.1.1.LetsGo) (i : I) :
    τ.Circled i ↔ σ.Circled i := by
  constructor
  · have hfade := fading_run hσ hrun hlets
    rintro ⟨c, hc, hci⟩
    exact ⟨c, TransGen.mono (fun _ _ hown => hfade.owns hown) c c hc,
      ReflTransGen.mono (fun _ _ hown => hfade.owns hown) c i hci⟩
  · induction hrun with
    | refl => exact id
    | @tail ρ τ hist l hrun hstep ih =>
      intro hi
      obtain ⟨c, hc, hci⟩ := ih (fun x hx => hlets x (List.mem_append_left _ hx)) hi
      have howns : ∀ p j i, ρ.Owns p j → ρ.Owns j i → τ.Owns j i := fun _ _ _ =>
        (reachable_sound (hrun.reachable hσ)).owns
          (hlets _ (List.mem_append_right _ (List.mem_singleton_self _))) hstep.1 hstep.2
      exact ⟨c, circle_stays howns hc hci⟩

/-- The program has nothing, and no call is running. -/
structure Bare (σ : Graph B H) : Prop where
  hands : σ.hands = 0
  values : σ.values = []
  stack : σ.stack = []

omit [DecidableEq I] [DecidableEq H] in
/-- As long as something is left the program can go on. -/
theorem exists_letsGo (hne : ¬ σ.Bare) : ∃ a : Act I H, a.LetsGo ∧ σ.Enabled a := by
  by_cases hstack : σ.stack = []
  · by_cases hvalues : σ.values = []
    · obtain ⟨h, hh⟩ := Multiset.exists_mem_of_ne_zero fun hhands => hne ⟨hhands, hvalues, hstack⟩
      exact ⟨.drop h, trivial, hh⟩
    · exact ⟨.dropValue 0, trivial, List.length_pos_iff.mpr hvalues⟩
  · exact ⟨.work, trivial, hstack⟩

/-- A program that lets go of everything has nothing in the end. -/
theorem exists_run_bare (hσ : (machine B H b free).Reachable σ) :
    ∃ hist τ, (machine B H b free).Run σ hist τ ∧ (∀ x ∈ hist, x.2.1.1.LetsGo) ∧ τ.Bare := by
  -- the weight of what is left decreases with every act
  induction hn : σ.weight using Nat.strong_induction_on generalizing σ with
  | _ n ih =>
    by_cases hbare : σ.Bare
    · exact ⟨[], σ, .refl σ, by simp, hbare⟩
    · obtain ⟨a, ha, hen⟩ := exists_letsGo hbare
      have hsound := reachable_sound hσ
      obtain ⟨ρ, granted, hexec, -⟩ := kept_exec b hsound hen
      have hstep : (machine B H b free).step σ (a, granted) ρ := ⟨hen, hexec⟩
      have hweight := (hsound.fading ha hen hexec).weight
      obtain ⟨hist, τ, hrun, hlets, hτ⟩ := ih ρ.weight (by omega) (hσ.tail hstep) rfl
      refine ⟨_, τ, hrun.head hstep, ?_, hτ⟩
      intro x hx
      rcases List.mem_cons.mp hx with rfl | hx
      · exact ha
      · exact hlets x hx

omit [DecidableEq I] [DecidableEq H] in
/-- Where nothing is outside of the boxes, values are there because of circles. -/
theorem Sound.stored_iff_circled (hσ : σ.Sound total) (hout : σ.outside = 0)
    (hraw : ∀ i ∈ σ.boxes, (σ.world i).raw = none) {i : I} : σ.Stored i ↔ σ.Circled i := by
  rw [hσ.stored_iff]
  constructor
  · rintro ⟨c, hci, ⟨hc, ⟨n, hn⟩ | hne⟩ | hc⟩
    · rw [hout] at hn
      exact absurd hn (Multiset.notMem_zero _)
    · exact absurd (hraw c hc) hne
    · exact ⟨c, hc, hci⟩
  · rintro ⟨c, hc, hci⟩
    exact ⟨c, hci, Or.inr hc⟩

omit [DecidableEq I] [DecidableEq H] in
/-- Where no call is running, no destructor is. -/
theorem Sound.gone (hσ : σ.Sound total) (hstack : σ.stack = []) {i : I} (hi : i ∈ σ.boxes)
    (hnot : ¬ σ.Stored i) : (σ.world i).box.val = .gone := by
  cases hv : (σ.world i).box.val with
  | stored v => exact absurd ⟨hi, v, hv⟩ hnot
  | dropping v =>
    have hends := hσ.ends
    rw [Level, hstack, Finset.sum_const_zero, zero_add, add_zero] at hends
    have hmem : i ∈ ∑ j ∈ σ.boxes, (σ.world j).box.val.marks j :=
      Multiset.mem_sum.mpr ⟨i, hi, by rw [hv]; exact Multiset.mem_singleton_self i⟩
    rw [hends] at hmem
    exact absurd hmem (Multiset.notMem_zero i)
  | gone => rfl

omit [DecidableEq H] in
/-- Where no value is stored and nothing is outside of the boxes, the counters are zero. -/
theorem Sound.emptied (hσ : σ.Sound total) (hstack : σ.stack = []) (hout : σ.outside = 0)
    (hraw : ∀ i ∈ σ.boxes, (σ.world i).raw = none) (hnone : ∀ i, ¬ σ.Stored i) :
    ∀ i ∈ σ.boxes, (σ.world i).box = ⟨.gone, 0, 0⟩ := by
  intro i hi
  have hin : σ.inside = 0 := Finset.sum_eq_zero fun j hj => by
    rw [hσ.gone hstack hj (hnone j)]
    rfl
  have hcount : ∀ kind, ((σ.world i).names kind).card = 0 := fun kind => by
    rw [← hσ.count_eq hi, count, hout, hin]
    rfl
  have hW := hσ.world i hi
  have hstrong : (σ.world i).box.strong = 0 := by
    rw [hW.strong_eq, World.pending, hraw i hi]
    exact hcount .rc
  have hweak : (σ.world i).box.weak = 0 := by
    rw [hW.weak_eq, hstrong]
    exact hcount .weak
  show RcBox.mk (σ.world i).box.val (σ.world i).box.strong (σ.world i).box.weak = _
  rw [hσ.gone hstack hi (hnone i), hstrong, hweak]

/-- **A value stays in its box because of a root or a circle above it.**  At every time, in every
program in which no box ever has `usize::MAX` handles or more: a value is in its box if and only if,
going from the box to a box whose value owns an `Rc` of it, and from there on, one comes to a box of
which there is an `Rc` outside of the boxes, or whose raw value the caller has, or to a box that
owns itself this way. -/
theorem value_kept_iff (B : I → Types w) (b : Build) (free : List (UninitView (Ty.unit w)))
    {σ : Graph B H} (h : (machine B H b free).Reachable σ) {i : I} (hi : i ∈ σ.boxes) :
    (∃ v, (σ.world i).box.val = .stored v) ↔
      ∃ c, ReflTransGen σ.Owns c i ∧ (σ.Root c ∨ TransGen σ.Owns c c) := by
  rw [← (reachable_sound h).stored_iff, Stored, and_iff_right hi]

/-- **Letting go comes to an end, and what is left then is below a circle.**  From every state that
a program can reach, if no box ever has `usize::MAX` handles or more, let it drop its handles and
values in any order, while the calls that this starts go on: it cannot take more steps than `weight`
says, and it can go on until it has nothing and no call is running.  If nothing was forgotten and
the caller has no raw value, the values that are still there in the end are those that were below a
circle of owners in the beginning; all others were dropped, each once, unless they were taken apart.
If there was no circle the counters of every box are zero in the end. -/
theorem letting_go (B : I → Types w) (b : Build) (free : List (UninitView (Ty.unit w)))
    {σ : Graph B H} (h : (machine B H b free).Reachable σ) :
    (∀ hist τ, (machine B H b free).Run σ hist τ → (∀ x ∈ hist, x.2.1.1.LetsGo) →
      hist.length ≤ σ.weight) ∧
    (∃ hist τ, (machine B H b free).Run σ hist τ ∧ (∀ x ∈ hist, x.2.1.1.LetsGo) ∧ τ.Bare) ∧
    ∀ hist τ, (machine B H b free).Run σ hist τ → (∀ x ∈ hist, x.2.1.1.LetsGo) → τ.Bare →
      σ.forgotten = 0 → (∀ i ∈ σ.boxes, (σ.world i).raw = none) →
        (∀ i ∈ σ.boxes, (∃ v, (τ.world i).box.val = .stored v) ↔ σ.Circled i) ∧
        τ.dropped + σ.apart + ∑ i ∈ σ.boxes, (τ.world i).box.val.ids = σ.made ∧
        ((∀ i, ¬ TransGen σ.Owns i i) → ∀ i ∈ σ.boxes, (τ.world i).box = ⟨.gone, 0, 0⟩) := by
  refine ⟨fun hist τ hrun hlets => ?_, exists_run_bare h, ?_⟩
  · have hweight := (fading_run h hrun hlets).weight
    omega
  · intro hist τ hrun hlets hbare hforgot hraw
    have hfade := fading_run h hrun hlets
    have hτ := reachable_sound (hrun.reachable h)
    have hout : τ.outside = 0 := by
      rw [outside, hbare.hands, hbare.values, hbare.stack, hfade.forgotten, hforgot]
      rfl
    have hraw' : ∀ i ∈ τ.boxes, (τ.world i).raw = none :=
      fun i hi => (hfade.raw i).trans (hraw i (hfade.boxes ▸ hi))
    have hstored : ∀ i, τ.Stored i ↔ σ.Circled i :=
      fun i => (hτ.stored_iff_circled hout hraw').trans (circled_run h hrun hlets i)
    rw [← hfade.boxes]
    refine ⟨fun i hi => ?_, ?_, fun hcycle => ?_⟩
    · rw [← hstored i, Stored, and_iff_right hi]
    · have hvalues := hτ.values
      rw [Level, hbare.values, Finset.sum_const_zero, add_zero, hfade.made, hfade.apart] at hvalues
      rw [← hvalues]
      exact congrArg (· + σ.apart + _) (zero_add τ.dropped).symm
    · refine hτ.emptied hbare.stack hout hraw' fun i hi => ?_
      obtain ⟨c, hc, -⟩ := (hstored i).mp hi
      exact hcycle c hc

end Steps

end Graph

/-! ## The box in a box -/

/-- The value in box `0` is there because the program has the `Rc` of box `1`. -/
theorem value_kept_nested :
    ∃ c, ReflTransGen (twoWords.after twoWords.nested).Owns c 0 ∧
      ((twoWords.after twoWords.nested).Root c ∨
        TransGen (twoWords.after twoWords.nested).Owns c c) :=
  (Graph.value_kept_iff _ .debug _ twoWords.reachable_nested (i := 0) (by decide)).mp ⟨_, rfl⟩

/-- The owner has the larger number. -/
theorem twoWords.owns_nested {i j : ℕ} (h : (twoWords.after twoWords.nested).Owns j i) :
    i < j := by
  obtain ⟨hj, n, hn⟩ := h
  have hboxes : (twoWords.after twoWords.nested).boxes = {1, 0} := rfl
  rw [hboxes, Finset.mem_insert, Finset.mem_singleton] at hj
  rcases hj with rfl | rfl
  · have hmem : (⟨.rc, i, n⟩ : Handle ℕ ℕ) ∈ ({⟨.rc, 0, 0⟩} : Multiset (Handle ℕ ℕ)) := hn
    rw [Multiset.mem_singleton] at hmem
    rw [(Handle.mk.inj hmem).2.1]
    exact Nat.one_pos
  · exact absurd hn (Multiset.notMem_zero _)

/-- Both values are dropped in the end. -/
theorem letting_go_nested :
    ∃ hist τ, (Graph.machine (fun _ : ℕ => twoWords) ℕ .debug twoWords.start.free).Run
      (twoWords.after twoWords.nested) hist τ ∧ (τ.world 0).box = ⟨.gone, 0, 0⟩ ∧
        (τ.world 1).box = ⟨.gone, 0, 0⟩ := by
  obtain ⟨-, ⟨hist, τ, hrun, hlets, hbare⟩, hend⟩ :=
    Graph.letting_go _ .debug _ twoWords.reachable_nested
  have hcycle : ∀ i, ¬ TransGen (twoWords.after twoWords.nested).Owns i i := by
    intro i hi
    have hlt : TransGen (fun a c : ℕ => a > c) i i :=
      TransGen.mono (fun _ _ => twoWords.owns_nested) i i hi
    rw [transGen_eq_self] at hlt
    exact lt_irrefl i hlt
  have hraw : ∀ i ∈ (twoWords.after twoWords.nested).boxes,
      ((twoWords.after twoWords.nested).world i).raw = none := by decide
  obtain ⟨-, -, hempty⟩ := hend hist τ hrun hlets hbare rfl hraw
  exact ⟨hist, τ, hrun, hempty hcycle 0 (by decide), hempty hcycle 1 (by decide)⟩

end Rc
end StaticAlloc
