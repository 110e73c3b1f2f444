import StaticAlloc.Rc.Model

/-!
# The counters count the handles

`Invariant` ties the two counters to the handles that exist: `strong` is the
number of `Rc`s, the one that `into_raw` dissolved included, and `weak` is the
number of `Weak`s plus one for all `Rc`s together.  The value is there while
`strong` is positive, and once it is not, the value has met exactly one fate or
is about to.

The counters decide everything the operations branch on, so the invariant turns
each test of a counter into a statement about handles: `Grants` says when an
operation succeeds in those terms.  `callable_effect` is the step lemma: an
operation that may be called and whose increment does not wrap returns --- no
counter underflows, no unwrap fires, nothing uninitialized is read ---, keeps the
invariant, succeeds exactly when `Grants` says so, then leaves the handles it should
(`rcsAfter`, `weaksAfter`), and changes nothing when it fails.  With fewer handles
than a word can count no increment wraps (`exec_effect`).

All of this is proved for the machine in which the destructor of the value is
code of its own.  For a destructor that leaves the handles alone, `drop` is one
operation (`dropAtOnce`), and what is proved carries over.
-/

namespace StaticAlloc
namespace Rc

open Toolkit

variable {w : ℕ} {B : Types w} {V H : Type}

/-! ## The types of a box -/

/-- The value lies at the start of the box, and its alignment is not larger. -/
theorem Types.val_le_box (B : Types w) : B.T.size ≤ B.box.size ∧ B.T.align ∣ B.box.align := by
  have hbox := B.box_eq
  obtain ⟨⟨l, o⟩, hl, hbox⟩ := Option.bind_eq_some_iff.mp hbox
  obtain ⟨⟨l', o'⟩, hl', hbox⟩ := Option.bind_eq_some_iff.mp hbox
  obtain ⟨hsize, -, hlsize, halign, -⟩ := Layout.extend_some hl
  obtain ⟨hsize', -, hlsize', halign', -⟩ := Layout.extend_some hl'
  rw [← Option.some.inj hbox]
  constructor
  · have hround : l'.size ≤ l'.padToAlign.size := le_roundUp
    omega
  · exact Layout.align_dvd_of_le (halign.trans halign')

/-- The memory of a box is large enough for the value. -/
theorem fits_val {ptr len : ℕ} (h : fits ptr len B.box.toLayout) : fits ptr len B.T.toLayout := by
  rw [fits_iff] at h ⊢
  exact ⟨B.val_le_box.2.trans h.1, B.val_le_box.1.trans h.2⟩

theorem inner_fits (σ : World B H V) : fits σ.inner.ptr σ.inner.len B.box.toLayout :=
  fits_iff.mpr ⟨σ.inner.aligned, σ.inner.large⟩

/-! ## The invariant -/

/-- What the counter and the fates say about the value. -/
def Slot.Accounted (strong : ℕ) (fates : List (Fate V)) : Slot V → Prop
  | .stored _ => 0 < strong ∧ fates = []
  | .dropping _ => strong = 0 ∧ fates = []
  | .gone => strong = 0 ∧ fates.length = 1

theorem Slot.Accounted.stored {s : Slot V} {n : ℕ} {fates : List (Fate V)}
    (h : s.Accounted n fates) (hn : 0 < n) : ∃ v, s = .stored v ∧ fates = [] := by
  cases s with
  | stored v => exact ⟨v, rfl, h.2⟩
  | dropping v => exact absurd h.1 (by omega)
  | gone => exact absurd h.1 (by omega)

theorem Slot.Accounted.stored_iff {s : Slot V} {n : ℕ} {fates : List (Fate V)}
    (h : s.Accounted n fates) : (∃ v, s = .stored v) ↔ 0 < n := by
  constructor
  · rintro ⟨v, rfl⟩
    exact h.1
  · intro hn
    obtain ⟨v, hv, -⟩ := h.stored hn
    exact ⟨v, hv⟩

namespace World

/-- One handle is missing from the count while the caller holds the raw value. -/
def pending (σ : World B H V) : ℕ := if σ.raw.isSome then 1 else 0

/-- The counters count the handles. -/
structure Invariant (σ : World B H V) : Prop where
  strong_eq : σ.box.strong = σ.rcs.card + σ.pending
  weak_eq : σ.box.weak = σ.weaks.card + if 0 < σ.box.strong then 1 else 0
  val : σ.box.val.Accounted σ.box.strong σ.fates
  raw_unique : σ.raw ≠ none → σ.box.isUnique
  raw_span : ∀ init, σ.raw = some init → init.span = σ.inner.span
  returned_last : σ.returned ≠ none → σ.box.strong = 0 ∧ σ.box.weak = 0

/-- Whether an operation succeeds, said of handles. -/
def Grants (σ : World B H V) : Op H V → Prop
  | .tryUnwrap h _ => σ.rcs = {h}
  | .intoRaw h => σ.rcs = {h} ∧ σ.weaks = ∅
  | .getMut h _ => σ.rcs = {h} ∧ σ.weaks = ∅
  | .upgrade _ _ => σ.rcs ≠ ∅
  | .weakTryUnwrap h => σ.rcs = ∅ ∧ σ.weaks = {h}
  | _ => True

/-- Who may call what, however many handles there are. -/
def Callable (σ : World B H V) : Op H V → Prop
  | .clone h new => h ∈ σ.rcs ∧ new ∉ σ.rcs
  | .drop h => h ∈ σ.rcs
  | .dropEnd => ∃ v, σ.box.val = .dropping v
  | .downgrade h new => h ∈ σ.rcs ∧ new ∉ σ.weaks
  | .tryUnwrap h new => h ∈ σ.rcs ∧ new ∉ σ.weaks
  | .intoRaw h => h ∈ σ.rcs
  | .fromRaw _ _ => σ.raw ≠ none
  | .getMut h _ => h ∈ σ.rcs
  | .weakClone h new => h ∈ σ.weaks ∧ new ∉ σ.weaks
  | .weakDrop h => h ∈ σ.weaks
  | .upgrade h new => h ∈ σ.weaks ∧ new ∉ σ.rcs
  | .weakTryUnwrap h => h ∈ σ.weaks

/-- The counter an operation increments is not at its maximum. -/
def NoWrap (σ : World B H V) : Op H V → Prop
  | .clone _ _ => σ.box.strong + 1 < 2 ^ w
  | .upgrade _ _ => σ.box.strong = 0 ∨ σ.box.strong + 1 < 2 ^ w
  | .downgrade _ _ | .weakClone _ _ => σ.box.weak + 1 < 2 ^ w
  | _ => True

/-- The `Rc`s there are when an operation has succeeded. -/
def rcsAfter [DecidableEq H] (σ : World B H V) : Op H V → Finset H
  | .clone _ new | .fromRaw _ new | .upgrade _ new => insert new σ.rcs
  | .drop h | .tryUnwrap h _ | .intoRaw h => σ.rcs.erase h
  | _ => σ.rcs

/-- The `Weak`s there are then. -/
def weaksAfter [DecidableEq H] (σ : World B H V) : Op H V → Finset H
  | .downgrade _ new | .tryUnwrap _ new | .weakClone _ new => insert new σ.weaks
  | .weakDrop h | .weakTryUnwrap h => σ.weaks.erase h
  | _ => σ.weaks

/-- What an operation does. -/
structure Effect [DecidableEq H] (σ : World B H V) (op : Op H V) (σ' : World B H V)
    (r : Reply B V) : Prop where
  invariant : σ'.Invariant
  refused_iff : r = .refused ↔ ¬ σ.Grants op
  unchanged : r = .refused → σ' = σ
  handles : r ≠ .refused → σ'.rcs = σ.rcsAfter op ∧ σ'.weaks = σ.weaksAfter op
  memory_iff : (∃ mem, r = .memory mem) ↔ r ≠ .refused ∧ ∃ h, op = .weakTryUnwrap h
  dropping : (∃ v, σ'.box.val = .dropping v) → (∃ v, σ.box.val = .dropping v) ∨ ∃ h, op = .drop h

namespace Invariant

variable {σ : World B H V}

/-- While nothing is raw and nothing was handed back, the rest is counting. -/
theorem of_settled (hstrong : σ.box.strong = σ.rcs.card + σ.pending)
    (hweak : σ.box.weak = σ.weaks.card + if 0 < σ.box.strong then 1 else 0)
    (hval : σ.box.val.Accounted σ.box.strong σ.fates) (hraw : σ.raw = none)
    (hret : σ.returned = none) : σ.Invariant where
  strong_eq := hstrong
  weak_eq := hweak
  val := hval
  raw_unique hne := absurd hraw hne
  raw_span init hinit := absurd (hraw.symm.trans hinit) (Option.some_ne_none init).symm
  returned_last hne := absurd hret hne

variable (hσ : σ.Invariant)

include hσ

/-- Where there is a handle, nothing is raw and nothing was handed back. -/
theorem settled (h : σ.rcs.Nonempty ∨ σ.weaks.Nonempty) :
    σ.pending = 0 ∧ σ.raw = none ∧ σ.returned = none := by
  have hcard : 0 < σ.rcs.card + σ.weaks.card := by
    rcases h with h | h
    · have := h.card_pos
      omega
    · have := h.card_pos
      omega
  have hstrong := hσ.strong_eq
  have hweak := hσ.weak_eq
  have hraw : σ.raw = none := by
    by_contra hraw
    obtain ⟨h₁, h₂⟩ := hσ.raw_unique hraw
    have hpending : σ.pending = 1 := if_pos (Option.isSome_iff_ne_none.mpr hraw)
    rw [if_pos (by omega)] at hweak
    omega
  have hpending : σ.pending = 0 := by
    rw [pending, hraw]
    rfl
  refine ⟨hpending, hraw, ?_⟩
  by_contra hret
  obtain ⟨h₁, h₂⟩ := hσ.returned_last hret
  omega

theorem strong_of_rc {h : H} (hh : h ∈ σ.rcs) : σ.box.strong = σ.rcs.card ∧ 0 < σ.box.strong := by
  have hset := hσ.settled (Or.inl ⟨h, hh⟩)
  have hstrong := hσ.strong_eq
  have hpos := Finset.card_pos.mpr ⟨h, hh⟩
  omega

theorem weak_of_rc {h : H} (hh : h ∈ σ.rcs) : σ.box.weak = σ.weaks.card + 1 := by
  rw [hσ.weak_eq, if_pos (hσ.strong_of_rc hh).2]

theorem strong_of_weak {h : H} (hh : h ∈ σ.weaks) : σ.box.strong = σ.rcs.card := by
  have hset := hσ.settled (Or.inr ⟨h, hh⟩)
  have hstrong := hσ.strong_eq
  omega

theorem stored_of_rc {h : H} (hh : h ∈ σ.rcs) : ∃ v, σ.box.val = .stored v ∧ σ.fates = [] :=
  hσ.val.stored (hσ.strong_of_rc hh).2

/-- The test of `is_unique`, on a live `Rc`. -/
theorem isUnique_iff {h : H} (hh : h ∈ σ.rcs) :
    σ.box.isUnique ↔ σ.rcs = {h} ∧ σ.weaks = ∅ := by
  rw [RcBox.isUnique, (hσ.strong_of_rc hh).1, hσ.weak_of_rc hh, Finset.card_eq_one]
  constructor
  · rintro ⟨⟨a, ha⟩, hw⟩
    rw [ha, Finset.mem_singleton] at hh
    rw [hh]
    exact ⟨ha, Finset.card_eq_zero.mp (by omega)⟩
  · rintro ⟨hr, hw⟩
    exact ⟨⟨h, hr⟩, by rw [hw]; rfl⟩

/-- The test of `is_unique_to_rc_memory`, on a live `Weak`. -/
theorem isUniqueToRcMemory_iff {h : H} (hh : h ∈ σ.weaks) :
    σ.box.isUniqueToRcMemory ↔ σ.rcs = ∅ ∧ σ.weaks = {h} := by
  have hs := hσ.strong_of_weak hh
  have hw := hσ.weak_eq
  rw [RcBox.isUniqueToRcMemory]
  constructor
  · rintro ⟨h₀, h₁⟩
    rw [if_neg (by omega)] at hw
    obtain ⟨a, ha⟩ := Finset.card_eq_one.mp (show σ.weaks.card = 1 by omega)
    rw [ha, Finset.mem_singleton] at hh
    rw [hh]
    exact ⟨Finset.card_eq_zero.mp (by omega), ha⟩
  · rintro ⟨hr, hwk⟩
    rw [hr, Finset.card_empty] at hs
    rw [if_neg (by omega), hwk, Finset.card_singleton] at hw
    exact ⟨hs, hw⟩

end Invariant

/-! ## The operations, one at a time -/

namespace Effect

variable [DecidableEq H] {σ σ' : World B H V} {op : Op H V} {r : Reply B V}

theorem refuse (hσ : σ.Invariant) (hop : ¬ σ.Grants op) : Effect σ op σ .refused where
  invariant := hσ
  refused_iff := iff_of_true rfl hop
  unchanged _ := rfl
  handles h := absurd rfl h
  memory_iff := by simp
  dropping h := Or.inl h

theorem succeed (hσ' : σ'.Invariant) (hr : r ≠ .refused)
    (hmem : (∃ mem, r = .memory mem) ↔ ∃ h, op = .weakTryUnwrap h) (hop : σ.Grants op)
    (hval : (∃ v, σ'.box.val = .dropping v) →
      (∃ v, σ.box.val = .dropping v) ∨ ∃ h, op = .drop h)
    (hhandles : σ'.rcs = σ.rcsAfter op ∧ σ'.weaks = σ.weaksAfter op) : Effect σ op σ' r where
  invariant := hσ'
  refused_iff := iff_of_false hr (not_not.mpr hop)
  unchanged h := absurd h hr
  handles _ := hhandles
  memory_iff := by rw [hmem, and_iff_right hr]
  dropping := hval

end Effect

variable [DecidableEq H] (b : Build) {σ : World B H V} (hσ : σ.Invariant)

include hσ

theorem clone_effect {h new : H} (hen : σ.Callable (.clone h new))
    (hno : σ.NoWrap (.clone h new)) :
    ∃ σ' r, σ.exec b (.clone h new) = .ok (σ', r) ∧ Effect σ (.clone h new) σ' r := by
  obtain ⟨hh, hnew⟩ := hen
  obtain ⟨hstrong, hpos⟩ := hσ.strong_of_rc hh
  obtain ⟨hpending, hraw, hret⟩ := hσ.settled (Or.inl ⟨h, hh⟩)
  obtain ⟨v, hv, hfates⟩ := hσ.stored_of_rc hh
  have hweak := hσ.weak_of_rc hh
  refine ⟨{ σ with
        box := { σ.box with strong := σ.box.strong + 1 }
        rcs := insert new σ.rcs }, .done, ?_, ?_⟩
  · show σ.clone b new = _
    rw [clone, RcBox.incStrong, addUsize_of_lt hno]
    rfl
  · refine .succeed (.of_settled ?_ ?_ ?_ hraw hret) (by simp) (by simp) trivial Or.inl
      ⟨rfl, rfl⟩
    · show σ.box.strong + 1 = (insert new σ.rcs).card + σ.pending
      rw [Finset.card_insert_of_notMem hnew]
      omega
    · show σ.box.weak = σ.weaks.card + if 0 < σ.box.strong + 1 then 1 else 0
      rw [if_pos (Nat.succ_pos _), hweak]
    · show σ.box.val.Accounted (σ.box.strong + 1) σ.fates
      rw [hv, hfates]
      exact ⟨Nat.succ_pos _, rfl⟩

theorem downgrade_effect {h new : H} (hen : σ.Callable (.downgrade h new))
    (hno : σ.NoWrap (.downgrade h new)) :
    ∃ σ' r, σ.exec b (.downgrade h new) = .ok (σ', r) ∧ Effect σ (.downgrade h new) σ' r := by
  obtain ⟨hh, hnew⟩ := hen
  obtain ⟨hstrong, hpos⟩ := hσ.strong_of_rc hh
  obtain ⟨hpending, hraw, hret⟩ := hσ.settled (Or.inl ⟨h, hh⟩)
  have hweak := hσ.weak_of_rc hh
  refine ⟨{ σ with
        box := { σ.box with weak := σ.box.weak + 1 }
        weaks := insert new σ.weaks }, .done, ?_, ?_⟩
  · show σ.downgrade b new = _
    rw [downgrade, RcBox.incWeak, addUsize_of_lt hno]
    rfl
  · refine .succeed (.of_settled hσ.strong_eq ?_ hσ.val hraw hret) (by simp) (by simp) trivial
      Or.inl ⟨rfl, rfl⟩
    show σ.box.weak + 1 = (insert new σ.weaks).card + if 0 < σ.box.strong then 1 else 0
    rw [if_pos hpos, Finset.card_insert_of_notMem hnew, hweak]

theorem weakClone_effect {h new : H} (hen : σ.Callable (.weakClone h new))
    (hno : σ.NoWrap (.weakClone h new)) :
    ∃ σ' r, σ.exec b (.weakClone h new) = .ok (σ', r) ∧ Effect σ (.weakClone h new) σ' r := by
  obtain ⟨hh, hnew⟩ := hen
  obtain ⟨hpending, hraw, hret⟩ := hσ.settled (Or.inr ⟨h, hh⟩)
  have hweak := hσ.weak_eq
  refine ⟨{ σ with
        box := { σ.box with weak := σ.box.weak + 1 }
        weaks := insert new σ.weaks }, .done, ?_, ?_⟩
  · show σ.weakClone b new = _
    rw [weakClone, RcBox.incWeak, addUsize_of_lt hno]
    rfl
  · refine .succeed (.of_settled hσ.strong_eq ?_ hσ.val hraw hret) (by simp) (by simp) trivial
      Or.inl ⟨rfl, rfl⟩
    show σ.box.weak + 1 = (insert new σ.weaks).card + if 0 < σ.box.strong then 1 else 0
    rw [Finset.card_insert_of_notMem hnew]
    omega

theorem weakDrop_effect {h : H} (hen : σ.Callable (.weakDrop h)) :
    ∃ σ' r, σ.exec b (.weakDrop h) = .ok (σ', r) ∧ Effect σ (.weakDrop h) σ' r := by
  obtain ⟨hpending, hraw, hret⟩ := hσ.settled (Or.inr ⟨h, hen⟩)
  have hweak := hσ.weak_eq
  have hcard := Finset.card_pos.mpr ⟨h, hen⟩
  refine ⟨{ σ with
        box := { σ.box with weak := σ.box.weak - 1 }
        weaks := σ.weaks.erase h }, .done, ?_, ?_⟩
  · show σ.weakDrop b h = _
    rw [weakDrop, RcBox.decWeak, subUsize_of_le (by omega)]
    rfl
  · refine .succeed (.of_settled hσ.strong_eq ?_ hσ.val hraw hret) (by simp) (by simp) trivial
      Or.inl ⟨rfl, rfl⟩
    show σ.box.weak - 1 = (σ.weaks.erase h).card + if 0 < σ.box.strong then 1 else 0
    rw [Finset.card_erase_of_mem hen]
    omega

theorem upgrade_effect {h new : H} (hen : σ.Callable (.upgrade h new))
    (hno : σ.NoWrap (.upgrade h new)) :
    ∃ σ' r, σ.exec b (.upgrade h new) = .ok (σ', r) ∧ Effect σ (.upgrade h new) σ' r := by
  obtain ⟨hh, hnew⟩ := hen
  have hstrong := hσ.strong_of_weak hh
  by_cases hzero : σ.box.strong = 0
  · refine ⟨σ, .refused, if_pos hzero, .refuse hσ ?_⟩
    exact not_not.mpr (Finset.card_eq_zero.mp (by omega))
  · have hne : σ.rcs ≠ ∅ := fun he => hzero (by rw [hstrong, he]; rfl)
    obtain ⟨a, ha⟩ := Finset.nonempty_iff_ne_empty.mpr hne
    -- with the value alive, `upgrade` is `clone`
    obtain ⟨σ', r, hexec, heff⟩ := clone_effect b hσ (h := a) ⟨ha, hnew⟩
      (hno.resolve_left hzero)
    have hr : r ≠ .refused := fun hr => heff.refused_iff.mp hr trivial
    refine ⟨σ', r, (if_neg hzero).trans hexec, .succeed heff.invariant hr ?_ hne ?_
      (heff.handles hr)⟩
    · exact iff_of_false (fun hm => absurd (heff.memory_iff.mp hm).2 (by simp)) (by simp)
    · intro hval
      refine Or.inl ((heff.dropping hval).resolve_right ?_)
      rintro ⟨h', hop⟩
      exact absurd hop (by simp)

theorem getMut_effect {h : H} {v : V} (hen : σ.Callable (.getMut h v)) :
    ∃ σ' r, σ.exec b (.getMut h v) = .ok (σ', r) ∧ Effect σ (.getMut h v) σ' r := by
  obtain ⟨hstrong, hpos⟩ := hσ.strong_of_rc hen
  obtain ⟨u, hu, hfates⟩ := hσ.stored_of_rc hen
  by_cases huniq : σ.box.isUnique
  · refine ⟨{ σ with box := { σ.box with val := .stored v } }, .done, ?_, ?_⟩
    · show σ.getMut v = _
      rw [getMut, if_pos huniq, RcBox.read, hu]
      rfl
    · refine .succeed ⟨hσ.strong_eq, hσ.weak_eq, ?_, hσ.raw_unique, hσ.raw_span,
        hσ.returned_last⟩ (by simp) (by simp) ((hσ.isUnique_iff hen).mp huniq) ?_
        ⟨rfl, rfl⟩
      · exact ⟨hpos, hfates⟩
      · rintro ⟨v', hv'⟩
        exact absurd hv' (by simp)
  · exact ⟨σ, .refused, if_neg huniq, .refuse hσ fun hg => huniq ((hσ.isUnique_iff hen).mpr hg)⟩

theorem tryUnwrap_effect {h new : H} (hen : σ.Callable (.tryUnwrap h new)) :
    ∃ σ' r, σ.exec b (.tryUnwrap h new) = .ok (σ', r) ∧ Effect σ (.tryUnwrap h new) σ' r := by
  obtain ⟨hh, hnew⟩ := hen
  obtain ⟨hstrong, hpos⟩ := hσ.strong_of_rc hh
  obtain ⟨hpending, hraw, hret⟩ := hσ.settled (Or.inl ⟨h, hh⟩)
  obtain ⟨v, hv, hfates⟩ := hσ.stored_of_rc hh
  have hweak := hσ.weak_of_rc hh
  by_cases hone : σ.box.strong = 1
  · obtain ⟨a, ha⟩ := Finset.card_eq_one.mp (hstrong.symm.trans hone)
    obtain rfl : h = a := by
      rw [ha] at hh
      exact Finset.mem_singleton.mp hh
    refine ⟨{ σ with
          box := ⟨.gone, σ.box.strong - 1, σ.box.weak⟩
          rcs := σ.rcs.erase h
          weaks := insert new σ.weaks
          fates := .movedOut v :: σ.fates }, .value v, ?_, ?_⟩
    · show σ.tryUnwrap b h new = _
      rw [tryUnwrap, if_neg (not_not.mpr hone), RcBox.decStrong, subUsize_of_le (by omega)]
      simp only [ok_bind, RcBox.read, hv]
    · refine .succeed (.of_settled ?_ ?_ ?_ hraw hret) (by simp) (by simp) ha ?_ ⟨rfl, rfl⟩
      · show σ.box.strong - 1 = (σ.rcs.erase h).card + σ.pending
        rw [Finset.card_erase_of_mem hh]
        omega
      · show σ.box.weak = (insert new σ.weaks).card + if 0 < σ.box.strong - 1 then 1 else 0
        rw [if_neg (by omega), Finset.card_insert_of_notMem hnew, hweak]
      · show Slot.Accounted (σ.box.strong - 1) (.movedOut v :: σ.fates) .gone
        rw [hfates]
        exact ⟨by omega, rfl⟩
      · rintro ⟨v', hv'⟩
        exact absurd hv' (by simp)
  · refine ⟨σ, .refused, if_pos hone, .refuse hσ fun hg => hone ?_⟩
    rw [hstrong, show σ.rcs = {h} from hg, Finset.card_singleton]

theorem intoRaw_effect {h : H} (hen : σ.Callable (.intoRaw h)) :
    ∃ σ' r, σ.exec b (.intoRaw h) = .ok (σ', r) ∧ Effect σ (.intoRaw h) σ' r := by
  obtain ⟨hstrong, hpos⟩ := hσ.strong_of_rc hen
  obtain ⟨hpending, hraw, hret⟩ := hσ.settled (Or.inl ⟨h, hen⟩)
  by_cases huniq : σ.box.isUnique
  · obtain ⟨init, hinit, hspan⟩ := UninitView.cast_ok (U := B.T)
      (v := UninitView.fromMemory σ.inner.ptr σ.inner.len σ.inner.nonnull σ.inner.word)
      (fits_val (inner_fits σ))
    have hrc : σ.rcs.card = 1 := hstrong.symm.trans huniq.1
    refine ⟨{ σ with rcs := σ.rcs.erase h, raw := some init }, .raw init, ?_, ?_⟩
    · show σ.intoRaw h = _
      rw [intoRaw, if_neg (not_not.mpr huniq)]
      simp only [hinit, unwrapOk_ok, ok_bind]
    · refine .succeed ⟨?_, hσ.weak_eq, hσ.val, fun _ => huniq, ?_, ?_⟩ (by simp) (by simp)
        ((hσ.isUnique_iff hen).mp huniq) Or.inl ⟨rfl, rfl⟩
      · show σ.box.strong = (σ.rcs.erase h).card + 1
        rw [Finset.card_erase_of_mem hen]
        omega
      · intro init' hinit'
        rw [← Option.some.inj hinit']
        exact hspan
      · exact fun hne => absurd hret hne
  · refine ⟨σ, .refused, if_pos huniq, .refuse hσ fun hg => huniq ?_⟩
    exact (hσ.isUnique_iff hen).mpr hg

theorem fromRaw_effect {v : V} {new : H} (hen : σ.Callable (.fromRaw v new)) :
    ∃ σ' r, σ.exec b (.fromRaw v new) = .ok (σ', r) ∧ Effect σ (.fromRaw v new) σ' r := by
  obtain ⟨init, hraw⟩ := Option.ne_none_iff_exists'.mp hen
  have huniq := hσ.raw_unique hen
  have hstrong := hσ.strong_eq
  have hweak := hσ.weak_eq
  have hpending : σ.pending = 1 := if_pos (by rw [hraw]; rfl)
  have hrcs : σ.rcs = ∅ := Finset.card_eq_zero.mp (by have := huniq.1; omega)
  have hspan := hσ.raw_span init hraw
  have hfits : fits init.ptr init.len B.box.toLayout := by
    have hptr : init.ptr = σ.inner.ptr := congrArg Span.start hspan
    have hlen : init.len = σ.inner.len := congrArg Span.size hspan
    rw [hptr, hlen]
    exact inner_fits σ
  obtain ⟨inner, hinner, -⟩ := UninitView.cast_ok hfits
  obtain ⟨u, -, hfates⟩ := hσ.val.stored (by have := huniq.1; omega)
  refine ⟨{ σ with
        inner := inner
        box := { σ.box with val := .stored v }
        rcs := insert new σ.rcs
        raw := none }, .done, ?_, ?_⟩
  · show σ.fromRaw b v new = _
    rw [fromRaw, hraw]
    simp only [debugAssert_true hfits, hinner, unwrapOk_ok, ok_bind]
  · refine .succeed ⟨?_, hσ.weak_eq, ?_, ?_, ?_, hσ.returned_last⟩ (by simp) (by simp) trivial ?_
      ⟨rfl, rfl⟩
    · show σ.box.strong = (insert new σ.rcs).card + 0
      rw [hrcs, Finset.card_insert_of_notMem (Finset.notMem_empty _)]
      exact huniq.1
    · show 0 < σ.box.strong ∧ σ.fates = []
      exact ⟨by have := huniq.1; omega, hfates⟩
    · exact fun hne => absurd rfl hne
    · exact fun init' hinit' => absurd hinit' (by simp)
    · rintro ⟨v', hv'⟩
      exact absurd hv' (by simp)

theorem drop_effect {h : H} (hen : σ.Callable (.drop h)) :
    ∃ σ' r, σ.exec b (.drop h) = .ok (σ', r) ∧ Effect σ (.drop h) σ' r := by
  obtain ⟨hstrong, hpos⟩ := hσ.strong_of_rc hen
  obtain ⟨hpending, hraw, hret⟩ := hσ.settled (Or.inl ⟨h, hen⟩)
  obtain ⟨v, hv, hfates⟩ := hσ.stored_of_rc hen
  have hweak := hσ.weak_of_rc hen
  have hcard : (σ.rcs.erase h).card = σ.rcs.card - 1 := Finset.card_erase_of_mem hen
  by_cases hlast : σ.box.strong - 1 = 0
  · refine ⟨{ σ with
          box := ⟨.dropping v, σ.box.strong - 1, σ.box.weak - 1⟩
          rcs := σ.rcs.erase h }, .done, ?_, ?_⟩
    · show σ.drop b h = _
      rw [drop, RcBox.decStrong, subUsize_of_le (by omega)]
      simp only [ok_bind, if_pos hlast, RcBox.decWeak, RcBox.read, hv,
        subUsize_of_le (show 1 ≤ σ.box.weak by omega)]
    · refine .succeed (.of_settled ?_ ?_ ?_ hraw hret) (by simp) (by simp) trivial
        (fun _ => Or.inr ⟨h, rfl⟩) ⟨rfl, rfl⟩
      · show σ.box.strong - 1 = (σ.rcs.erase h).card + σ.pending
        omega
      · show σ.box.weak - 1 = σ.weaks.card + if 0 < σ.box.strong - 1 then 1 else 0
        rw [if_neg (by omega)]
        omega
      · exact ⟨hlast, hfates⟩
  · refine ⟨{ σ with
          box := { σ.box with strong := σ.box.strong - 1 }
          rcs := σ.rcs.erase h }, .done, ?_, ?_⟩
    · show σ.drop b h = _
      rw [drop, RcBox.decStrong, subUsize_of_le (by omega)]
      simp only [ok_bind, if_neg hlast]
    · refine .succeed (.of_settled ?_ ?_ ?_ hraw hret) (by simp) (by simp) trivial
        (fun _ => Or.inr ⟨h, rfl⟩) ⟨rfl, rfl⟩
      · show σ.box.strong - 1 = (σ.rcs.erase h).card + σ.pending
        omega
      · show σ.box.weak = σ.weaks.card + if 0 < σ.box.strong - 1 then 1 else 0
        rw [if_pos (by omega)]
        omega
      · show σ.box.val.Accounted (σ.box.strong - 1) σ.fates
        rw [hv, hfates]
        exact ⟨by omega, rfl⟩

theorem dropEnd_effect (hen : σ.Callable .dropEnd) :
    ∃ σ' r, σ.exec b .dropEnd = .ok (σ', r) ∧ Effect σ .dropEnd σ' r := by
  obtain ⟨v, hv⟩ := hen
  have hval := hσ.val
  rw [hv] at hval
  refine ⟨{ σ with
        box := { σ.box with val := .gone }
        fates := .dropped v :: σ.fates }, .done, ?_, ?_⟩
  · show σ.dropEnd = _
    rw [dropEnd, hv]
  · refine .succeed ⟨hσ.strong_eq, hσ.weak_eq, ?_, hσ.raw_unique, hσ.raw_span,
      hσ.returned_last⟩ (by simp) (by simp) trivial ?_ ⟨rfl, rfl⟩
    · show σ.box.strong = 0 ∧ (Fate.dropped v :: σ.fates).length = 1
      rw [hval.2]
      exact ⟨hval.1, rfl⟩
    · rintro ⟨v', hv'⟩
      exact absurd hv' (by simp)

theorem weakTryUnwrap_effect {h : H} (hen : σ.Callable (.weakTryUnwrap h)) :
    ∃ σ' r, σ.exec b (.weakTryUnwrap h) = .ok (σ', r) ∧ Effect σ (.weakTryUnwrap h) σ' r := by
  obtain ⟨hpending, hraw, hret⟩ := hσ.settled (Or.inr ⟨h, hen⟩)
  by_cases huniq : σ.box.isUniqueToRcMemory
  · obtain ⟨hzero, hone⟩ := huniq
    let memory := UninitView.fromMemory σ.inner.ptr σ.inner.len σ.inner.nonnull σ.inner.word
    refine ⟨{ σ with
          box := { σ.box with weak := σ.box.weak - 1 }
          weaks := σ.weaks.erase h
          returned := some memory }, .memory memory, ?_, ?_⟩
    · show σ.weakTryUnwrap b h = _
      rw [weakTryUnwrap, if_neg (not_not.mpr ⟨hzero, hone⟩), RcBox.decWeak,
        subUsize_of_le (by omega)]
      rfl
    · refine .succeed ⟨hσ.strong_eq, ?_, hσ.val, ?_, hσ.raw_span, ?_⟩ (by simp) (by simp)
        ((hσ.isUniqueToRcMemory_iff hen).mp ⟨hzero, hone⟩) Or.inl ⟨rfl, rfl⟩
      · show σ.box.weak - 1 = (σ.weaks.erase h).card + if 0 < σ.box.strong then 1 else 0
        have hweak := hσ.weak_eq
        rw [Finset.card_erase_of_mem hen]
        rw [if_neg (by omega)] at hweak ⊢
        omega
      · exact fun hne => absurd hraw hne
      · intro _
        show σ.box.strong = 0 ∧ σ.box.weak - 1 = 0
        omega
  · refine ⟨σ, .refused, if_pos huniq, .refuse hσ fun hg => huniq ?_⟩
    exact (hσ.isUniqueToRcMemory_iff hen).mpr hg

/-- **The step lemma.**  An operation that may be called, and does not overflow a counter,
returns, keeps the invariant, and succeeds or leaves everything as it was, as the handles
decide. -/
theorem callable_effect {op : Op H V} (hen : σ.Callable op) (hno : σ.NoWrap op) :
    ∃ σ' r, σ.exec b op = .ok (σ', r) ∧ Effect σ op σ' r := by
  cases op with
  | clone h new => exact clone_effect b hσ hen hno
  | drop h => exact drop_effect b hσ hen
  | dropEnd => exact dropEnd_effect b hσ hen
  | downgrade h new => exact downgrade_effect b hσ hen hno
  | tryUnwrap h new => exact tryUnwrap_effect b hσ hen
  | intoRaw h => exact intoRaw_effect b hσ hen
  | fromRaw v new => exact fromRaw_effect b hσ hen
  | getMut h v => exact getMut_effect b hσ hen
  | weakClone h new => exact weakClone_effect b hσ hen hno
  | weakDrop h => exact weakDrop_effect b hσ hen
  | upgrade h new => exact upgrade_effect b hσ hen hno
  | weakTryUnwrap h => exact weakTryUnwrap_effect b hσ hen

/-- What such an operation returned is what it does. -/
theorem effect_of_callable {op : Op H V} (hen : σ.Callable op) (hno : σ.NoWrap op)
    {σ' : World B H V} {r : Reply B V} (hexec : σ.exec b op = .ok (σ', r)) :
    Effect σ op σ' r := by
  obtain ⟨σ'', r', hexec', heff⟩ := callable_effect b hσ hen hno
  obtain ⟨rfl, rfl⟩ := ok_pair_inj (hexec'.symm.trans hexec)
  exact heff

omit [DecidableEq H] in
/-- With fewer handles than a counter can count, none overflows. -/
theorem Enabled.callable {op : Op H V} (hen : σ.Enabled op) : σ.Callable op ∧ σ.NoWrap op := by
  have hword := usizeMax_lt w
  cases op with
  | clone h new =>
    obtain ⟨hh, hnew, hroom⟩ := hen
    have hstrong := (hσ.strong_of_rc hh).1
    rw [Room] at hroom
    exact ⟨⟨hh, hnew⟩, show σ.box.strong + 1 < 2 ^ w by omega⟩
  | downgrade h new =>
    obtain ⟨hh, hnew, hroom⟩ := hen
    have hweak := hσ.weak_of_rc hh
    have hstrong := hσ.strong_of_rc hh
    rw [Room] at hroom
    exact ⟨⟨hh, hnew⟩, show σ.box.weak + 1 < 2 ^ w by omega⟩
  | weakClone h new =>
    obtain ⟨hh, hnew, hroom⟩ := hen
    have hstrong := hσ.strong_of_weak hh
    have hweak := hσ.weak_eq
    rw [Room] at hroom
    have hone : σ.box.weak ≤ σ.weaks.card + σ.rcs.card := by
      split at hweak <;> omega
    exact ⟨⟨hh, hnew⟩, show σ.box.weak + 1 < 2 ^ w by omega⟩
  | upgrade h new =>
    obtain ⟨hh, hnew, hroom⟩ := hen
    have hstrong := hσ.strong_of_weak hh
    rw [Room] at hroom
    exact ⟨⟨hh, hnew⟩, Or.inr (show σ.box.strong + 1 < 2 ^ w by omega)⟩
  | _ => exact ⟨hen, trivial⟩

/-- The step lemma with room for one more handle. -/
theorem exec_effect {op : Op H V} (hen : σ.Enabled op) :
    ∃ σ' r, σ.exec b op = .ok (σ', r) ∧ Effect σ op σ' r :=
  have h := Enabled.callable hσ hen
  callable_effect b hσ h.1 h.2

end World

/-! ## Runs -/

variable {b : Build}

/-- `Rc::new` makes the one handle, and both counters are one. -/
theorem new_invariant {val : V} {memory : UninitView (Ty.unit w)} {h : H} {σ : World B H V}
    (hnew : new B val memory h = .ok σ) : σ.Invariant ∧ σ.box.val = .stored val := by
  by_cases hfits : fits memory.ptr memory.len B.box.toLayout
  · obtain ⟨inner, hinner, -⟩ := UninitView.cast_ok hfits
    rw [new, assert_true hfits] at hnew
    simp only [ok_bind, hinner, unwrapOk_ok] at hnew
    obtain rfl := Except.ok.inj hnew
    exact ⟨⟨by simp [World.pending], by simp, ⟨Nat.one_pos, rfl⟩, fun hne => absurd rfl hne,
      fun init hinit => absurd hinit (by simp), fun hne => absurd rfl hne⟩, rfl⟩
  · rw [new, assert_false hfits] at hnew
    exact absurd hnew (by simp)

variable [DecidableEq H]

/-- **The run lemma.**  The counters count the handles in every reachable state,
also while the destructor of the value is running. -/
theorem reachable_invariant {σ : World B H V} (h : (machine B H V b).Reachable σ) :
    σ.Invariant := by
  refine Machine.Reachable.invariant ?_ ?_ h
  · rintro σ ⟨val, memory, h, hnew⟩
    exact (new_invariant hnew).1
  · rintro σ op σ' - hσ ⟨hen, r, hexec⟩
    obtain ⟨hcall, hno⟩ := World.Enabled.callable hσ hen
    exact (World.effect_of_callable b hσ hcall hno hexec).invariant

/-! ## A destructor that leaves the handles alone -/

/-- `Rc::drop` with a destructor that does not touch the handles: if it starts,
it returns before anything else happens. -/
def World.dropAtOnce (b : Build) (σ : World B H V) (h : H) :
    Except Stop (World B H V × Reply B V) := do
  let (σ', r) ← σ.drop b h
  match σ'.box.val with
  | .dropping _ => σ'.dropEnd
  | _ => .ok (σ', r)

/-- An operation on a box whose value has such a destructor. -/
def World.execPlain (b : Build) (σ : World B H V) :
    Op H V → Except Stop (World B H V × Reply B V)
  | .drop h => σ.dropAtOnce b h
  | op => σ.exec b op

/-- The life of a box whose value has such a destructor. -/
def plainMachine (B : Types w) (H V : Type) [DecidableEq H] (b : Build) :
    Machine (World B H V) (Op H V) where
  init σ := ∃ val memory h, new B val memory h = .ok σ
  step σ op σ' := σ.Enabled op ∧ ∃ r, σ.execPlain b op = .ok (σ', r)

/-- No destructor is running. -/
def World.AtRest (σ : World B H V) : Prop := ¬ ∃ v, σ.box.val = .dropping v

/-- Between two operations of such a box no destructor runs, and the effect of an
operation is the one it has in general. -/
theorem World.execPlain_effect {σ : World B H V} (hσ : σ.Invariant) (hrest : σ.AtRest)
    {op : Op H V} (hen : σ.Enabled op) :
    ∃ σ' r, σ.execPlain b op = .ok (σ', r) ∧ Effect σ op σ' r ∧ σ'.AtRest := by
  obtain ⟨σ₁, r₁, hexec, heff⟩ := exec_effect b hσ hen
  by_cases hdrop : ∃ h, op = .drop h
  · obtain ⟨h, rfl⟩ := hdrop
    have hplain : σ.execPlain b (.drop h) =
        match σ₁.box.val with
        | .dropping _ => σ₁.dropEnd
        | _ => .ok (σ₁, r₁) := by
      show σ.dropAtOnce b h = _
      rw [dropAtOnce, show σ.drop b h = .ok (σ₁, r₁) from hexec]
      rfl
    by_cases hval : ∃ v, σ₁.box.val = .dropping v
    · obtain ⟨σ₂, r₂, hexec₂, heff₂⟩ := dropEnd_effect b heff.invariant hval
      have hend : σ₁.dropEnd = .ok (σ₂, r₂) := hexec₂
      obtain ⟨v, hv⟩ := hval
      have hr₁ : r₁ ≠ .refused := fun hr => heff.refused_iff.mp hr trivial
      have hr₂ : r₂ ≠ .refused := fun hr => heff₂.refused_iff.mp hr trivial
      have hhandles : σ₂.rcs = σ₁.rcs ∧ σ₂.weaks = σ₁.weaks := heff₂.handles hr₂
      rw [(heff.handles hr₁).1, (heff.handles hr₁).2] at hhandles
      have hmem : (∃ mem, r₂ = .memory mem) ↔ ∃ h', Op.drop (V := V) h = .weakTryUnwrap h' :=
        iff_of_false (fun hm => absurd (heff₂.memory_iff.mp hm).2 (by simp)) (by simp)
      refine ⟨σ₂, r₂, ?_, .succeed heff₂.invariant hr₂ hmem trivial (fun _ => Or.inr ⟨h, rfl⟩)
        hhandles, ?_⟩
      · rw [hplain, hv]
        exact hend
      · rw [dropEnd, hv] at hend
        obtain ⟨rfl, -⟩ := ok_pair_inj hend
        rintro ⟨v', hv'⟩
        exact absurd hv' (by simp)
    · refine ⟨σ₁, r₁, ?_, heff, hval⟩
      rw [hplain]
      split
      · rename_i v hv
        exact absurd ⟨v, hv⟩ hval
      · rfl
  · have hplain : σ.execPlain b op = σ.exec b op := by
      cases op with
      | drop h => exact absurd ⟨h, rfl⟩ hdrop
      | _ => rfl
    refine ⟨σ₁, r₁, hplain.trans hexec, heff, fun hval => ?_⟩
    rcases heff.dropping hval with h | h
    · exact hrest h
    · exact hdrop h

theorem plain_reachable_invariant {σ : World B H V} (h : (plainMachine B H V b).Reachable σ) :
    σ.Invariant ∧ σ.AtRest := by
  refine Machine.Reachable.invariant (I := fun σ => σ.Invariant ∧ σ.AtRest) ?_ ?_ h
  · rintro σ ⟨val, memory, h, hnew⟩
    obtain ⟨hσ, hval⟩ := new_invariant hnew
    refine ⟨hσ, ?_⟩
    rintro ⟨v, hv⟩
    rw [hval] at hv
    exact absurd hv (by simp)
  · rintro σ op σ' - ⟨hσ, hrest⟩ ⟨hen, r, hexec⟩
    obtain ⟨σ'', r', hexec', heff, hrest'⟩ := World.execPlain_effect hσ hrest hen
    rw [hexec] at hexec'
    obtain ⟨rfl, -⟩ := ok_pair_inj hexec'
    exact ⟨heff.invariant, hrest'⟩

/-- **The counters of an `Rc` box are right.**  In every state that any sequence
of operations on one box can reach, in either build profile: `strong` is the
number of live `Rc`s (counting the one whose memory the caller holds between
`into_raw` and `from_raw`), `weak` is the number of live `Weak`s and one more
while `strong` is positive, the value is initialized exactly while `strong` is
positive, and after that has been dropped or moved out exactly once.  Every
operation a handle allows returns, so no counter underflows; `into_raw` and
`get_mut` succeed exactly on the only handle of either kind, `Rc::try_unwrap` on
the only `Rc`, `Weak::try_unwrap` on the last handle of all; an operation that
succeeds takes and makes the handles it should, and one that fails changes nothing. -/
theorem counters_count (B : Types w) (b : Build) {σ : World B H V}
    (h : (plainMachine B H V b).Reachable σ) :
    σ.box.strong = σ.rcs.card + (if σ.raw.isSome then 1 else 0) ∧
      σ.box.weak = σ.weaks.card + (if 0 < σ.box.strong then 1 else 0) ∧
      ((∃ v, σ.box.val = .stored v) ↔ 0 < σ.box.strong) ∧
      σ.fates.length = (if 0 < σ.box.strong then 0 else 1) ∧
      ∀ op, σ.Enabled op → ∃ σ' r, σ.execPlain b op = .ok (σ', r) ∧
        (r ≠ .refused ↔ σ.Grants op) ∧
        (r ≠ .refused → σ'.rcs = σ.rcsAfter op ∧ σ'.weaks = σ.weaksAfter op) ∧
        (r = .refused → σ' = σ) := by
  obtain ⟨hσ, hrest⟩ := plain_reachable_invariant h
  refine ⟨hσ.strong_eq, hσ.weak_eq, hσ.val.stored_iff, ?_, fun op hen => ?_⟩
  · have hval := hσ.val
    cases hv : σ.box.val with
    | stored v =>
      rw [hv] at hval
      rw [if_pos hval.1, hval.2]
      rfl
    | dropping v => exact absurd ⟨v, hv⟩ hrest
    | gone =>
      rw [hv] at hval
      rw [if_neg (by have := hval.1; omega)]
      exact hval.2
  · obtain ⟨σ', r, hexec, heff, -⟩ := World.execPlain_effect hσ hrest hen
    exact ⟨σ', r, hexec, by rw [ne_eq, heff.refused_iff, not_not], heff.handles,
      heff.unchanged⟩

/-- The types of an `Rc` whose value is two words, on a 64-bit target. -/
def twoWords : Types 64 where
  T := Ty.twoWords
  usize := Ty.word
  box := ⟨⟨32, 8, Layout.isPowerOfTwo_eight, by decide⟩, ⟨4, rfl⟩⟩
  box_eq := by decide

/-- A fresh box of this kind at address 4096, with the value `7`. -/
def twoWords.fresh : World twoWords ℕ ℕ where
  inner := ⟨4096, 32, page_pos, by decide, by decide, by decide⟩
  box := ⟨.stored 7, 1, 1⟩
  rcs := {0}
  weaks := ∅
  raw := none
  returned := none
  fates := []

theorem twoWords.new_eq :
    new (H := ℕ) twoWords 7 (UninitView.fromMemory 4096 32 (by decide) (by decide)) 0 =
      .ok twoWords.fresh := rfl

/-- The box after a clone and a downgrade. -/
def twoWords.shared : World twoWords ℕ ℕ where
  inner := twoWords.fresh.inner
  box := ⟨.stored 7, 2, 2⟩
  rcs := {1, 0}
  weaks := {2}
  raw := none
  returned := none
  fates := []

theorem twoWords.reachable_shared :
    (plainMachine twoWords ℕ ℕ .debug).Reachable twoWords.shared := by
  have hnew : (plainMachine twoWords ℕ ℕ .debug).Reachable twoWords.fresh :=
    Machine.Reachable.of_init ⟨_, _, _, twoWords.new_eq⟩
  let cloned : World twoWords ℕ ℕ := { twoWords.shared with box := ⟨.stored 7, 2, 1⟩, weaks := ∅ }
  have hclone : (plainMachine twoWords ℕ ℕ .debug).step twoWords.fresh (.clone 0 1) cloned :=
    ⟨⟨by decide, by decide, by decide⟩, _, rfl⟩
  have hdowngrade : (plainMachine twoWords ℕ ℕ .debug).step cloned (.downgrade 1 2)
      twoWords.shared := ⟨⟨by decide, by decide, by decide⟩, _, rfl⟩
  exact (hnew.tail hclone).tail hdowngrade

/-- A shared `Rc` is not made raw, and dropping the other one leaves it and the `Weak`. -/
theorem counters_count_shared :
    twoWords.shared.execPlain .debug (.intoRaw 1) = .ok (twoWords.shared, .refused) ∧
    ∃ σ r, twoWords.shared.execPlain .debug (.drop 0) = .ok (σ, r) ∧ σ.rcs = {1} ∧
      σ.weaks = {2} := by
  obtain ⟨-, -, -, -, hops⟩ := counters_count twoWords .debug twoWords.reachable_shared
  constructor
  · have hlive : 1 ∈ twoWords.shared.rcs := by decide
    obtain ⟨σ, r, hexec, hgrants, -, hsame⟩ := hops (.intoRaw 1) hlive
    have hshared : ¬ twoWords.shared.Grants (.intoRaw 1) := fun hg => by
      exact absurd hg.1 (by decide)
    obtain rfl : r = .refused := Classical.not_not.mp (mt hgrants.mp hshared)
    obtain rfl := hsame rfl
    exact hexec
  · have hlive : 0 ∈ twoWords.shared.rcs := by decide
    obtain ⟨σ, r, hexec, hgrants, hhandles, -⟩ := hops (.drop 0) hlive
    obtain ⟨hrcs, hweaks⟩ := hhandles (hgrants.mpr trivial)
    exact ⟨σ, r, hexec, hrcs.trans (by decide), hweaks⟩

end Rc
end StaticAlloc
