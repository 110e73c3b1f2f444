import StaticAlloc.FixedVec.Drain

/-!
# Which range `drain` drains

A range is two bounds, and each of them includes its index, excludes it or is not
there.  `drain` turns them into the half-open range of the elements to drain: an
excluded start and an included end are increased by one.  The two assertions come
after that.

`Bound.lower` and `Bound.upper` are the two ends in ℕ, where the successor of
`usize::MAX` is `2 ^ w`, past the end of every vector.  In a debug build that `+`
panics, so `drain` keeps to these ends whatever the bounds are (`drain_debug`).
In a release build it wraps to zero, and zero is an index that the assertions may
well accept: `Wrapped` is when they do.  These are the only ranges of which
`drain` drains a part that was not asked for (`drain_resolves_iff`).
-/

namespace StaticAlloc
namespace FixedVec

open Toolkit

variable {w : ℕ} {α : Type}

/-! ## The ends of a range -/

namespace Bound

/-- The index of a bound is a `usize`. -/
def IsUsize (w : ℕ) : Bound → Prop
  | included n | excluded n => n < 2 ^ w
  | unbounded => True

/-- The first index of a range that starts here. -/
def lower : Bound → ℕ
  | included n => n
  | excluded n => n + 1
  | unbounded => 0

/-- The index behind the last of a range that ends here, in a vector of `len` elements. -/
def upper (len : ℕ) : Bound → ℕ
  | included n => n + 1
  | excluded n => n
  | unbounded => len

end Bound

/-- The successor of `usize::MAX` wraps, and the assertions accept the outcome: the
start is behind `usize::MAX` and the end is in the vector or wraps as well, or the
end includes `usize::MAX` and the start is zero. -/
def Wrapped (w len : ℕ) (range : Bound × Bound) : Prop :=
  (range.1 = .excluded (usizeMax w) ∧
    (range.2 = .included (usizeMax w) ∨ range.2.upper len ≤ len)) ∨
  (range.2 = .included (usizeMax w) ∧ range.1.lower = 0)

instance (w len : ℕ) (range : Bound × Bound) : Decidable (Wrapped w len range) :=
  inferInstanceAs (Decidable (_ ∨ _))

section Ends

variable {n len : ℕ} {b : Bound}

theorem succ_usizeMax (w : ℕ) : usizeMax w + 1 = 2 ^ w :=
  Nat.sub_add_cancel (Nat.two_pow_pos w)

/-- The successor of a `usize` in a release build. -/
theorem succ_mod (h : n < 2 ^ w) (hne : n ≠ usizeMax w) : (n + 1) % 2 ^ w = n + 1 := by
  have hmax := succ_usizeMax w
  exact Nat.mod_eq_of_lt (by omega)

/-- No other start is changed by wrapping. -/
theorem lower_mod (h : b.IsUsize w) (hne : b ≠ .excluded (usizeMax w)) :
    b.lower % 2 ^ w = b.lower := by
  cases b with
  | included n => exact Nat.mod_eq_of_lt h
  | excluded n => exact succ_mod h fun hc => hne (congrArg Bound.excluded hc)
  | unbounded => exact Nat.zero_mod _

/-- No other end is changed by wrapping. -/
theorem upper_mod (h : b.IsUsize w) (hlen : len < 2 ^ w) (hne : b ≠ .included (usizeMax w)) :
    b.upper len % 2 ^ w = b.upper len := by
  cases b with
  | included n => exact succ_mod h fun hc => hne (congrArg Bound.included hc)
  | excluded n => exact Nat.mod_eq_of_lt h
  | unbounded => exact Nat.mod_eq_of_lt hlen

theorem startBound_release (h : b.IsUsize w) :
    startBound .release w b = .ok (b.lower % 2 ^ w) := by
  cases b with
  | included n => exact congrArg Except.ok (Nat.mod_eq_of_lt h).symm
  | excluded n => exact addUsize_release
  | unbounded => exact congrArg Except.ok (Nat.zero_mod _).symm

theorem endBound_release (h : b.IsUsize w) (hlen : len < 2 ^ w) :
    endBound .release w len b = .ok (b.upper len % 2 ^ w) := by
  cases b with
  | included n => exact addUsize_release
  | excluded n => exact congrArg Except.ok (Nat.mod_eq_of_lt h).symm
  | unbounded => exact congrArg Except.ok (Nat.mod_eq_of_lt hlen).symm

/-- A debug build resolves a start as it is, or panics because it is too large. -/
theorem startBound_debug (b : Bound) (w : ℕ) :
    startBound .debug w b = .ok b.lower ∨
      2 ^ w ≤ b.lower ∧ ∃ msg, startBound .debug w b = .error (.panic msg) := by
  cases b with
  | included n => exact Or.inl rfl
  | excluded n =>
    by_cases h : n + 1 < 2 ^ w
    · exact Or.inl (addUsize_of_lt (b := .debug) h)
    · exact Or.inr ⟨Nat.le_of_not_lt h, _, if_neg h⟩
  | unbounded => exact Or.inl rfl

theorem endBound_debug (b : Bound) (w len : ℕ) :
    endBound .debug w len b = .ok (b.upper len) ∨
      2 ^ w ≤ b.upper len ∧ ∃ msg, endBound .debug w len b = .error (.panic msg) := by
  cases b with
  | included n =>
    by_cases h : n + 1 < 2 ^ w
    · exact Or.inl (addUsize_of_lt (b := .debug) h)
    · exact Or.inr ⟨Nat.le_of_not_lt h, _, if_neg h⟩
  | excluded n => exact Or.inl rfl
  | unbounded => exact Or.inl rfl

/-- A range that does not lie in the vector is taken for one that does, in a
release build, exactly if it is `Wrapped`. -/
theorem wrapped_iff {range : Bound × Bound} (hlen : len < 2 ^ w) (h₁ : range.1.IsUsize w)
    (h₂ : range.2.IsUsize w) :
    Wrapped w len range ↔
      ¬ (range.1.lower ≤ range.2.upper len ∧ range.2.upper len ≤ len) ∧
        range.1.lower % 2 ^ w ≤ range.2.upper len % 2 ^ w ∧ range.2.upper len % 2 ^ w ≤ len := by
  have hmax := succ_usizeMax w
  obtain ⟨b₁, b₂⟩ := range
  simp only [Wrapped] at h₁ h₂ ⊢
  by_cases hs : b₁ = .excluded (usizeMax w)
  · have hlower : b₁.lower = 2 ^ w := by rw [hs, Bound.lower, hmax]
    by_cases he : b₂ = .included (usizeMax w)
    · have hupper : b₂.upper len = 2 ^ w := by rw [he, Bound.upper, hmax]
      rw [hlower, hupper, Nat.mod_self]
      simp only [hs, he, true_and, true_or, true_iff]
      omega
    · rw [hlower, Nat.mod_self, upper_mod h₂ hlen he]
      simp only [hs, he, true_and, false_or, false_and, or_false]
      omega
  · rw [lower_mod h₁ hs]
    by_cases he : b₂ = .included (usizeMax w)
    · have hupper : b₂.upper len = 2 ^ w := by rw [he, Bound.upper, hmax]
      rw [hupper, Nat.mod_self]
      simp only [hs, he, true_and, false_and, false_or]
      omega
    · rw [upper_mod h₂ hlen he]
      simp only [hs, he, false_and, false_or, or_self, false_iff]
      omega

end Ends

/-! ## What `drain` does with a range -/

section Drain

variable {E : Element w α} {m : Cells α} {v : FixedVec E.ty} {b : Bounded α} {start stop : ℕ}

/-- Draining the elements from `start` up to `stop`: the vector is those in front
of them, the iterator has them and no others, and yields or drops each of them
once, and then the vector is the elements before and behind them. -/
structure DrainsRange (E : Element w α) (m : Cells α) (v : FixedVec E.ty) (b : Bounded α)
    (start stop : ℕ) (hle : start ≤ stop) (v₁ : FixedVec E.ty) (d : Drain E.ty) : Prop where
  front : Holds E m v₁ (b.take start)
  remaining : d.Remaining E m (b.range start stop)
  removed : ∀ calls : List Drain.Call, ∃ d' replies m' v₂ dropped,
    d.run m calls = .ok (d', replies) ∧
      d'.drop m (fun _ => false) v₁ = .ok (m', v₂, dropped, false) ∧
      (b.range start stop).Perm (Drain.yielded replies ++ dropped) ∧
      Holds E m' v₂ (b.remove start stop hle) ∧ v₂.uninit = v.uninit

/-- `drain` resolves a range correctly: it drains the elements from the first end up
to the second if these are in the vector, and panics if they are not. -/
def Resolves (E : Element w α) (m : Cells α) (v : FixedVec E.ty) (b : Bounded α) (build : Build)
    (range : Bound × Bound) : Prop :=
  (∀ hle : range.1.lower ≤ range.2.upper v.length, range.2.upper v.length ≤ v.length →
    ∃ v₁ d, v.drain build range = .ok (v₁, d) ∧
      DrainsRange E m v b range.1.lower (range.2.upper v.length) hle v₁ d) ∧
  (¬ (range.1.lower ≤ range.2.upper v.length ∧ range.2.upper v.length ≤ v.length) →
    ∃ msg, v.drain build range = .error (.panic msg))

/-- The length of a vector is a `usize`. -/
theorem Holds.length_lt (h : Holds E m v b) : v.length < 2 ^ w :=
  (h.length_le.trans v.uninit.capacity_le).trans_lt (usizeMax_lt w)

/-- Only the resolved ends matter. -/
theorem drain_of_ends {build : Build} {range : Bound × Bound}
    (hstart : startBound build w range.1 = .ok start)
    (hstop : endBound build w v.length range.2 = .ok stop) :
    v.drain build range = v.drain build (.included start, .excluded stop) := by
  rw [drain, drain, hstart, hstop]
  rfl

/-- The assertions. -/
theorem drain_outside (v : FixedVec E.ty) (build : Build)
    (h : ¬ (start ≤ stop ∧ stop ≤ v.length)) :
    ∃ msg, v.drain build (.included start, .excluded stop) = .error (.panic msg) := by
  rw [drain]
  simp only [startBound, endBound, ok_bind]
  by_cases hle : start ≤ stop
  · rw [if_pos hle, if_neg fun hc => h ⟨hle, hc⟩]
    exact ⟨_, rfl⟩
  · rw [if_neg hle]
    exact ⟨_, rfl⟩

/-- Resolved ends that lie in the vector are what is drained. -/
theorem drain_inside (h : Holds E m v b) (build : Build) (hle : start ≤ stop)
    (hstop : stop ≤ v.length) :
    ∃ v₁ d, v.drain build (.included start, .excluded stop) = .ok (v₁, d) ∧
      DrainsRange E m v b start stop hle v₁ d := by
  obtain ⟨d, hdrain, hd, hl⟩ := drain_ok h build hle hstop
  refine ⟨_, d, hdrain, h.shorten (hle.trans hstop), hl, fun calls => ?_⟩
  obtain ⟨d', replies, hrun, -, -, m', v₂, hdrop, hperm, hholds, huninit⟩ :=
    hd.run_drop h hle hstop hl calls
  exact ⟨d', replies, m', v₂, _, hrun, hdrop, hperm, hholds, huninit⟩

/-- Ends that are resolved correctly. -/
theorem resolves_of_ends (h : Holds E m v b) {build : Build} {range : Bound × Bound}
    (hstart : startBound build w range.1 = .ok range.1.lower)
    (hstop : endBound build w v.length range.2 = .ok (range.2.upper v.length)) :
    Resolves E m v b build range := by
  rw [Resolves, drain_of_ends hstart hstop]
  exact ⟨fun hle hin => drain_inside h build hle hin, drain_outside v build⟩

/-- An end that is no `usize` is behind every vector. -/
theorem resolves_of_panic (h : Holds E m v b) {build : Build} {range : Bound × Bound}
    (hout : 2 ^ w ≤ range.1.lower ∨ 2 ^ w ≤ range.2.upper v.length)
    (hpanic : ∃ msg, v.drain build range = .error (.panic msg)) : Resolves E m v b build range := by
  have hlen := h.length_lt
  exact ⟨fun hle hin => by omega, fun _ => hpanic⟩

/-- A debug build resolves every range correctly. -/
theorem drain_debug (h : Holds E m v b) (range : Bound × Bound) :
    Resolves E m v b .debug range := by
  rcases startBound_debug range.1 w with hstart | ⟨hout, msg, hstart⟩
  · rcases endBound_debug range.2 w v.length with hstop | ⟨hout, msg, hstop⟩
    · exact resolves_of_ends h hstart hstop
    · refine resolves_of_panic h (Or.inr hout) ⟨msg, ?_⟩
      rw [drain, hstart, hstop]
      rfl
  · refine resolves_of_panic h (Or.inl hout) ⟨msg, ?_⟩
    rw [drain, hstart]
    rfl

/-- **`drain` in a release build resolves a range correctly exactly if it is not
`Wrapped`.**  The vector may hold anything, and the bounds be of any kind, at any
`usize`. -/
theorem drain_resolves_iff (h : Holds E m v b) {range : Bound × Bound} (h₁ : range.1.IsUsize w)
    (h₂ : range.2.IsUsize w) :
    Resolves E m v b .release range ↔ ¬ Wrapped w v.length range := by
  have hlen := h.length_lt
  have hends := drain_of_ends (startBound_release h₁) (endBound_release h₂ hlen)
  rw [wrapped_iff hlen h₁ h₂]
  by_cases hin : range.1.lower ≤ range.2.upper v.length ∧ range.2.upper v.length ≤ v.length
  · -- neither end wraps
    refine iff_of_true ?_ fun hc => hc.1 hin
    refine resolves_of_ends h ?_ ?_
    · rw [startBound_release h₁, Nat.mod_eq_of_lt (by omega)]
    · rw [endBound_release h₂ hlen, Nat.mod_eq_of_lt (by omega)]
  · constructor
    · rintro ⟨-, hpanic⟩ ⟨-, hle, hstop⟩
      obtain ⟨msg, hmsg⟩ := hpanic hin
      obtain ⟨v₁, d, hdrain, -⟩ := drain_inside h .release hle hstop
      rw [hends, hdrain] at hmsg
      exact absurd hmsg (by simp)
    · intro hc
      refine ⟨fun hle hstop => absurd ⟨hle, hstop⟩ hin, fun _ => ?_⟩
      rw [hends]
      exact drain_outside v .release fun hacc => hc ⟨hin, hacc⟩

/-- Behind the first of three elements, the last one included. -/
theorem drain_resolves_iff_halfWords :
    Resolves halfWords halfWords.cells halfWords.full halfWords.list .release
      (.excluded 0, .included 2) := by
  refine Iff.mpr (drain_resolves_iff halfWords.full_holds ?_ ?_) ?_
  · show 0 < 2 ^ 64
    decide
  · show 2 < 2 ^ 64
    decide
  · decide

/-- Behind `usize::MAX` there is nothing to drain, and all three elements are; up to
`usize::MAX` there are too many, and none is. -/
theorem drain_wraps :
    ¬ Resolves halfWords halfWords.cells halfWords.full halfWords.list .release
      (.excluded (usizeMax 64), .unbounded) ∧
    ¬ Resolves halfWords halfWords.cells halfWords.full halfWords.list .release
      (.unbounded, .included (usizeMax 64)) ∧
    (∃ v₁ d, halfWords.full.drain .release (.excluded (usizeMax 64), .unbounded) = .ok (v₁, d) ∧
      d.asSlice halfWords.cells = [some 5, some 6, some 7]) ∧
    ∃ v₁ d, halfWords.full.drain .release (.unbounded, .included (usizeMax 64)) = .ok (v₁, d) ∧
      d.asSlice halfWords.cells = [] := by
  have hall : halfWords.full.drain .release (.excluded (usizeMax 64), .unbounded) =
      .ok ({ halfWords.full with length := 0 },
        ⟨0, 3, 3, 0, 4096, Nat.zero_le _, le_rfl⟩) := rfl
  have hnone : halfWords.full.drain .release (.unbounded, .included (usizeMax 64)) =
      .ok ({ halfWords.full with length := 0 },
        ⟨0, 0, 0, 3, 4096, Nat.zero_le _, le_rfl⟩) := rfl
  refine ⟨fun ⟨_, hpanic⟩ => ?_, fun ⟨_, hpanic⟩ => ?_, ⟨_, _, hall, rfl⟩, ⟨_, _, hnone, rfl⟩⟩
  · obtain ⟨msg, hmsg⟩ := hpanic (by decide)
    rw [hall] at hmsg
    exact absurd hmsg (by simp)
  · obtain ⟨msg, hmsg⟩ := hpanic (by decide)
    rw [hnone] at hmsg
    exact absurd hmsg (by simp)

end Drain

end FixedVec
end StaticAlloc
