import Mathlib.Data.Nat.ModEq
import Mathlib.Tactic.Linarith

/-!
# Padding to a multiple

`padding n a` is the distance from `n` to the next multiple of `a`, and
`roundUp n a` is that multiple.  The two facts everything else rests on are that
the distance reaches a multiple (`dvd_add_padding`) and that no shorter one does
(`padding_le_of_dvd`); monotonicity of the rounded value in both the position
and the modulus follows from leastness alone.  `roundDown n a` is the last
multiple at or before `n`, and `le_roundDown` says that no later one is.
-/

namespace Toolkit

/-- The distance from `n` to the next multiple of `a` at or after it. -/
def padding (n a : ℕ) : ℕ := (a - n % a) % a

/-- The next multiple of `a` at or after `n`. -/
def roundUp (n a : ℕ) : ℕ := n + padding n a

variable {n m a b k : ℕ}

theorem padding_lt (ha : 0 < a) : padding n a < a := Nat.mod_lt _ ha

theorem dvd_add_padding (ha : 0 < a) : a ∣ n + padding n a := by
  unfold padding
  have hr := Nat.mod_lt n ha
  rcases Nat.eq_zero_or_pos (n % a) with h | h
  · rw [h, Nat.sub_zero, Nat.mod_self, Nat.add_zero]
    exact Nat.dvd_of_mod_eq_zero h
  · rw [Nat.mod_eq_of_lt (by omega : a - n % a < a)]
    have hsplit : n + (a - n % a) = a * (n / a) + a := by
      have := Nat.div_add_mod n a
      omega
    rw [hsplit]
    exact Nat.dvd_add (Nat.dvd_mul_right a _) (Nat.dvd_refl a)

/-- **Leastness.**  Any distance that reaches a multiple is at least the padding. -/
theorem padding_le_of_dvd (ha : 0 < a) (h : a ∣ n + k) : padding n a ≤ k := by
  by_contra hk
  have hlt := padding_lt (n := n) ha
  have hdiff : a ∣ padding n a - k := by
    have h₁ := Nat.dvd_sub (dvd_add_padding (n := n) ha) h
    rwa [show n + padding n a - (n + k) = padding n a - k by omega] at h₁
  have := Nat.le_of_dvd (by omega) hdiff
  omega

theorem padding_eq_zero_iff (ha : 0 < a) : padding n a = 0 ↔ a ∣ n := by
  constructor
  · intro h
    have := dvd_add_padding (n := n) ha
    rwa [h, Nat.add_zero] at this
  · intro h
    exact Nat.le_zero.mp (padding_le_of_dvd ha (k := 0) h)

/-- The padding only depends on the position up to multiples of the modulus. -/
theorem padding_mod (h : a ∣ m) : padding (n % m) a = padding n a := by
  unfold padding
  rw [Nat.mod_mod_of_dvd n h]

/-- Positions counted from a multiple are padded as positions are. -/
theorem roundUp_add_of_dvd (h : a ∣ m) : roundUp (m + n) a = m + roundUp n a := by
  unfold roundUp padding
  rw [Nat.add_mod, Nat.mod_eq_zero_of_dvd h, Nat.zero_add, Nat.mod_mod, Nat.add_assoc]

theorem le_roundUp : n ≤ roundUp n a := Nat.le_add_right _ _

theorem dvd_roundUp (ha : 0 < a) : a ∣ roundUp n a := dvd_add_padding ha

theorem roundUp_le (ha : 0 < a) (hk : n ≤ k) (h : a ∣ k) : roundUp n a ≤ k := by
  have := padding_le_of_dvd (n := n) (k := k - n) ha (by rwa [Nat.add_sub_cancel' hk])
  unfold roundUp
  omega

theorem roundUp_eq_self (ha : 0 < a) (h : a ∣ n) : roundUp n a = n := by
  unfold roundUp
  rw [(padding_eq_zero_iff ha).mpr h, Nat.add_zero]

/-- Rounding up stays within a bound exactly when there was nothing to round. -/
theorem roundUp_le_self_iff (ha : 0 < a) : roundUp n a ≤ n ↔ a ∣ n := by
  constructor
  · intro h
    have := dvd_roundUp (n := n) ha
    rwa [le_antisymm h le_roundUp] at this
  · intro h
    exact (roundUp_eq_self ha h).le

/-! ## The multiple below -/

/-- The last multiple of `a` at or before `n`. -/
def roundDown (n a : ℕ) : ℕ := n - n % a

theorem roundDown_le : roundDown n a ≤ n := Nat.sub_le n _

theorem dvd_roundDown : a ∣ roundDown n a := Nat.dvd_sub_mod n

theorem le_roundDown (hk : k ≤ n) (h : a ∣ k) : k ≤ roundDown n a := by
  unfold roundDown
  have hmod : (n - k) % a = n % a := by
    obtain ⟨c, rfl⟩ := h
    exact Nat.sub_mul_mod hk
  have := Nat.mod_le (n - k) a
  omega

theorem roundDown_eq_self (h : a ∣ n) : roundDown n a = n :=
  le_antisymm roundDown_le (le_roundDown le_rfl h)

end Toolkit
