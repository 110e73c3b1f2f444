import StaticAlloc.Library.Alignment

/-!
# Machine words, and how a run stops early

A `usize` is a natural number below `2 ^ w`, where `w` is the width of the
target's word; nothing below fixes `w`.  The arithmetic the crates use comes in
five flavours, and each keeps its name from the language: `checked_*` answers
`none` on overflow, `saturating_sub` clamps, `wrapping_*` reduces modulo
`2 ^ w`, and the plain operators either panic or wrap depending on the build
profile.

Code can stop early in two ways, and the model keeps them apart.  A *panic* is
defined behaviour: an assertion, an `unwrap` of `None`, an overflow in a debug
build.  *Undefined* behaviour is what an `unsafe` call may run into when its
contract is broken: a double free, a read of a slot that holds no value, a
non-overlapping copy whose ranges overlap.  A definition that may do either
returns in `Except Stop`.
-/

namespace StaticAlloc

open Toolkit

universe u

/-- Why a run stopped before returning. -/
inductive Stop where
  | panic (msg : String)
  | undefined (msg : String)
  deriving DecidableEq, Repr

/-- The build profile: it decides what a plain `+` or `-` does on overflow. -/
inductive Build where
  | debug
  | release
  deriving DecidableEq, Repr

/-- `usize::MAX` on a target of word width `w`. -/
def usizeMax (w : ℕ) : ℕ := 2 ^ w - 1

/-- `assert!`. -/
def assert (c : Prop) [Decidable c] (msg : String) : Except Stop Unit :=
  if c then .ok () else .error (.panic msg)

/-- `debug_assert!`: checked in debug builds only. -/
def debugAssert (b : Build) (c : Prop) [Decidable c] (msg : String) : Except Stop Unit :=
  match b with
  | .debug => assert c msg
  | .release => .ok ()

/-- `Option::unwrap`. -/
def unwrap {α : Type*} : Option α → Except Stop α
  | some a => .ok a
  | none => .error (.panic "called `Option::unwrap()` on a `None` value")

/-- `Result::unwrap`. -/
def unwrapOk {ε α : Type*} : Except ε α → Except Stop α
  | .ok a => .ok a
  | .error _ => .error (.panic "called `Result::unwrap()` on an `Err` value")

/-- `usize::checked_add`. -/
def checkedAdd (w x y : ℕ) : Option ℕ := if x + y < 2 ^ w then some (x + y) else none

/-- `usize::checked_sub`. -/
def checkedSub (x y : ℕ) : Option ℕ := if y ≤ x then some (x - y) else none

/-- `usize::checked_mul`. -/
def checkedMul (w x y : ℕ) : Option ℕ := if x * y < 2 ^ w then some (x * y) else none

/-- `usize::checked_div`. -/
def checkedDiv (x y : ℕ) : Option ℕ := if y = 0 then none else some (x / y)

/-- `usize::saturating_sub`. -/
def saturatingSub (x y : ℕ) : ℕ := x - y

/-- `usize::wrapping_add`, also of an address and a byte offset. -/
def wrappingAdd (w x y : ℕ) : ℕ := (x + y) % 2 ^ w

/-- `usize::wrapping_sub`. -/
def wrappingSub (w x y : ℕ) : ℕ := (x + (2 ^ w - y % 2 ^ w)) % 2 ^ w

/-- The plain `+` of two words. -/
def addUsize (b : Build) (w x y : ℕ) : Except Stop ℕ :=
  if x + y < 2 ^ w then .ok (x + y) else
    match b with
    | .debug => .error (.panic "attempt to add with overflow")
    | .release => .ok ((x + y) % 2 ^ w)

/-- The plain `-` of two words. -/
def subUsize (b : Build) (w x y : ℕ) : Except Stop ℕ :=
  if y ≤ x then .ok (x - y) else
    match b with
    | .debug => .error (.panic "attempt to subtract with overflow")
    | .release => .ok (wrappingSub w x y)

/-- The plain `*` of two words. -/
def mulUsize (b : Build) (w x y : ℕ) : Except Stop ℕ :=
  if x * y < 2 ^ w then .ok (x * y) else
    match b with
    | .debug => .error (.panic "attempt to multiply with overflow")
    | .release => .ok ((x * y) % 2 ^ w)

/-- `Some(x) > y`: in the order of `Option`, `None` comes before every `Some`. -/
def someGt (x : ℕ) : Option ℕ → Bool
  | none => true
  | some y => decide (y < x)

variable {w x y : ℕ}

@[simp] theorem ok_bind {α β : Type u} (a : α) (f : α → Except Stop β) :
    (Except.ok a >>= f) = f a := rfl

@[simp] theorem error_bind {α β : Type u} (s : Stop) (f : α → Except Stop β) :
    (Except.error s >>= f) = .error s := rfl

@[simp] theorem pure_eq_ok {α : Type*} (a : α) : (pure a : Except Stop α) = .ok a := rfl

@[simp] theorem assert_true {c : Prop} [Decidable c] {msg : String} (h : c) :
    assert c msg = .ok () := if_pos h

@[simp] theorem assert_false {c : Prop} [Decidable c] {msg : String} (h : ¬ c) :
    assert c msg = .error (.panic msg) := if_neg h

@[simp] theorem debugAssert_true {b : Build} {c : Prop} [Decidable c] {msg : String} (h : c) :
    debugAssert b c msg = .ok () := by
  cases b
  · exact assert_true h
  · rfl

@[simp] theorem unwrap_some {α : Type*} (a : α) : unwrap (some a) = .ok a := rfl

@[simp] theorem unwrapOk_ok {ε α : Type*} (a : α) : unwrapOk (.ok a : Except ε α) = .ok a := rfl

/-- A computation that ends well, ended well at each of its steps. -/
theorem of_bind_ok {α β : Type u} {x : Except Stop α} {f : α → Except Stop β} {b : β}
    (h : (x >>= f) = .ok b) : ∃ a, x = .ok a ∧ f a = .ok b := by
  cases x with
  | error s => exact absurd h (by simp)
  | ok a => exact ⟨a, rfl, h⟩

/-- Two pairs returned by one computation are one pair. -/
theorem ok_pair_inj {ε α β : Type*} {a a' : α} {b b' : β}
    (h : (Except.ok (a, b) : Except ε (α × β)) = .ok (a', b')) : a = a' ∧ b = b' :=
  Prod.mk.inj (Except.ok.inj h)

theorem of_unwrapOk {ε α : Type*} {x : Except ε α} {a : α} (h : unwrapOk x = .ok a) :
    x = .ok a := by
  cases x with
  | error e => exact absurd h (by simp [unwrapOk])
  | ok a' => exact congrArg Except.ok (Except.ok.inj h)

theorem checkedAdd_of_lt (h : x + y < 2 ^ w) : checkedAdd w x y = some (x + y) := if_pos h

theorem checkedSub_of_le (h : y ≤ x) : checkedSub x y = some (x - y) := if_pos h

theorem checkedSub_of_lt (h : x < y) : checkedSub x y = none := if_neg (by omega)

theorem someGt_checkedSub {r : ℕ} :
    someGt r (checkedSub x y) = true ↔ x < y ∨ x < y + r := by
  rw [checkedSub]
  split
  · rw [someGt, decide_eq_true_iff]
    omega
  · rw [someGt]
    simp only [true_iff]
    omega

theorem checkedMul_of_lt (h : x * y < 2 ^ w) : checkedMul w x y = some (x * y) := if_pos h

theorem checkedMul_of_le (h : 2 ^ w ≤ x * y) : checkedMul w x y = none := if_neg (by omega)

theorem addUsize_of_lt {b : Build} (h : x + y < 2 ^ w) : addUsize b w x y = .ok (x + y) :=
  if_pos h

/-- A debug build lets no `+` overflow. -/
theorem addUsize_debug_lt {z : ℕ} (h : addUsize .debug w x y = .ok z) : x + y < 2 ^ w := by
  by_contra hover
  rw [addUsize, if_neg hover] at h
  exact absurd h (by simp)

/-- A release build computes every `+` modulo `2 ^ w`. -/
theorem addUsize_release : addUsize .release w x y = .ok ((x + y) % 2 ^ w) := by
  by_cases h : x + y < 2 ^ w
  · rw [addUsize_of_lt h, Nat.mod_eq_of_lt h]
  · exact if_neg h

theorem subUsize_of_le {b : Build} (h : y ≤ x) : subUsize b w x y = .ok (x - y) := if_pos h

theorem mulUsize_of_lt {b : Build} (h : x * y < 2 ^ w) : mulUsize b w x y = .ok (x * y) :=
  if_pos h

theorem wrappingSub_of_le (h : y ≤ x) (hx : x < 2 ^ w) : wrappingSub w x y = x - y := by
  rw [wrappingSub, Nat.mod_eq_of_lt (by omega : y < 2 ^ w),
    show x + (2 ^ w - y) = x - y + 2 ^ w by omega, Nat.add_mod_right, Nat.mod_eq_of_lt (by omega)]

theorem usizeMax_lt (w : ℕ) : usizeMax w < 2 ^ w := by
  have := Nat.two_pow_pos w
  unfold usizeMax
  omega

end StaticAlloc
