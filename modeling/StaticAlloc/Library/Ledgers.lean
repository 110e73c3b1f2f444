import Mathlib.Algebra.BigOperators.Group.Finset.Basic
import Mathlib.Data.Multiset.Bind
import Mathlib.Data.Multiset.UnionInter
import Mathlib.Tactic.Abel

/-!
# Ledgers

Tokens are issued, each one once, handed from owner to owner and given back in the
end.  A ledger remembers those issued and those given back; `Balanced` says that
the rest are the ones owned, with multiplicity.  Nothing is lost then and nothing is
there twice: a token that is owned was not given back (`Balanced.not_returned`) and
has no second owner (`Balanced.sole_owner`), and when nobody owns anything all tokens
were given back, each once (`Balanced.settled`).

What the owners have together is `holdings`.

Where the accounts are those of a family of objects, one of which changes at a time, `Level` says
that both sides of the books are equal.  To see that they stay so it is enough to look at the object
that changed (`Level.update`).
-/

namespace Toolkit

variable {β τ : Type*}

/-- Every token was issued once, and is given back or owned. -/
structure Balanced (issued returned owned : Multiset β) : Prop where
  nodup : issued.Nodup
  balance : issued = returned + owned

/-- What several owners have together. -/
def holdings (has : τ → Multiset β) (owners : Multiset τ) : Multiset β := owners.bind has

section Holdings

variable {has : τ → Multiset β} {owners : Multiset τ} {a : β}

@[simp] theorem holdings_zero (has : τ → Multiset β) : holdings has 0 = 0 := rfl

@[simp] theorem holdings_cons (has : τ → Multiset β) (x : τ) (owners : Multiset τ) :
    holdings has (x ::ₘ owners) = has x + holdings has owners := Multiset.cons_bind x owners has

@[simp] theorem holdings_singleton (has : τ → Multiset β) (x : τ) :
    holdings has {x} = has x := Multiset.singleton_bind x has

@[simp] theorem holdings_add (has : τ → Multiset β) (owners owners' : Multiset τ) :
    holdings has (owners + owners') = holdings has owners + holdings has owners' :=
  Multiset.add_bind owners owners' has

theorem mem_holdings : a ∈ holdings has owners ↔ ∃ x ∈ owners, a ∈ has x := Multiset.mem_bind

end Holdings

namespace Balanced

variable {issued returned owned s : Multiset β} {a : β}

/-- The ledger before anything is issued. -/
theorem nil : Balanced (0 : Multiset β) 0 0 := ⟨Multiset.nodup_zero, rfl⟩

theorem issued_of_mem (h : Balanced issued returned owned) (ha : a ∈ owned) : a ∈ issued := by
  rw [h.balance]
  exact Multiset.mem_add.mpr (Or.inr ha)

/-- What is owned was not given back. -/
theorem not_returned (h : Balanced issued returned owned) (ha : a ∈ owned) : a ∉ returned := by
  have hnodup := h.nodup
  rw [h.balance, Multiset.nodup_add] at hnodup
  exact fun hret => Multiset.disjoint_left.mp hnodup.2.2 hret ha

/-- **Each token has one owner.** -/
theorem sole_owner {has : τ → Multiset β} {x y : τ} {rest : Multiset τ}
    (h : Balanced issued returned (holdings has (x ::ₘ rest))) (ha : a ∈ has x) (hy : y ∈ rest) :
    a ∉ has y := by
  have hnodup := h.nodup
  rw [h.balance, Multiset.nodup_add, holdings_cons, Multiset.nodup_add] at hnodup
  exact fun hc => Multiset.disjoint_left.mp hnodup.2.1.2.2 ha (mem_holdings.mpr ⟨y, hy, hc⟩)

/-- **Each token was given back or has one owner.** -/
theorem returned_or_owned {has : τ → Multiset β} {owners : Multiset τ}
    (h : Balanced issued returned (holdings has owners)) (ha : a ∈ issued) :
    (a ∈ returned ∧ ∀ x ∈ owners, a ∉ has x) ∨
      (a ∉ returned ∧ ∃ x rest, owners = x ::ₘ rest ∧ a ∈ has x ∧ ∀ y ∈ rest, a ∉ has y) := by
  rw [h.balance] at ha
  rcases Multiset.mem_add.mp ha with hret | hown
  · exact Or.inl ⟨hret, fun x hx hc => h.not_returned (mem_holdings.mpr ⟨x, hx, hc⟩) hret⟩
  · obtain ⟨x, hx, hax⟩ := mem_holdings.mp hown
    obtain ⟨rest, rfl⟩ := Multiset.exists_cons_of_mem hx
    exact Or.inr ⟨h.not_returned hown, x, rest, rfl, hax, fun y hy => h.sole_owner hax hy⟩

/-- No token is given back twice. -/
theorem returned_nodup (h : Balanced issued returned owned) : returned.Nodup := by
  have hnodup := h.nodup
  rw [h.balance, Multiset.nodup_add] at hnodup
  exact hnodup.1

/-- A token is issued to an owner. -/
theorem issue (h : Balanced issued returned owned) (ha : a ∉ issued) :
    Balanced (a ::ₘ issued) returned (a ::ₘ owned) := by
  refine ⟨Multiset.nodup_cons.mpr ⟨ha, h.nodup⟩, ?_⟩
  rw [h.balance, Multiset.add_cons]

/-- Tokens are given back. -/
theorem giveBack (h : Balanced issued returned (s + owned)) :
    Balanced issued (s + returned) owned := by
  refine ⟨h.nodup, ?_⟩
  rw [h.balance, add_left_comm, add_assoc]

/-- When nobody owns anything, each token was given back once. -/
theorem settled (h : Balanced issued returned 0) : returned = issued := by
  rw [h.balance, add_zero]

end Balanced

/-! ## The books of a family -/

section Family

variable {ι M : Type*} {X : ι → Type*} [AddCancelCommMonoid M]

/-- What the members of a family have on one side of the books, and `o`, is what they have on the
other side, and `p`. -/
def Level (s : Finset ι) (x : (i : ι) → X i) (f g : (i : ι) → X i → M) (o p : M) : Prop :=
  o + ∑ i ∈ s, f i (x i) = p + ∑ i ∈ s, g i (x i)

variable {s : Finset ι} {x : (i : ι) → X i} {f g : (i : ι) → X i → M} {o o' p p' : M}

/-- Nothing changes in the family. -/
theorem Level.move (h : Level s x f g o p) (hstep : o' + p = p' + o) : Level s x f g o' p' := by
  rw [Level] at h ⊢
  refine add_right_cancel (b := p) ?_
  calc o' + ∑ i ∈ s, f i (x i) + p = (o' + p) + ∑ i ∈ s, f i (x i) := by abel
    _ = p' + (o + ∑ i ∈ s, f i (x i)) := by rw [hstep]; abel
    _ = p' + ∑ i ∈ s, g i (x i) + p := by rw [h]; abel

variable [DecidableEq ι]

omit [AddCancelCommMonoid M] in
/-- The sum over a family in which one member was replaced, or to which it was added. -/
theorem sum_insert_update [AddCommMonoid M] (s : Finset ι) (x : (i : ι) → X i)
    (f : (i : ι) → X i → M) (i : ι) (y : X i) :
    (∑ j ∈ insert i s, f j (Function.update x i y j)) + (if i ∈ s then f i (x i) else 0) =
      (∑ j ∈ s, f j (x j)) + f i y := by
  have hrest : ∑ j ∈ s.erase i, f j (Function.update x i y j) = ∑ j ∈ s.erase i, f j (x j) :=
    Finset.sum_congr rfl fun j hj => by
      rw [Function.update_of_ne (Finset.ne_of_mem_erase hj)]
  have hnew : ∑ j ∈ insert i s, f j (Function.update x i y j) =
      f i y + ∑ j ∈ s.erase i, f j (x j) := by
    rw [← Finset.add_sum_erase _ _ (Finset.mem_insert_self i s), Finset.erase_insert_eq_erase,
      hrest, Function.update_self]
  have hold : ∑ j ∈ s, f j (x j) =
      (if i ∈ s then f i (x i) else 0) + ∑ j ∈ s.erase i, f j (x j) := by
    split
    · rename_i hi
      exact (Finset.add_sum_erase s (fun j => f j (x j)) hi).symm
    · rename_i hi
      rw [Finset.erase_eq_of_notMem hi, zero_add]
  rw [hnew, hold]
  abel

/-- **One member is replaced or added.** -/
theorem Level.update (h : Level s x f g o p) {i : ι} {y : X i}
    (hstep : o' + f i y + (p + if i ∈ s then g i (x i) else 0) =
      p' + g i y + (o + if i ∈ s then f i (x i) else 0)) :
    Level (insert i s) (Function.update x i y) f g o' p' := by
  have hf := sum_insert_update s x f i y
  have hg := sum_insert_update s x g i y
  rw [Level] at h ⊢
  -- both sides, with what the member had before added to them
  refine add_right_cancel (b := (if i ∈ s then f i (x i) else 0) +
    ((if i ∈ s then g i (x i) else 0) + (p + ∑ j ∈ s, g j (x j)))) ?_
  calc
    _ = o' + ((∑ j ∈ insert i s, f j (Function.update x i y j)) +
          if i ∈ s then f i (x i) else 0) + (if i ∈ s then g i (x i) else 0) +
          (p + ∑ j ∈ s, g j (x j)) := by abel
    _ = (o' + f i y + (p + if i ∈ s then g i (x i) else 0)) +
          ((∑ j ∈ s, f j (x j)) + ∑ j ∈ s, g j (x j)) := by rw [hf]; abel
    _ = p' + (∑ j ∈ s, g j (x j) + g i y) + (if i ∈ s then f i (x i) else 0) +
          (o + ∑ j ∈ s, f j (x j)) := by rw [hstep]; abel
    _ = _ := by rw [h, ← hg]; abel

end Family

end Toolkit
