import Mathlib.Data.List.Perm.Basic
import Mathlib.Data.Set.Lattice
import Mathlib.Order.CompletePartialOrder
import Mathlib.Order.Interval.Finset.Nat
import Mathlib.Order.Interval.Set.Disjoint
import Mathlib.Tactic.Linarith

/-!
# Byte ranges and partitions of a region

A span is a start address and a size; what it means is its set of addresses, the
half-open interval `Set.Ico start (start + size)`.  Disjointness is always
stated about those sets, so that an empty span is disjoint from everything, and
`Span.disjoint_of_le` is the arithmetic that proves it.

A list of spans is *packed* between two addresses when all of them lie there and
no two overlap; a bump allocator keeps its blocks packed because every new one
lies behind the others (`Packed.cons`).

A family of sets is a *partition* of a region when its members are pairwise
disjoint and their union is the region.  The one operation on partitions is
cutting a member in two (`Partition.cut`): whatever member is cut, and wherever
the second half goes in the list, the result is a partition of the same region.
-/

namespace Toolkit

/-- A range of addresses: where it starts and how many bytes it has. -/
structure Span where
  start : ℕ
  size : ℕ
  deriving DecidableEq, Repr

namespace Span

variable {s t : Span} {x : ℕ}

/-- The first address past the span. -/
def stop (s : Span) : ℕ := s.start + s.size

/-- The addresses of the span. -/
def addresses (s : Span) : Set ℕ := Set.Ico s.start s.stop

theorem mem_addresses : x ∈ s.addresses ↔ s.start ≤ x ∧ x < s.start + s.size := Set.mem_Ico

/-- An empty span has no addresses. -/
theorem addresses_eq_empty (h : s.size = 0) : s.addresses = ∅ := by
  rw [addresses, stop, h, Nat.add_zero]
  exact Set.Ico_self _

/-- Of two spans one of which ends before the other starts, no address is shared. -/
theorem disjoint_of_le (h : s.stop ≤ t.start ∨ t.stop ≤ s.start) :
    Disjoint s.addresses t.addresses := by
  rw [Set.disjoint_left]
  intro x hs ht
  rw [mem_addresses] at hs ht
  unfold stop at h
  omega

/-- A span before or behind an interval shares no address with it. -/
theorem disjoint_Ico {a b : ℕ} (h : s.stop ≤ a ∨ b ≤ s.start) :
    Disjoint s.addresses (Set.Ico a b) := by
  rw [Set.disjoint_left]
  intro x hs hx
  rw [mem_addresses] at hs
  rw [Set.mem_Ico] at hx
  unfold stop at h
  omega

/-- Disjoint spans with addresses lie one behind the other. -/
theorem le_of_disjoint (h : Disjoint s.addresses t.addresses) :
    s.size = 0 ∨ t.size = 0 ∨ s.stop ≤ t.start ∨ t.stop ≤ s.start := by
  by_contra hnot
  have hs : s.start < s.stop ∧ t.start < t.stop := by
    unfold stop at hnot ⊢
    omega
  have hmem : max s.start t.start ∈ s.addresses := ⟨le_max_left _ _, by omega⟩
  exact Set.disjoint_left.mp h hmem ⟨le_max_right _ _, by omega⟩

/-- One of the two spans ends before the other starts. -/
def Apart (s t : Span) : Prop := s.stop ≤ t.start ∨ t.stop ≤ s.start

instance : DecidableRel Apart := fun s t =>
  inferInstanceAs (Decidable (s.stop ≤ t.start ∨ t.stop ≤ s.start))

theorem Apart.symm (h : s.Apart t) : t.Apart s := Or.symm h

theorem Apart.disjoint (h : s.Apart t) : Disjoint s.addresses t.addresses := disjoint_of_le h

/-- Two spans that share no address and together are `R`. -/
structure Halves (R A B : Span) : Prop where
  disjoint : Disjoint A.addresses B.addresses
  union : R.addresses = A.addresses ∪ B.addresses

theorem Halves.symm {R A B : Span} (h : Halves R A B) : Halves R B A where
  disjoint := h.disjoint.symm
  union := by rw [Set.union_comm]; exact h.union

/-- No byte is lost between two halves. -/
theorem Halves.size {R A B : Span} (h : Halves R A B) : A.size + B.size = R.size := by
  have hcoe : ∀ s : Span, (Finset.Ico s.start s.stop : Set ℕ) = s.addresses :=
    fun s => Finset.coe_Ico _ _
  have hunion : Finset.Ico R.start R.stop =
      Finset.Ico A.start A.stop ∪ Finset.Ico B.start B.stop := by
    refine Finset.coe_injective ?_
    rw [Finset.coe_union, hcoe, hcoe, hcoe]
    exact h.union
  have hdisjoint : Disjoint (Finset.Ico A.start A.stop) (Finset.Ico B.start B.stop) := by
    rw [← Finset.disjoint_coe, hcoe, hcoe]
    exact h.disjoint
  have hcard := congrArg Finset.card hunion
  rw [Finset.card_union_of_disjoint hdisjoint, Nat.card_Ico, Nat.card_Ico, Nat.card_Ico] at hcard
  unfold stop at hcard
  omega

/-- A span is cut in two at any of its addresses, or at its end. -/
theorem halves_at (R : Span) {k : ℕ} (hk : k ≤ R.size) :
    Halves R ⟨R.start, k⟩ ⟨R.start + k, R.size - k⟩ where
  disjoint := disjoint_of_le (Or.inl le_rfl)
  union := by
    ext x
    rw [Set.mem_union, mem_addresses, mem_addresses, mem_addresses]
    show _ ↔ (R.start ≤ x ∧ x < R.start + k) ∨
      (R.start + k ≤ x ∧ x < R.start + k + (R.size - k))
    omega

/-- The two spans lie one behind the other, and from the start of the first to the
stop of the second is `R`. -/
structure Adjacent (R A B : Span) : Prop where
  start : A.start = R.start
  meet : A.stop = B.start
  stop : B.stop = R.stop

theorem adjacent_at (R : Span) {k : ℕ} (hk : k ≤ R.size) :
    Adjacent R ⟨R.start, k⟩ ⟨R.start + k, R.size - k⟩ where
  start := rfl
  meet := rfl
  stop := by
    show R.start + k + (R.size - k) = R.start + R.size
    omega

theorem addresses_subset (h₁ : t.start ≤ s.start) (h₂ : s.stop ≤ t.stop) :
    s.addresses ⊆ t.addresses := Set.Ico_subset_Ico h₁ h₂

end Span

/-! ## Packings -/

/-- The spans lie between two addresses, pairwise apart. -/
structure Packed (lo hi : ℕ) (l : List Span) : Prop where
  within : ∀ s ∈ l, lo ≤ s.start ∧ s.stop ≤ hi
  apart : l.Pairwise Span.Apart

namespace Packed

variable {lo hi hi' : ℕ} {l l' : List Span} {s : Span}

theorem nil : Packed lo hi [] where
  within _ hs := absurd hs List.not_mem_nil
  apart := .nil

theorem perm (hp : l.Perm l') (h : Packed lo hi l) : Packed lo hi l' where
  within s hs := h.within s (hp.mem_iff.mpr hs)
  apart := (hp.pairwise_iff fun hab => hab.symm).mp h.apart

theorem sublist (hl : l'.Sublist l) (h : Packed lo hi l) : Packed lo hi l' where
  within s hs := h.within s (hl.subset hs)
  apart := h.apart.sublist hl

/-- A span behind all the others may be added. -/
theorem cons (hlo : lo ≤ hi) (hs : hi ≤ s.start) (hs' : s.stop ≤ hi') (h : Packed lo hi l) :
    Packed lo hi' (s :: l) where
  within t ht := by
    have hle : s.start ≤ s.stop := Nat.le_add_right _ _
    rcases List.mem_cons.mp ht with rfl | ht
    · exact ⟨hlo.trans hs, hs'⟩
    · have := h.within t ht
      omega
  apart := by
    refine List.pairwise_cons.mpr ⟨fun t ht => ?_, h.apart⟩
    exact Or.inr ((h.within t ht).2.trans hs)

/-- A span may be replaced by a part of it. -/
theorem set_within {i : ℕ} {t : Span} (hl : i < l.length) (h₁ : l[i].start ≤ t.start)
    (h₂ : t.stop ≤ l[i].stop) (h : Packed lo hi l) : Packed lo hi (l.set i t) := by
  have h' := h.perm (List.getElem_cons_eraseIdx_perm hl).symm
  refine Packed.perm (List.set_perm_cons_eraseIdx hl t).symm ⟨?_, ?_⟩
  · intro s hs
    rcases List.mem_cons.mp hs with rfl | hs
    · have := h'.within _ List.mem_cons_self
      omega
    · exact h'.within s (List.mem_cons_of_mem _ hs)
  · obtain ⟨hhead, htail⟩ := List.pairwise_cons.mp h'.apart
    refine List.pairwise_cons.mpr ⟨fun s hs => ?_, htail⟩
    have := hhead s hs
    unfold Span.Apart at this ⊢
    omega

/-- A span may be replaced by one behind all the others. -/
theorem set_behind {i : ℕ} {t : Span} (hl : i < l.length) (hlo : lo ≤ hi) (ht : hi ≤ t.start)
    (ht' : t.stop ≤ hi') (h : Packed lo hi l) : Packed lo hi' (l.set i t) :=
  Packed.perm (List.set_perm_cons_eraseIdx hl t).symm
    (Packed.cons hlo ht ht' (h.sublist (List.eraseIdx_sublist _ _)))

/-- Two different places of the list hold disjoint spans. -/
theorem disjoint {i j : ℕ} {t : Span} (h : Packed lo hi l) (hs : l[i]? = some s)
    (ht : l[j]? = some t) (hne : i ≠ j) : Disjoint s.addresses t.addresses := by
  obtain ⟨hi, rfl⟩ := List.getElem?_eq_some_iff.mp hs
  obtain ⟨hj, rfl⟩ := List.getElem?_eq_some_iff.mp ht
  rcases Nat.lt_or_gt_of_ne hne with hlt | hlt
  · exact (List.pairwise_iff_getElem.mp h.apart i j hi hj hlt).disjoint
  · exact (List.pairwise_iff_getElem.mp h.apart j i hj hi hlt).symm.disjoint

end Packed

/-! ## Partitions -/

variable {α : Type*}

/-- The parts are pairwise disjoint and together are the region. -/
structure Partition (region : Set α) (parts : List (Set α)) : Prop where
  disjoint : parts.Pairwise Disjoint
  cover : ⋃ p ∈ parts, p = region

namespace Partition

variable {R A B C : Set α} {l₁ l₂ : List (Set α)}

theorem single (R : Set α) : Partition R [R] where
  disjoint := List.pairwise_singleton _ _
  cover := by simp

/-- Disjointness of a list of sets does not depend on the order. -/
theorem pairwise_perm {l l' : List (Set α)} (h : l.Perm l') :
    l.Pairwise Disjoint ↔ l'.Pairwise Disjoint :=
  h.pairwise_iff fun hab => hab.symm

theorem perm {l l' : List (Set α)} (h : l.Perm l') (hl : Partition R l) : Partition R l' where
  disjoint := (pairwise_perm h).mp hl.disjoint
  cover := by
    rw [← hl.cover]
    ext x
    simp only [Set.mem_iUnion, exists_prop, h.mem_iff]

/-- **Cutting a part.**  A part is replaced by two disjoint sets whose union it
is; the second one may go to the end of the list. -/
theorem cut (h : Partition R (l₁ ++ A :: l₂)) (hA : A = B ∪ C) (hBC : Disjoint B C) :
    Partition R (l₁ ++ B :: l₂ ++ [C]) := by
  have hperm : (l₁ ++ A :: l₂).Perm (A :: (l₁ ++ l₂)) := List.perm_middle
  have hperm' : (B :: C :: (l₁ ++ l₂)).Perm (l₁ ++ B :: l₂ ++ [C]) := by
    refine (List.Perm.swap C B _).trans ?_
    refine List.Perm.trans ?_ (List.perm_append_singleton C (l₁ ++ B :: l₂)).symm
    exact List.Perm.cons C List.perm_middle.symm
  refine perm hperm' ?_
  have h' := perm hperm h
  obtain ⟨hAl, hl⟩ := List.pairwise_cons.mp h'.disjoint
  have hB : ∀ D ∈ l₁ ++ l₂, Disjoint B D := fun D hD =>
    (hAl D hD).mono_left (by rw [hA]; exact Set.subset_union_left)
  have hC : ∀ D ∈ l₁ ++ l₂, Disjoint C D := fun D hD =>
    (hAl D hD).mono_left (by rw [hA]; exact Set.subset_union_right)
  constructor
  · refine List.pairwise_cons.mpr ⟨?_, List.pairwise_cons.mpr ⟨hC, hl⟩⟩
    intro D hD
    rcases List.mem_cons.mp hD with rfl | hD
    · exact hBC
    · exact hB D hD
  · rw [← h'.cover, hA]
    ext x
    simp only [List.mem_cons, Set.iUnion_iUnion_eq_or_left, Set.mem_union]
    exact or_assoc.symm

end Partition

end Toolkit
