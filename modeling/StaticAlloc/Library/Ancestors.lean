import Mathlib.Data.Fintype.EquivFin
import Mathlib.Logic.Relation
import Mathlib.Order.WellFounded

/-!
# Where chains of ancestors begin

In a finite set each member is a root or has a parent in the set.  Then the ancestors of a member,
followed upwards, end at a root or go round in a circle: `exists_root_or_cycle`.  Without circles
there is a root above every member.

A circle, and what is below it, stays when no member loses a child while it has a parent
(`circle_stays`).
-/

namespace Toolkit

open Relation

variable {α : Type*} {r : α → α → Prop} {root : α → Prop} {s : Finset α}

/-- **Above every member is a root or a circle.** -/
theorem exists_root_or_cycle (h : ∀ a ∈ s, root a ∨ ∃ p ∈ s, r p a) {a : α} (ha : a ∈ s) :
    ∃ c ∈ s, ReflTransGen r c a ∧ (root c ∨ TransGen r c c) := by
  by_contra hnone
  have hfree : ∀ c ∈ s, ReflTransGen r c a → ¬ root c ∧ ¬ TransGen r c c := fun c hc hca =>
    not_or.mp fun hor => hnone ⟨c, hc, hca, hor⟩
  -- the ancestors of `a` in the set, and which of them is above which
  let T := {c : s // ReflTransGen r c a}
  let above : T → T → Prop := fun x y => TransGen r x.1 y.1
  have hfinite : Finite T := Subtype.finite
  have hirrefl : Std.Irrefl above := ⟨fun x => (hfree x.1 x.1.2 x.2).2⟩
  have htrans : IsTrans T above := ⟨fun _ _ _ hxy hyz => TransGen.trans hxy hyz⟩
  have hwf : WellFounded above := Finite.wellFounded_of_trans_of_irrefl above
  obtain ⟨top, -, htop⟩ := hwf.has_min Set.univ ⟨⟨⟨a, ha⟩, .refl⟩, trivial⟩
  obtain ⟨⟨c, hc⟩, hca⟩ := top
  rcases h c hc with hroot | ⟨p, hp, hpc⟩
  · exact (hfree c hc hca).1 hroot
  · exact htop ⟨⟨p, hp⟩, .head hpc hca⟩ trivial (.single hpc)

/-- **Circles stay.**  Every member of a circle has a parent, and everything below it has one. -/
theorem circle_stays {r' : α → α → Prop} (h : ∀ p a c, r p a → r a c → r' a c) {c a : α}
    (hc : TransGen r c c) (ha : ReflTransGen r c a) :
    TransGen r' c c ∧ ReflTransGen r' c a := by
  obtain ⟨last, hlast, hclose⟩ := TransGen.tail'_iff.mp hc
  have hparent : ∀ d, ReflTransGen r c d → ∃ p, r p d := by
    intro d hd
    rcases ReflTransGen.cases_tail hd with rfl | ⟨p, -, hp⟩
    · exact ⟨last, hclose⟩
    · exact ⟨p, hp⟩
  have hbelow : ∀ d, ReflTransGen r c d → ReflTransGen r' c d := by
    intro d hd
    induction hd with
    | refl => exact .refl
    | @tail d e hcd hde ih =>
      obtain ⟨p, hp⟩ := hparent d hcd
      exact ih.tail (h p d e hp hde)
  obtain ⟨p, hp⟩ := hparent last hlast
  exact ⟨TransGen.tail'_iff.mpr ⟨last, hbelow last hlast, h p last c hp hclose⟩, hbelow a ha⟩

end Toolkit
