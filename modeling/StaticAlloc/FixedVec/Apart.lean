import StaticAlloc.FixedVec.Contents

/-!
# Vectors side by side

`Refines` relates a `Shelf` to a `Ledger`: the same names are live, with the same
borrows and the same records, every live vector holds its list, and no two live
vectors get in each other's way.  The last part says where a write may go.  Two
vectors neither of which borrows the other have disjoint views.  A vector that is
lent out still has its whole view, but it cannot be used before those that borrow
it are gone; until then only its elements count, and the views of the borrowers
are behind them.  `footprint` says which of the two a vector occupies with respect
to another.

An operation changes one vector, within the view it had (`Refines.update`), or
cuts that view and adds the second part as a new vector (`Refines.add`), or ends a
vector (`Refines.drop`).  Since nobody borrows the vector it is called on, none of
this reaches any other vector's footprint.
-/

namespace StaticAlloc
namespace FixedVec

open Toolkit

variable {w : ℕ} {α I : Type} [DecidableEq I] {E : Element w α}

/-- What vector `i` occupies as far as vector `j` is concerned: its elements if
`j` borrows it, its whole view if not. -/
def Shelf.footprint {T : Ty w} (σ : Shelf T I α) (i j : I) : Span :=
  if i ∈ σ.lenders j then (σ.vec i).front else (σ.vec i).uninit.span

namespace Shelf

variable {T : Ty w} {σ : Shelf T I α} {i j k new : I} {v part : FixedVec T} {lenders : Finset I}

/-! ### What the vectors occupy after a cut -/

theorem footprint_addVec_of_ne (hj : j ≠ new) (hk : k ≠ new) (hji : j ≠ i) :
    (σ.addVec i v new part lenders).footprint j k = σ.footprint j k := by
  show (if j ∈ Function.update σ.lenders new lenders k then
    (Function.update (Function.update σ.vec i v) new part j).front else
    (Function.update (Function.update σ.vec i v) new part j).uninit.span) = _
  rw [Function.update_of_ne hk, Function.update_of_ne hj, Function.update_of_ne hji]
  rfl

/-- The vector that was cut, for one that does not borrow it. -/
theorem footprint_addVec_target (hne : i ≠ new) (hk : k ≠ new) (hfree : i ∉ σ.lenders k) :
    (σ.addVec i v new part lenders).footprint i k = v.uninit.span := by
  show (if i ∈ Function.update σ.lenders new lenders k then
    (Function.update (Function.update σ.vec i v) new part i).front else
    (Function.update (Function.update σ.vec i v) new part i).uninit.span) = _
  rw [Function.update_of_ne hk, if_neg hfree, Function.update_of_ne hne, Function.update_self]

/-- The vector that was cut, for the new one. -/
theorem footprint_addVec_target_new (hne : i ≠ new) :
    (σ.addVec i v new part lenders).footprint i new =
      if i ∈ lenders then v.front else v.uninit.span := by
  show (if i ∈ Function.update σ.lenders new lenders new then
    (Function.update (Function.update σ.vec i v) new part i).front else
    (Function.update (Function.update σ.vec i v) new part i).uninit.span) = _
  rw [Function.update_self, Function.update_of_ne hne, Function.update_self]

theorem footprint_addVec_new (hk : k ≠ new) (hnew : new ∉ σ.lenders k) :
    (σ.addVec i v new part lenders).footprint new k = part.uninit.span := by
  show (if new ∈ Function.update σ.lenders new lenders k then
    (Function.update (Function.update σ.vec i v) new part new).front else
    (Function.update (Function.update σ.vec i v) new part new).uninit.span) = _
  rw [Function.update_of_ne hk, if_neg hnew, Function.update_self]

/-- Any other vector is for the new one what it was for the one that was cut. -/
theorem footprint_addVec_to_new (hj : j ≠ new) (hji : j ≠ i)
    (hlend : j ∈ lenders ↔ j ∈ σ.lenders i) :
    (σ.addVec i v new part lenders).footprint j new = σ.footprint j i := by
  show (if j ∈ Function.update σ.lenders new lenders new then
    (Function.update (Function.update σ.vec i v) new part j).front else
    (Function.update (Function.update σ.vec i v) new part j).uninit.span) = _
  rw [Function.update_self, Function.update_of_ne hj, Function.update_of_ne hji, footprint]
  exact if_congr hlend rfl rfl

end Shelf

/-- The vectors are the lists. -/
structure Refines (E : Element w α) (σ : Shelf E.ty I α) (t : Ledger I α) : Prop where
  live : σ.live = t.live
  lenders : σ.lenders = t.lenders
  entered : σ.entered = t.entered
  returned : σ.returned = t.returned
  dropped : σ.dropped = t.dropped
  holds : ∀ i ∈ σ.live, Holds E σ.mem (σ.vec i) (t.vec i)
  lenders_live : ∀ i ∈ σ.live, σ.lenders i ⊆ σ.live
  apart : ∀ i ∈ σ.live, ∀ j ∈ σ.live, i ≠ j →
    Disjoint (σ.footprint i j).addresses (σ.footprint j i).addresses

/-- A change of memory that leaves every array apart from `R` as it was. -/
def Keeps (s : ℕ) (m m' : Cells α) (R : Span) : Prop :=
  ∀ base (xs : List α), Disjoint (Span.addresses ⟨base, xs.length * s⟩) R.addresses →
    m.Stores s base xs → m'.Stores s base xs

theorem Keeps.refl (s : ℕ) (m : Cells α) (R : Span) : Keeps s m m R := fun _ _ _ h => h

/-- Writing into a region keeps what is apart from it. -/
theorem keeps_writeArray {m : Cells α} {p : ℕ} {as : List α} {R : Span} (h₁ : R.start ≤ p)
    (h₂ : p + as.length * E.ty.size ≤ R.stop) :
    Keeps E.ty.size m (m.writeArray E.ty.size p as) R := by
  intro base xs hdisj hxs
  by_cases hs : E.ty.size = 0
  · exact hxs.writeArray_apart E.single (Or.inr (Or.inr hs))
  have hpos : ∀ n, 0 < (n + 1) * E.ty.size := fun n => Nat.mul_pos n.succ_pos (by omega)
  cases as with
  | nil => exact hxs
  | cons a as =>
    cases xs with
    | nil => exact Cells.Stores.nil
    | cons x xs =>
      have hsub := Span.addresses_subset (s := ⟨p, (a :: as).length * E.ty.size⟩) h₁ h₂
      refine hxs.writeArray_apart E.single ?_
      rcases Span.le_of_disjoint (hdisj.mono_right hsub) with h | h | h | h
      · exact absurd h (hpos xs.length).ne'
      · exact absurd h (hpos as.length).ne'
      · exact Or.inr (Or.inl h)
      · exact Or.inl h

namespace Refines

variable {σ σ' : Shelf E.ty I α} {t t' : Ledger I α} {i : I}

/-- The memory and the records of two related states. -/
structure SameRecords (σ : Shelf E.ty I α) (t : Ledger I α) : Prop where
  entered : σ.entered = t.entered
  returned : σ.returned = t.returned
  dropped : σ.dropped = t.dropped

section

variable (h : Refines E σ t) (hi : i ∈ σ.live) (hfree : ∀ j ∈ σ.live, i ∉ σ.lenders j)

include h hi hfree

/-- The elements of another vector are apart from the view of a vector that
nobody borrows. -/
theorem front_apart {j : I} (hj : j ∈ σ.live) (hij : j ≠ i) :
    Disjoint (σ.vec j).front.addresses (σ.vec i).uninit.span.addresses := by
  have hapart := h.apart j hj i hi hij
  rw [Shelf.footprint, Shelf.footprint, if_neg (hfree j hj)] at hapart
  split at hapart
  · exact hapart
  · exact hapart.mono_left (front_subset (h.holds j hj))

/-- A change within the view of `i` is not seen by the other vectors. -/
theorem holds_of_keeps {m' : Cells α} (hkeeps : Keeps E.ty.size σ.mem m' (σ.vec i).uninit.span)
    {j : I} (hj : j ∈ σ.live) (hij : j ≠ i) : Holds E m' (σ.vec j) (t.vec j) := by
  have hold := h.holds j hj
  refine ⟨hold.length, hold.cap, hkeeps _ _ ?_ hold.stores⟩
  have := h.front_apart hi hfree hj hij
  rwa [front, hold.length] at this

/-- **One vector changes, within the view it had.** -/
theorem update {v : FixedVec E.ty} {b : Bounded α} (hσlive : σ'.live = σ.live)
    (hσlenders : σ'.lenders = σ.lenders) (hσvec : σ'.vec = Function.update σ.vec i v)
    (htlive : t'.live = t.live) (htlenders : t'.lenders = t.lenders)
    (htvec : t'.vec = Function.update t.vec i b) (hrecords : SameRecords σ' t')
    (hholds : Holds E σ'.mem v b)
    (hkeeps : Keeps E.ty.size σ.mem σ'.mem (σ.vec i).uninit.span)
    (hsub : v.uninit.span.addresses ⊆ (σ.vec i).uninit.span.addresses) : Refines E σ' t' := by
  have hfoot : ∀ j, σ'.footprint i j = if i ∈ σ.lenders j then v.front else v.uninit.span := by
    intro j
    rw [Shelf.footprint, hσlenders, hσvec, Function.update_self]
  have hfoot' : ∀ j k, j ≠ i → σ'.footprint j k = σ.footprint j k := by
    intro j k hj
    rw [Shelf.footprint, Shelf.footprint, hσlenders, hσvec, Function.update_of_ne hj]
  have hi_apart : ∀ j ∈ σ.live, i ≠ j →
      Disjoint (σ'.footprint i j).addresses (σ'.footprint j i).addresses := by
    intro j hj hij
    have hapart := h.apart i hi j hj hij
    rw [hfoot, if_neg (hfree j hj), hfoot' j i hij.symm]
    rw [Shelf.footprint, if_neg (hfree j hj)] at hapart
    exact hapart.mono_left hsub
  refine ⟨by rw [hσlive, htlive, h.live], by rw [hσlenders, htlenders, h.lenders],
    hrecords.entered, hrecords.returned, hrecords.dropped, ?_, ?_, ?_⟩
  · intro j hj
    rw [hσlive] at hj
    rw [hσvec, htvec]
    by_cases hij : j = i
    · rw [hij, Function.update_self, Function.update_self]
      exact hholds
    · rw [Function.update_of_ne hij, Function.update_of_ne hij]
      exact h.holds_of_keeps hi hfree hkeeps hj hij
  · intro j hj
    rw [hσlive] at hj ⊢
    rw [hσlenders]
    exact h.lenders_live j hj
  · intro j hj k hk hjk
    rw [hσlive] at hj hk
    by_cases hji : j = i
    · rw [hji] at hjk ⊢
      exact hi_apart k hk hjk
    · by_cases hki : k = i
      · rw [hki]
        exact (hi_apart j hj (Ne.symm hji)).symm
      · rw [hfoot' j k hji, hfoot' k j hki]
        exact h.apart j hj k hk hjk

/-- Nothing of the view of a vector that nobody borrows is occupied by another one. -/
theorem footprint_apart {j : I} (hj : j ∈ σ.live) (hji : j ≠ i) :
    Disjoint (σ.vec i).uninit.span.addresses (σ.footprint j i).addresses := by
  have hapart := h.apart i hi j hj (Ne.symm hji)
  rwa [Shelf.footprint, if_neg (hfree j hj)] at hapart

/-- After a cut, a vector that was there before and any other one are apart. -/
theorem apart_addVec {new : I} {v part : FixedVec E.ty} {lenders : Finset I}
    (hnew : new ∉ σ.live) (hlenders : lenders = σ.lenders i ∨ lenders = insert i (σ.lenders i))
    (hvsub : v.uninit.span.addresses ⊆ (σ.vec i).uninit.span.addresses)
    (hpartsub : part.uninit.span.addresses ⊆ (σ.vec i).uninit.span.addresses)
    (hcut : Disjoint (if i ∈ lenders then v.front else v.uninit.span).addresses
      part.uninit.span.addresses) {j k : I} (hj : j ∈ σ.live) (hk : k ∈ insert new σ.live)
    (hjk : j ≠ k) :
    Disjoint ((σ.addVec i v new part lenders).footprint j k).addresses
      ((σ.addVec i v new part lenders).footprint k j).addresses := by
  have hmem : ∀ j ∈ σ.live, j ≠ new := fun j hj hjn => hnew (hjn ▸ hj)
  have hnever : ∀ j ∈ σ.live, new ∉ σ.lenders j := fun j hj hjn => hnew (h.lenders_live j hj hjn)
  rcases Finset.mem_insert.mp hk with rfl | hk
  · rw [Shelf.footprint_addVec_new (hmem j hj) (hnever j hj)]
    by_cases hji : j = i
    · rw [hji, Shelf.footprint_addVec_target_new (hmem i hi)]
      exact hcut
    · have hlend : j ∈ lenders ↔ j ∈ σ.lenders i := by
        rcases hlenders with hl | hl
        · rw [hl]
        · rw [hl, Finset.mem_insert, or_iff_right hji]
      rw [Shelf.footprint_addVec_to_new (hmem j hj) hji hlend]
      exact ((h.footprint_apart hi hfree hj hji).mono_left hpartsub).symm
  · by_cases hji : j = i
    · rw [hji] at hjk ⊢
      rw [Shelf.footprint_addVec_target (hmem i hi) (hmem k hk) (hfree k hk),
        Shelf.footprint_addVec_of_ne (hmem k hk) (hmem i hi) (Ne.symm hjk)]
      exact (h.footprint_apart hi hfree hk (Ne.symm hjk)).mono_left hvsub
    · by_cases hki : k = i
      · rw [hki, Shelf.footprint_addVec_of_ne (hmem j hj) (hmem i hi) hji,
          Shelf.footprint_addVec_target (hmem i hi) (hmem j hj) (hfree j hj)]
        exact ((h.footprint_apart hi hfree hj hji).mono_left hvsub).symm
      · rw [Shelf.footprint_addVec_of_ne (hmem j hj) (hmem k hk) hji,
          Shelf.footprint_addVec_of_ne (hmem k hk) (hmem j hj) hki]
        exact h.apart j hj k hk hjk

/-- **The view of one vector is cut, and the second part is a new vector**, which
borrows what the first one borrows, and perhaps the first one. -/
theorem add {new : I} {v part : FixedVec E.ty} {b c : Bounded α} {lenders : Finset I}
    (hnew : new ∉ σ.live) (hlenders : lenders = σ.lenders i ∨ lenders = insert i (σ.lenders i))
    (hv : Holds E σ.mem v b) (hpart : Holds E σ.mem part c)
    (hvsub : v.uninit.span.addresses ⊆ (σ.vec i).uninit.span.addresses)
    (hpartsub : part.uninit.span.addresses ⊆ (σ.vec i).uninit.span.addresses)
    (hcut : Disjoint (if i ∈ lenders then v.front else v.uninit.span).addresses
      part.uninit.span.addresses) :
    Refines E (σ.addVec i v new part lenders) (t.addVec i b new c lenders) := by
  have hmem : ∀ j ∈ σ.live, j ≠ new := fun j hj hjn => hnew (hjn ▸ hj)
  have hold : ∀ j ∈ σ.live, ∀ k ∈ insert new σ.live, j ≠ k →
      Disjoint ((σ.addVec i v new part lenders).footprint j k).addresses
        ((σ.addVec i v new part lenders).footprint k j).addresses :=
    fun j hj k hk => h.apart_addVec hi hfree hnew hlenders hvsub hpartsub hcut hj hk
  refine ⟨?_, ?_, h.entered, h.returned, h.dropped, ?_, ?_, ?_⟩
  · show insert new σ.live = insert new t.live
    rw [h.live]
  · show Function.update σ.lenders new lenders = Function.update t.lenders new lenders
    rw [h.lenders]
  · intro j hj
    show Holds E σ.mem (Function.update (Function.update σ.vec i v) new part j)
      (Function.update (Function.update t.vec i b) new c j)
    rcases Finset.mem_insert.mp hj with rfl | hj
    · rw [Function.update_self, Function.update_self]
      exact hpart
    · rw [Function.update_of_ne (hmem j hj), Function.update_of_ne (hmem j hj)]
      by_cases hji : j = i
      · rw [hji, Function.update_self, Function.update_self]
        exact hv
      · rw [Function.update_of_ne hji, Function.update_of_ne hji]
        exact h.holds j hj
  · intro j hj
    show Function.update σ.lenders new lenders j ⊆ insert new σ.live
    rcases Finset.mem_insert.mp hj with rfl | hj
    · rw [Function.update_self]
      refine Finset.Subset.trans ?_ (Finset.subset_insert _ _)
      rcases hlenders with hl | hl
      · rw [hl]
        exact h.lenders_live i hi
      · rw [hl]
        exact Finset.insert_subset hi (h.lenders_live i hi)
    · rw [Function.update_of_ne (hmem j hj)]
      exact (h.lenders_live j hj).trans (Finset.subset_insert _ _)
  · intro j hj k hk hjk
    rcases Finset.mem_insert.mp hj with rfl | hj
    · rcases Finset.mem_insert.mp hk with rfl | hk'
      · exact absurd rfl hjk
      · exact (hold k hk' _ hj (Ne.symm hjk)).symm
    · exact hold j hj k hk hjk

/-- **A vector ends.** -/
theorem drop (hσlive : σ'.live = σ.live.erase i) (hσlenders : σ'.lenders = σ.lenders)
    (hσvec : σ'.vec = σ.vec) (hmem : σ'.mem = σ.mem) (htlive : t'.live = t.live.erase i)
    (htlenders : t'.lenders = t.lenders) (htvec : t'.vec = t.vec)
    (hrecords : SameRecords σ' t') : Refines E σ' t' := by
  have hlive : ∀ j ∈ σ'.live, j ∈ σ.live := by
    intro j hj
    rw [hσlive] at hj
    exact Finset.mem_of_mem_erase hj
  have hfoot : ∀ j k, σ'.footprint j k = σ.footprint j k := by
    intro j k
    rw [Shelf.footprint, Shelf.footprint, hσlenders, hσvec]
  refine ⟨by rw [hσlive, htlive, h.live], by rw [hσlenders, htlenders, h.lenders],
    hrecords.entered, hrecords.returned, hrecords.dropped, ?_, ?_, ?_⟩
  · intro j hj
    rw [hmem, hσvec, htvec]
    exact h.holds j (hlive j hj)
  · intro j hj k hk
    rw [hσlenders] at hk
    rw [hσlive]
    refine Finset.mem_erase.mpr ⟨?_, h.lenders_live j (hlive j hj) hk⟩
    rintro rfl
    exact hfree j (hlive j hj) hk
  · intro j hj k hk hjk
    rw [hfoot, hfoot]
    exact h.apart j (hlive j hj) k (hlive k hk) hjk

end

end Refines

end FixedVec
end StaticAlloc
