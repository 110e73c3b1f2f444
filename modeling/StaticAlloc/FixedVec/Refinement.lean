import StaticAlloc.FixedVec.Apart

/-!
# The vectors of a shelf are bounded lists

Every operation has one lemma: what it returns on the vectors it returns on the
lists, and the two stay related (`StepRefines`).  `exec_refines` collects them and
is the step of the simulation; the simulation rule of the run library gives the
rest.  `AsSpecified` says what the relation means in terms of the vectors alone.
-/

namespace StaticAlloc
namespace FixedVec

open Toolkit

variable {w : ℕ} {α I : Type} [DecidableEq I] {E : Element w α}

/-! ## The operations -/

section

variable {σ : Shelf E.ty I α} {t : Ledger I α} {i : I}

omit [DecidableEq I] in
theorem Bounded.push_eq_none_iff {b : Bounded α} {a : α} :
    b.push a = none ↔ b.items.length = b.cap := by
  rw [Bounded.push]
  split
  · exact iff_of_true rfl ‹_›
  · exact iff_of_false (by simp) ‹_›

theorem Shelf.setVec_self {T : Ty w} (σ : Shelf T I α) (i : I) : σ.setVec i (σ.vec i) = σ := by
  rw [Shelf.setVec, Function.update_eq_self]

/-- A full vector gives the value back, and nothing changes. -/
theorem exec_push_full (hv : Holds E σ.mem (σ.vec i) (t.vec i)) {val : α}
    (hfull : (t.vec i).push val = none) : σ.exec (.push i val) = (σ, .refused val) := by
  rw [Shelf.exec, push_full hv (Bounded.push_eq_none_iff.mp hfull)]
  simp only [Shelf.setVec_self]

theorem exec_push_room (hv : Holds E σ.mem (σ.vec i) (t.vec i)) {val : α} {b : Bounded α}
    (hroom : (t.vec i).push val = some b) :
    σ.exec (.push i val) =
      ({ σ with
          mem := σ.mem.write E.ty.size (σ.vec i).endMutPtr val
          entered := val ::ₘ σ.entered }.setVec i
        { σ.vec i with length := (σ.vec i).length + 1 }, .done) := by
  have hne : (t.vec i).items.length ≠ (t.vec i).cap := by
    intro hfull
    rw [Bounded.push_eq_none_iff.mpr hfull] at hroom
    exact absurd hroom (by simp)
  rw [Shelf.exec, (push_room hv hne val).1]

theorem exec_fill (hv : Holds E σ.mem (σ.vec i) (t.vec i)) (iter : Source α) :
    σ.exec (.fill i iter) =
      ({ σ with
          mem := σ.mem.writeArray E.ty.size (σ.vec i).endMutPtr
            (iter.pull ((t.vec i).cap - (t.vec i).items.length)).1
          entered := σ.entered +
            ((iter.pull ((t.vec i).cap - (t.vec i).items.length)).1 : List α) }.setVec i
        { σ.vec i with
          length := (σ.vec i).length +
            (iter.pull ((t.vec i).cap - (t.vec i).items.length)).1.length },
        .rest (iter.pull ((t.vec i).cap - (t.vec i).items.length)).2) := by
  rw [Shelf.exec, fill_eq hv]

/-- The step of one operation: what it returns on the vectors it returns on the
lists, and they stay related. -/
def StepRefines (E : Element w α) (σ : Shelf E.ty I α) (t : Ledger I α) (op : Op I α) : Prop :=
  (σ.exec op).2 = (t.exec E.kind op).2 ∧ Refines E (σ.exec op).1 (t.exec E.kind op).1

variable (h : Refines E σ t) (hi : i ∈ σ.live) (hfree : ∀ j ∈ σ.live, i ∉ σ.lenders j)

include h hi hfree

theorem push_refines (val : α) : StepRefines E σ t (.push i val) := by
  have hv := h.holds i hi
  have hstart : (σ.vec i).uninit.span.start ≤ (σ.vec i).endMutPtr := Nat.le_add_right _ _
  rw [StepRefines]
  cases hpush : (t.vec i).push val with
  | none =>
    have ht : t.exec E.kind (.push i val) = (t, .refused val) := by
      rw [Ledger.exec, hpush]
    rw [exec_push_full hv hpush, ht]
    exact ⟨rfl, h⟩
  | some b =>
    have ht : t.exec E.kind (.push i val) =
        ({ t with entered := val ::ₘ t.entered }.setVec i b, .done) := by
      rw [Ledger.exec, hpush]
    have hne : (t.vec i).items.length ≠ (t.vec i).cap := by
      intro hfull
      rw [Bounded.push_eq_none_iff.mpr hfull] at hpush
      exact absurd hpush (by simp)
    have hroom := (push_room hv hne val).2
    rw [exec_push_room hv hpush, ht]
    refine ⟨rfl, h.update hi hfree rfl rfl rfl rfl rfl rfl
      ⟨congrArg (val ::ₘ ·) h.entered, h.returned, h.dropped⟩ (hv.write_end hpush) ?_
      (Set.Subset.refl _)⟩
    have hend : (σ.vec i).endMutPtr + [val].length * E.ty.size
        ≤ (σ.vec i).uninit.span.stop := by
      rw [List.length_singleton, Nat.one_mul]
      exact hroom
    exact keeps_writeArray hstart hend

theorem pop_refines : StepRefines E σ t (.pop i) := by
  have hv := h.holds i hi
  rw [StepRefines]
  cases hlast : (t.vec i).items.getLast? with
  | none =>
    have ht : t.exec E.kind (.pop i) = (t, .popped none) := by
      rw [Ledger.exec, hlast]
    have hσ : σ.exec (.pop i) = (σ, .popped none) := by
      rw [Shelf.exec, pop_empty hv (List.getLast?_eq_none_iff.mp hlast)]
      simp only [Shelf.setVec_self]
    rw [hσ, ht]
    exact ⟨rfl, h⟩
  | some val =>
    have ht : t.exec E.kind (.pop i) =
        ({ t with returned := val ::ₘ t.returned }.setVec i
          ((t.vec i).take ((t.vec i).items.length - 1)), .popped (some val)) := by
      rw [Ledger.exec, hlast]
    have hσ : σ.exec (.pop i) =
        ({ σ with returned := val ::ₘ σ.returned }.setVec i
          { σ.vec i with length := (σ.vec i).length - 1 }, .popped (some val)) := by
      rw [Shelf.exec, pop_last hv hlast]
    have htake := hv.take ((t.vec i).items.length - 1)
    rw [← hv.length, min_eq_left (Nat.sub_le _ _), hv.length] at htake
    rw [hσ, ht]
    refine ⟨rfl, h.update hi hfree rfl rfl rfl rfl rfl rfl
      ⟨h.entered, congrArg (val ::ₘ ·) h.returned, h.dropped⟩ ?_ (Keeps.refl _ _ _)
      (Set.Subset.refl _)⟩
    rw [hv.length]
    exact htake

theorem truncate_refines (len : ℕ) : StepRefines E σ t (.truncate i len) := by
  have hv := h.holds i hi
  rw [StepRefines]
  have hσ : σ.exec (.truncate i len) =
      ((σ.setVec i { σ.vec i with length := min len (σ.vec i).length }).logDropped
        ((t.vec i).items.drop len).reverse, .done) := by
    rw [Shelf.exec, truncate_ok hv]
  rw [hσ]
  refine ⟨rfl, h.update hi hfree rfl rfl rfl rfl rfl rfl
    ⟨h.entered, h.returned, ?_⟩ (hv.take len) (Keeps.refl _ _ _) (Set.Subset.refl _)⟩
  show σ.dropped + _ = t.dropped + _
  rw [h.dropped, Multiset.coe_reverse]

theorem clear_refines : StepRefines E σ t (.clear i) := by
  have hv := h.holds i hi
  rw [StepRefines]
  have hσ : σ.exec (.clear i) =
      ((σ.setVec i { σ.vec i with length := min 0 (σ.vec i).length }).logDropped
        ((t.vec i).items.drop 0).reverse, .done) := by
    rw [Shelf.exec, clear, truncate_ok hv]
  rw [hσ]
  refine ⟨rfl, h.update hi hfree rfl rfl rfl rfl rfl rfl
    ⟨h.entered, h.returned, ?_⟩ (hv.take 0) (Keeps.refl _ _ _) (Set.Subset.refl _)⟩
  show σ.dropped + _ = t.dropped + _
  rw [h.dropped, Multiset.coe_reverse, List.drop_zero]

theorem fill_refines (iter : Source α) : StepRefines E σ t (.fill i iter) := by
  have hv := h.holds i hi
  have hstart : (σ.vec i).uninit.span.start ≤ (σ.vec i).endMutPtr := Nat.le_add_right _ _
  rw [StepRefines]
  rw [exec_fill hv]
  exact ⟨rfl, h.update hi hfree rfl rfl rfl rfl rfl rfl
    ⟨congrArg (· + _) h.entered, h.returned, h.dropped⟩ (hv.fill iter)
    (keeps_writeArray hstart (fill_room hv iter)) (Set.Subset.refl _)⟩

theorem extend_refines (iter : Source α) : StepRefines E σ t (.extend i iter) := by
  have hv := h.holds i hi
  have hstart : (σ.vec i).uninit.span.start ≤ (σ.vec i).endMutPtr := Nat.le_add_right _ _
  rw [StepRefines]
  rw [Shelf.exec, Ledger.exec, extend, fill_eq hv]
  cases hspill : (iter.pull ((t.vec i).cap - (t.vec i).items.length)).2.next.1 with
  | none =>
    simp only [hspill]
    exact ⟨trivial, h.update hi hfree rfl rfl rfl rfl rfl rfl
      ⟨congrArg (· + _) h.entered, h.returned, h.dropped⟩ (hv.fill iter)
      (keeps_writeArray hstart (fill_room hv iter)) (Set.Subset.refl _)⟩
  | some spill =>
    simp only [hspill]
    refine ⟨trivial, h.update hi hfree rfl rfl rfl rfl rfl rfl
      ⟨congrArg (fun x => spill ::ₘ (x + _)) h.entered, h.returned, ?_⟩ (hv.fill iter)
      (keeps_writeArray hstart (fill_room hv iter)) (Set.Subset.refl _)⟩
    show σ.dropped + {spill} = spill ::ₘ t.dropped
    rw [h.dropped, add_comm, Multiset.singleton_add]

theorem splitBorrowed_refines (k : ℕ) {new : I} (hnew : new ∉ σ.live) :
    StepRefines E σ t (.splitBorrowed i k new) := by
  have hv := h.holds i hi
  rw [StepRefines]
  rw [Shelf.exec, Ledger.exec]
  by_cases hk : k ≤ (t.vec i).cap
  · obtain ⟨part, hsplit, hfirst, hsecond, hspan, hroom⟩ := splitBorrowed_ok hv hk
    rw [hsplit, if_pos hk, ← h.lenders]
    refine ⟨rfl, h.add hi hfree hnew (Or.inr rfl) hfirst hsecond (Set.Subset.refl _)
      ?_ ?_⟩
    · rw [hspan, (Span.halves_at (σ.vec i).uninit.span hroom).union]
      exact Set.subset_union_right
    · rw [if_pos (Finset.mem_insert_self _ _), hspan]
      refine Span.disjoint_of_le (Or.inl ?_)
      show (σ.vec i).uninit.ptr + min k (σ.vec i).length * E.ty.size ≤ _
      exact Nat.add_le_add_left (Nat.mul_le_mul_right _ (min_le_left _ _)) _
  · have hcap : ¬ k ≤ (σ.vec i).capacity := by rwa [hv.cap]
    rw [(split_outOfBounds hcap).1, if_neg hk]
    exact ⟨rfl, h⟩

theorem splitAndShrinkTo_refines (k : ℕ) {new : I} (hnew : new ∉ σ.live) :
    StepRefines E σ t (.splitAndShrinkTo i k new) := by
  have hv := h.holds i hi
  rw [StepRefines]
  rw [Shelf.exec, Ledger.exec]
  by_cases hk : k ≤ (t.vec i).cap
  · obtain ⟨v', part, hsplit, hfirst, hsecond, hspan, hspan', hroom⟩ := splitAndShrinkTo_ok hv hk
    have hsplits := Span.halves_at (σ.vec i).uninit.span (k := k * E.ty.size) hroom
    rw [hsplit, if_pos hk, ← h.lenders]
    refine ⟨rfl, h.add hi hfree hnew (Or.inl rfl) hfirst hsecond ?_ ?_ ?_⟩
    · rw [hspan, hsplits.union]
      exact Set.subset_union_left
    · rw [hspan', hsplits.union]
      exact Set.subset_union_right
    · rw [if_neg (hfree i hi), hspan, hspan']
      exact hsplits.disjoint
  · have hcap : ¬ k ≤ (σ.vec i).capacity := by rwa [hv.cap]
    rw [(split_outOfBounds hcap).2, if_neg hk]
    exact ⟨rfl, h⟩

theorem shrinkToFit_refines : StepRefines E σ t (.shrinkToFit i) := by
  have hv := h.holds i hi
  rw [StepRefines]
  obtain ⟨v', rest, hshrink, hholds, hspan⟩ := shrinkToFit_ok hv
  have hσ : σ.exec (.shrinkToFit i) =
      ({ σ with trailing := rest :: σ.trailing }.setVec i v', .done) := by
    rw [Shelf.exec, hshrink]
  rw [hσ]
  refine ⟨rfl, h.update hi hfree rfl rfl rfl rfl rfl (Function.update_eq_self i t.vec).symm
    ⟨h.entered, h.returned, h.dropped⟩ hholds (Keeps.refl _ _ _) ?_⟩
  rw [hspan]
  exact Span.addresses_subset le_rfl (Nat.add_le_add_left (Holds.mul_le le_rfl) _)

theorem drop_refines : StepRefines E σ t (.drop i) := by
  have hv := h.holds i hi
  rw [StepRefines]
  have hσ : σ.exec (.drop i) =
      ({ σ with live := σ.live.erase i }.logDropped (t.vec i).items, .done) := by
    rw [Shelf.exec, drop_ok hv]
  rw [hσ]
  exact ⟨rfl, h.drop hi hfree rfl rfl rfl rfl rfl rfl rfl
    ⟨h.entered, h.returned, congrArg (· + _) h.dropped⟩⟩

omit h hi hfree

/-- **One step.** -/
theorem exec_refines (h : Refines E σ t) {op : Op I α} (hen : σ.Enabled op) :
    StepRefines E σ t op := by
  obtain ⟨hi, hfree, hnew⟩ := hen
  cases op with
  | push i val => exact push_refines h hi hfree val
  | pop i => exact pop_refines h hi hfree
  | truncate i len => exact truncate_refines h hi hfree len
  | clear i => exact clear_refines h hi hfree
  | fill i iter => exact fill_refines h hi hfree iter
  | extend i iter => exact extend_refines h hi hfree iter
  | splitBorrowed i k new => exact splitBorrowed_refines h hi hfree k (hnew new rfl)
  | splitAndShrinkTo i k new => exact splitAndShrinkTo_refines h hi hfree k (hnew new rfl)
  | shrinkToFit i => exact shrinkToFit_refines h hi hfree
  | drop i => exact drop_refines h hi hfree

end

/-! ## Runs -/

/-- **The vectors simulate the lists.** -/
theorem simulation (E : Element w α) :
    Simulation (Shelf.machine E.ty I α) (Ledger.machine E.kind I α) (Refines E) where
  init := by
    rintro σ ⟨mem, uninit, i, rfl⟩
    refine ⟨_, ⟨uninit.capacity, i, rfl⟩, rfl, rfl, rfl, rfl, rfl, fun j _ => ?_, fun j _ => ?_,
      fun j hj k hk hjk => ?_⟩
    · exact ⟨rfl, rfl, Cells.Stores.nil⟩
    · exact Finset.empty_subset _
    · rw [Finset.mem_singleton.mp hj, Finset.mem_singleton.mp hk] at hjk
      exact absurd rfl hjk
  step := by
    rintro σ ⟨op, r⟩ σ' t - h ⟨hen, hexec⟩
    have hen' : t.Enabled op := by
      obtain ⟨hi, hfree, hnew⟩ := hen
      rw [h.live] at hi hfree hnew
      rw [h.lenders] at hfree
      exact ⟨hi, hfree, hnew⟩
    obtain ⟨hr, hrefines⟩ := exec_refines h hen
    rw [hexec] at hr hrefines
    exact ⟨(t.exec E.kind op).1, ⟨hen', Prod.ext rfl hr.symm⟩, hrefines⟩

/-- What the cells of the elements hold. -/
def contents {T : Ty w} (m : Cells α) (v : FixedVec T) : List (Option α) :=
  (List.range v.length).map fun k => m (v.uninit.ptr + k * T.size)

theorem Holds.contents_eq {m : Cells α} {v : FixedVec E.ty} {b : Bounded α}
    (h : Holds E m v b) : v.contents m = b.items.map some :=
  h.stores.map_range h.length

/-- The two parts of a split hold what they should, in different memory. -/
def SplitsAt {T : Ty w} (σ σ' : Shelf T I α) (i : I) (k : ℕ) (new : I) : Prop :=
  (σ'.vec i).contents σ'.mem = ((σ.vec i).contents σ.mem).take k ∧
    (σ'.vec new).contents σ'.mem = ((σ.vec i).contents σ.mem).drop k ∧
    Disjoint (σ'.vec i).front.addresses (σ'.vec new).uninit.span.addresses

/-- `fill` takes the items that are there, as many as fit, and leaves the rest. -/
def FillsExactly {T : Ty w} (σ : Shelf T I α) (i : I) (iter : Source α) : Prop :=
  let free := (σ.vec i).capacity - (σ.vec i).length
  ∃ items : List α,
    (σ.exec (.fill i iter)).2 =
        .rest (iter.advance (items.length + if items.length < free then 1 else 0)) ∧
      items.length ≤ free ∧ (∀ k, k < items.length → iter.poll k = items[k]?) ∧
      (items.length < free → iter.poll items.length = none) ∧
      ((σ.exec (.fill i iter)).1.vec i).contents (σ.exec (.fill i iter)).1.mem =
        (σ.vec i).contents σ.mem ++ items.map some

/-- The vectors are as they should be: what they hold, where they are, where the
elements went, and what the next operation will do. -/
structure AsSpecified (E : Element w α) (σ : Shelf E.ty I α) (t : Ledger I α) : Prop where
  live : σ.live = t.live
  contents : ∀ i ∈ σ.live, (σ.vec i).contents σ.mem = (t.vec i).items.map some
  length_le : ∀ i ∈ σ.live, (σ.vec i).length ≤ (σ.vec i).capacity
  capacity : ∀ i ∈ σ.live, (t.vec i).cap = (σ.vec i).capacity ∧
    (σ.vec i).capacity = if E.ty.size = 0 then usizeMax w else (σ.vec i).uninit.len / E.ty.size
  apart : ∀ i ∈ σ.live, ∀ j ∈ σ.live, i ≠ j →
    Disjoint (σ.vec i).front.addresses (σ.vec j).front.addresses ∧
      (i ∉ σ.lenders j → j ∉ σ.lenders i →
        Disjoint (σ.vec i).uninit.span.addresses (σ.vec j).uninit.span.addresses)
  conserved : σ.entered =
    (σ.live.sum fun i => ((t.vec i).items : Multiset α)) + σ.returned + σ.dropped
  push : ∀ i val, σ.Enabled (.push i val) →
    ((σ.vec i).length = (σ.vec i).capacity → σ.exec (.push i val) = (σ, .refused val)) ∧
      ((σ.vec i).length ≠ (σ.vec i).capacity → (σ.exec (.push i val)).2 = .done)
  fill : ∀ i iter, σ.Enabled (.fill i iter) → FillsExactly σ i iter
  split : ∀ i k new, k ≤ (σ.vec i).capacity →
    (σ.Enabled (.splitBorrowed i k new) →
      SplitsAt σ (σ.exec (.splitBorrowed i k new)).1 i k new) ∧
    (σ.Enabled (.splitAndShrinkTo i k new) →
      SplitsAt σ (σ.exec (.splitAndShrinkTo i k new)).1 i k new)
  stops : ∀ op s, σ.Enabled op → (σ.exec op).2 = .stopped s →
    s = .panic "`at` out of bounds" ∨ s = .panic "FixedVec memory exhausted"

namespace Refines

variable {σ : Shelf E.ty I α} {t : Ledger I α} {i : I}

theorem fillsExactly (h : Refines E σ t) {iter : Source α} (hen : σ.Enabled (.fill i iter)) :
    FillsExactly σ i iter := by
  have hv : Holds E σ.mem (σ.vec i) (t.vec i) := h.holds i hen.1
  have hcap : (σ.vec i).capacity - (σ.vec i).length = (t.vec i).cap - (t.vec i).items.length := by
    rw [hv.cap, hv.length]
  obtain ⟨-, hrefines⟩ := exec_refines h hen
  have hlive : i ∈ (σ.exec (.fill i iter)).1.live := by
    rw [exec_fill hv]
    exact hen.1
  have hafter := (hrefines.holds i hlive).contents_eq
  obtain ⟨h₁, h₂, h₃⟩ := iter.pull_spec ((t.vec i).cap - (t.vec i).items.length)
  have hle := iter.pull_length_le ((t.vec i).cap - (t.vec i).items.length)
  rw [FillsExactly]
  simp only [hcap]
  refine ⟨_, ?_, hle, h₁, h₂, ?_⟩
  · have hpolls : iter.polls ((t.vec i).cap - (t.vec i).items.length) =
        (iter.pull ((t.vec i).cap - (t.vec i).items.length)).1.length +
          if (iter.pull ((t.vec i).cap - (t.vec i).items.length)).1.length <
            (t.vec i).cap - (t.vec i).items.length then 1 else 0 := by
      rw [Source.polls]
      split <;> omega
    rw [exec_fill hv, h₃, hpolls]
  · rw [hafter, hv.contents_eq, ← List.map_append]
    show List.map some (Function.update t.vec i ((t.vec i).fill iter) i).items = _
    rw [Function.update_self]
    rfl

/-- After either kind of split the two vectors hold the two parts of the list. -/
theorem splitsAt (h : Refines E σ t) {op : Op I α} {k : ℕ} {new : I} (hen : σ.Enabled op)
    (hi : i ∈ σ.live) (hnew : new ∉ σ.live) {b : Bounded α} {lenders : Finset I}
    (hb : b.items = (t.vec i).items.take k)
    (ht : (t.exec E.kind op).1 = t.addVec i b new ((t.vec i).second E.kind k) lenders) :
    SplitsAt σ (σ.exec op).1 i k new := by
  obtain ⟨-, h'⟩ := exec_refines h hen
  have hne : i ≠ new := fun hin => hnew (hin ▸ hi)
  have hlive : (σ.exec op).1.live = insert new σ.live := by
    rw [h'.live, ht, h.live]
    rfl
  have hi' : i ∈ (σ.exec op).1.live := hlive ▸ Finset.mem_insert_of_mem hi
  have hnew' : new ∈ (σ.exec op).1.live := hlive ▸ Finset.mem_insert_self _ _
  have hveci : (t.exec E.kind op).1.vec i = b := by
    rw [ht]
    show Function.update (Function.update t.vec i b) new _ i = b
    rw [Function.update_of_ne hne, Function.update_self]
  have hvecnew : (t.exec E.kind op).1.vec new = (t.vec i).second E.kind k := by
    rw [ht]
    exact Function.update_self _ _ _
  have hlend : new ∉ (σ.exec op).1.lenders i := by
    rw [h'.lenders, ht]
    show new ∉ Function.update t.lenders new lenders i
    rw [Function.update_of_ne hne, ← h.lenders]
    exact fun hmem => hnew (h.lenders_live i hi hmem)
  refine ⟨?_, ?_, ?_⟩
  · rw [(h'.holds i hi').contents_eq, (h.holds i hi).contents_eq, hveci, hb, List.map_take]
  · rw [(h'.holds new hnew').contents_eq, (h.holds i hi).contents_eq, hvecnew, ← List.map_drop]
    rfl
  · have hapart := h'.apart i hi' new hnew' hne
    rw [Shelf.footprint, Shelf.footprint, if_neg hlend] at hapart
    split at hapart
    · exact hapart
    · exact hapart.mono_left (front_subset (h'.holds i hi'))

/-- The lists stop for two reasons only. -/
theorem Ledger.stops {kind : Kind} {t : Ledger I α} {op : Op I α} {s : Stop}
    (h : (t.exec kind op).2 = .stopped s) :
    s = .panic "`at` out of bounds" ∨ s = .panic "FixedVec memory exhausted" := by
  cases op with
  | push i val =>
    rw [Ledger.exec] at h
    cases hpush : (t.vec i).push val with
    | none => rw [hpush] at h; exact absurd h (by simp)
    | some b => rw [hpush] at h; exact absurd h (by simp)
  | pop i =>
    rw [Ledger.exec] at h
    cases hlast : (t.vec i).items.getLast? with
    | none => rw [hlast] at h; exact absurd h (by simp)
    | some val => rw [hlast] at h; exact absurd h (by simp)
  | extend i iter =>
    rw [Ledger.exec] at h
    cases hspill : (iter.pull ((t.vec i).cap - (t.vec i).items.length)).2.next.1 with
    | none => simp only [hspill] at h; exact absurd h (by simp)
    | some spill =>
      simp only [hspill] at h
      exact Or.inr (Reply.stopped.inj h).symm
  | splitBorrowed i k new =>
    rw [Ledger.exec] at h
    split at h
    · exact absurd h (by simp)
    · exact Or.inl (Reply.stopped.inj h).symm
  | splitAndShrinkTo i k new =>
    rw [Ledger.exec] at h
    split at h
    · exact absurd h (by simp)
    · exact Or.inl (Reply.stopped.inj h).symm
  | truncate i len | clear i | fill i iter | shrinkToFit i | drop i =>
    exact absurd h (by simp [Ledger.exec])

theorem asSpecified (h : Refines E σ t) (hcons : t.Conserved) : AsSpecified E σ t where
  live := h.live
  contents i hi := (h.holds i hi).contents_eq
  length_le i hi := (h.holds i hi).length_le
  capacity i hi := ⟨(h.holds i hi).cap.symm, capacity_eq _ _⟩
  apart i hi j hj hij := by
    have hapart := h.apart i hi j hj hij
    have hfront := front_subset (h.holds i hi)
    have hfront' := front_subset (h.holds j hj)
    rw [Shelf.footprint, Shelf.footprint] at hapart
    constructor
    · split at hapart <;> split at hapart
      · exact hapart
      · exact hapart.mono_right hfront'
      · exact hapart.mono_left hfront
      · exact hapart.mono hfront hfront'
    · intro h₁ h₂
      rwa [if_neg h₁, if_neg h₂] at hapart
  conserved := by
    rw [h.entered, h.returned, h.dropped, h.live]
    exact hcons
  push i val hen := by
    have hv : Holds E σ.mem (σ.vec i) (t.vec i) := h.holds i hen.1
    rw [hv.length, hv.cap]
    refine ⟨fun hfull => exec_push_full hv (Bounded.push_eq_none_iff.mpr hfull), fun hne => ?_⟩
    cases hpush : (t.vec i).push val with
    | none => exact absurd (Bounded.push_eq_none_iff.mp hpush) hne
    | some b => rw [exec_push_room hv hpush]
  fill i iter hen := h.fillsExactly hen
  split i k new hk := by
    constructor
    · intro hen
      have hi : i ∈ σ.live := hen.1
      have hnew : new ∉ σ.live := hen.2.2 new rfl
      have hcap : k ≤ (t.vec i).cap := by rwa [← (h.holds i hi).cap]
      have hexec : (t.exec E.kind (.splitBorrowed i k new)).1 = t.addVec i ((t.vec i).take k)
          new ((t.vec i).second E.kind k) (insert i (t.lenders i)) := by
        rw [Ledger.exec, if_pos hcap]
      exact h.splitsAt hen hi hnew rfl hexec
    · intro hen
      have hi : i ∈ σ.live := hen.1
      have hnew : new ∉ σ.live := hen.2.2 new rfl
      have hcap : k ≤ (t.vec i).cap := by rwa [← (h.holds i hi).cap]
      have hexec : (t.exec E.kind (.splitAndShrinkTo i k new)).1 =
          t.addVec i ((t.vec i).first E.kind k) new ((t.vec i).second E.kind k) (t.lenders i) := by
        rw [Ledger.exec, if_pos hcap]
      exact h.splitsAt hen hi hnew rfl hexec
  stops op s hen hs := by
    rw [(exec_refines h hen).1] at hs
    exact Ledger.stops hs

end Refines

/-- **`FixedVec` refines a bounded list.**  For every element type, the
zero-sized ones included, every backing view and every memory: whatever is done
to the vector and to those split off it, there is a run of bounded lists with the
same operations and the same answers, and the vectors at its end are those lists,
with all that is said in `AsSpecified`. -/
theorem shelf_refines (E : Element w α) {σ₀ σ : Shelf E.ty I α}
    {hist : List (Shelf E.ty I α × (Op I α × Reply α) × Shelf E.ty I α)}
    (h₀ : (Shelf.machine E.ty I α).init σ₀) (hrun : (Shelf.machine E.ty I α).Run σ₀ hist σ) :
    ∃ t₀ t hist', (Ledger.machine E.kind I α).init t₀ ∧
      (Ledger.machine E.kind I α).Run t₀ hist' t ∧
      hist'.map (fun x => x.2.1) = hist.map (fun x => x.2.1) ∧ AsSpecified E σ t := by
  obtain ⟨t₀, ht₀, hR₀⟩ := (simulation E).init σ₀ h₀
  obtain ⟨t, hist', hrun', hlabels, hR⟩ :=
    (simulation E).run (Machine.Reachable.of_init h₀) hR₀ hrun
  have ht := Ledger.reachable_conserved (hrun'.reachable (Machine.Reachable.of_init ht₀))
  exact ⟨t₀, t, hist', ht₀, hrun', hlabels, hR.asSpecified ht⟩

/-- Two-byte elements in seven bytes, one of which is of no use. -/
def halfWords : Element 64 ℕ where
  ty := Ty.halfWord
  single h := absurd h (by decide)

/-- A fresh vector over those bytes. -/
def halfWords.start : Shelf halfWords.ty ℕ ℕ where
  mem _ := none
  live := {0}
  vec _ := FixedVec.new ⟨4096, 7, 3, page_pos, by decide, by decide⟩
  lenders _ := ∅
  trailing := []
  entered := 0
  returned := 0
  dropped := 0

/-- The fourth element does not fit; the vector is split behind its first element, and the
second half gets another element for its last one. -/
def halfWords.served : List (Op ℕ ℕ × Reply ℕ) :=
  [(.push 0 5, .done), (.push 0 6, .done), (.push 0 7, .done), (.push 0 8, .refused 8),
    (.splitBorrowed 0 1 1, .done), (.pop 1, .popped (some 7)), (.push 1 9, .done)]

/-- The vectors after the first `n` of these operations. -/
def halfWords.shelfAfter (n : ℕ) : Shelf halfWords.ty ℕ ℕ :=
  (halfWords.served.take n).foldl (fun σ x => (σ.exec x.1).1) halfWords.start

theorem halfWords.run_served :
    ∃ hist, (Shelf.machine halfWords.ty ℕ ℕ).Run halfWords.start hist (halfWords.shelfAfter 7) ∧
      hist.map (fun x => x.2.1) = halfWords.served := by
  let M := Shelf.machine halfWords.ty ℕ ℕ
  have hnothing : ∀ {op : Op ℕ ℕ} {σ : Shelf halfWords.ty ℕ ℕ}, op.makes = none →
      ∀ new, op.makes = some new → new ∉ σ.live := by
    intro op σ hnone new hsome
    exact absurd (hnone.symm.trans hsome) (by simp)
  have h₁ : M.step (halfWords.shelfAfter 0) (.push 0 5, .done) (halfWords.shelfAfter 1) :=
    ⟨⟨by decide, by decide, hnothing rfl⟩, rfl⟩
  have h₂ : M.step (halfWords.shelfAfter 1) (.push 0 6, .done) (halfWords.shelfAfter 2) :=
    ⟨⟨by decide, by decide, hnothing rfl⟩, rfl⟩
  have h₃ : M.step (halfWords.shelfAfter 2) (.push 0 7, .done) (halfWords.shelfAfter 3) :=
    ⟨⟨by decide, by decide, hnothing rfl⟩, rfl⟩
  have h₄ : M.step (halfWords.shelfAfter 3) (.push 0 8, .refused 8) (halfWords.shelfAfter 4) :=
    ⟨⟨by decide, by decide, hnothing rfl⟩, rfl⟩
  have h₅ : M.step (halfWords.shelfAfter 4) (.splitBorrowed 0 1 1, .done)
      (halfWords.shelfAfter 5) := by
    refine ⟨⟨by decide, by decide, fun new hnew => ?_⟩, rfl⟩
    obtain rfl := Option.some.inj hnew
    decide
  have h₆ : M.step (halfWords.shelfAfter 5) (.pop 1, .popped (some 7)) (halfWords.shelfAfter 6) :=
    ⟨⟨by decide, by decide, hnothing rfl⟩, rfl⟩
  have h₇ : M.step (halfWords.shelfAfter 6) (.push 1 9, .done) (halfWords.shelfAfter 7) :=
    ⟨⟨by decide, by decide, hnothing rfl⟩, rfl⟩
  exact ⟨_, (((((((Machine.Run.refl _).tail h₁).tail h₂).tail h₃).tail h₄).tail h₅).tail
    h₆).tail h₇, rfl⟩

/-- Lists answer the same, and at the end they are the elements of the two halves. -/
theorem shelf_refines_served : ∃ t₀ t hist', (Ledger.machine halfWords.kind ℕ ℕ).init t₀ ∧
    (Ledger.machine halfWords.kind ℕ ℕ).Run t₀ hist' t ∧
      hist'.map (fun x => x.2.1) = halfWords.served ∧
      (t.vec 0).items.map some = [some 5] ∧ (t.vec 1).items.map some = [some 6, some 9] := by
  obtain ⟨hist, hrun, hlabels⟩ := halfWords.run_served
  obtain ⟨t₀, t, hist', ht₀, hrun', hlabels', ht⟩ := shelf_refines halfWords ⟨_, _, 0, rfl⟩ hrun
  exact ⟨t₀, t, hist', ht₀, hrun', hlabels'.trans hlabels, (ht.contents 0 (by decide)).symm,
    (ht.contents 1 (by decide)).symm⟩

end FixedVec
end StaticAlloc
