import StaticAlloc.SameAlloc.Model

/-!
# Vectors that are dropped, forgotten and reallocated

What the vectors of the model do to the elements and to the heap, each said once.

Dropping is of all elements or of the process (`Drops`): a panic in one destructor does
not keep the others from being started.  A vector of another type with the same layout
would be freed with the same layout, and has the same capacity, also if the elements
have no bytes (`forgetVec_currentMemory`, `forgetVec_capacity`).  An allocation gives
out a block that was not there before, and the owner of a block can free it
(`Heap.Sound.alloc`, `freeMemory_ok`).
-/

namespace StaticAlloc
namespace SameAlloc

open Toolkit
open FixedVec (Ending)

variable {w : ℕ} {panics : Value w → Bool} {unwinding : Bool} {heap heap' : Heap}
  {owned : Multiset Block}

/-! ## Dropping elements -/

/-- How elements are dropped: their destructors are started in order, all of them unless
the process aborts, which takes a second panic; the call returns if none panics, and
only then. -/
structure Drops (panics : Value w → Bool) (unwinding : Bool) (elements l : List (Value w))
    (ending : Ending) : Prop where
  started : l <+: elements
  all : ending ≠ .aborted → l = elements
  quiet : ending = .returned ↔ ∀ a ∈ elements, panics a = false
  second : ending = .aborted → 2 ≤ elements.countP panics + unwinding.toNat

/-- Nothing is dropped. -/
theorem Drops.nil (panics : Value w → Bool) (unwinding : Bool) :
    Drops panics unwinding [] [] .returned where
  started := List.nil_prefix
  all _ := rfl
  quiet := ⟨fun _ a ha => absurd ha List.not_mem_nil, fun _ => rfl⟩
  second h := absurd h (by simp)

/-- A drop that started with one that panics does not return. -/
theorem not_quiet {a : Value w} (hp : panics a = true) (elements : List (Value w)) :
    ¬ ∀ x ∈ a :: elements, panics x = false :=
  fun hquiet => absurd (hquiet a List.mem_cons_self) (by simp [hp])

section Cons

variable {a : Value w} {elements l : List (Value w)} {ending : Ending}

theorem Drops.cons_quiet (hp : panics a = false) (h : Drops panics unwinding elements l ending) :
    Drops panics unwinding (a :: elements) (a :: l) ending where
  started := List.cons_prefix_cons.mpr ⟨rfl, h.started⟩
  all hne := by rw [h.all hne]
  quiet := by rw [h.quiet, List.forall_mem_cons, and_iff_right hp]
  second habort := by
    rw [List.countP_cons_of_neg (by simp [hp])]
    exact h.second habort

/-- The first panic, after which the thread unwinds. -/
theorem Drops.cons_panics (hp : panics a = true) (h : Drops panics true elements l ending) :
    Drops panics false (a :: elements) (a :: l)
      (if ending = .aborted then .aborted else .unwinding) where
  started := List.cons_prefix_cons.mpr ⟨rfl, h.started⟩
  all hne := by rw [h.all fun habort => hne (if_pos habort)]
  quiet := by
    refine iff_of_false ?_ (not_quiet hp elements)
    split <;> simp
  second habort := by
    by_cases hend : ending = .aborted
    · have hsecond := h.second hend
      rw [List.countP_cons_of_pos hp]
      exact hsecond
    · rw [if_neg hend] at habort
      exact absurd habort (by simp)

/-- A panic while the thread unwinds. -/
theorem Drops.cons_aborts (hp : panics a = true) (elements : List (Value w)) :
    Drops panics true (a :: elements) [a] .aborted where
  started := List.cons_prefix_cons.mpr ⟨rfl, List.nil_prefix⟩
  all hne := absurd rfl hne
  quiet := iff_of_false (by simp) (not_quiet hp elements)
  second _ := by
    rw [List.countP_cons_of_pos hp]
    exact Nat.le_add_left 2 _

end Cons

theorem dropInPlace_zero (T : Kind w) (memory : List (Value w)) :
    dropInPlace panics T unwinding memory 0 = .ok ([], .returned) := by
  cases memory <;> rfl

/-- Elements of the right type can be dropped. -/
theorem dropInPlace_ok (panics : Value w → Bool) {T : Kind w} {memory : List (Value w)} {n : ℕ}
    (hn : n ≤ memory.length) (htyped : ∀ a ∈ memory.take n, a.ty = T) (unwinding : Bool) :
    ∃ l ending, dropInPlace panics T unwinding memory n = .ok (l, ending) ∧
      Drops panics unwinding (memory.take n) l ending := by
  induction n generalizing memory unwinding with
  | zero => exact ⟨[], .returned, dropInPlace_zero T memory, Drops.nil panics unwinding⟩
  | succ n ih =>
    cases memory with
    | nil => exact absurd hn (by simp)
    | cons a memory =>
      rw [List.take_succ_cons] at htyped ⊢
      have hty : ¬ a.ty ≠ T := not_not_intro (htyped a List.mem_cons_self)
      have hrest := @ih memory (Nat.le_of_succ_le_succ hn)
        fun x hx => htyped x (List.mem_cons_of_mem a hx)
      rw [dropInPlace, if_neg hty]
      cases hp : panics a with
      | true =>
        rw [if_pos rfl]
        cases unwinding with
        | true => exact ⟨[a], .aborted, rfl, Drops.cons_aborts hp _⟩
        | false =>
          obtain ⟨l, ending, hloop, hl⟩ := hrest true
          refine ⟨a :: l, _, ?_, hl.cons_panics hp⟩
          rw [if_neg Bool.false_ne_true, hloop]
          rfl
      | false =>
        obtain ⟨l, ending, hloop, hl⟩ := hrest unwinding
        refine ⟨a :: l, ending, ?_, hl.cons_quiet hp⟩
        rw [if_neg Bool.false_ne_true, hloop]
        rfl

namespace Vec

variable {T U : Kind w} {v v' : Vec T}

/-! ## Vectors that own nothing -/

@[simp] theorem new_contents (T : Kind w) : (new T).contents = [] := rfl

theorem blocks_of_cap_eq_zero (h : v.cap = 0) : v.blocks = 0 := by
  rw [blocks, currentMemory, if_pos (Or.inr h)]
  rfl

@[simp] theorem new_blocks (T : Kind w) : (new T).blocks = 0 := blocks_of_cap_eq_zero rfl

theorem new_valid (T : Kind w) : (new T).Valid :=
  ⟨le_rfl, fun _ ha => absurd ha List.not_mem_nil, Nat.zero_le _⟩

/-- A vector that was cleared. -/
theorem valid_of_len_eq_zero (h : v.len = 0) : v.Valid where
  initialized := by
    rw [h]
    exact Nat.zero_le _
  typed a ha := by
    rw [contents, h] at ha
    exact absurd ha List.not_mem_nil
  bounded := by
    rw [h]
    exact Nat.zero_le _

theorem contents_of_len_eq_zero (h : v.len = 0) : v.contents = [] := by
  rw [contents, h, List.take_zero]

/-! ## Freeing -/

/-- The heap after the block of a vector is freed. -/
def freed (heap : Heap) (v : Vec T) : Heap := { heap with freed := v.blocks + heap.freed }

theorem freed_of_blocks_eq_zero (h : v.blocks = 0) (heap : Heap) : v.freed heap = heap := by
  rw [freed, h, zero_add]

/-- A block that is owned can be freed. -/
theorem freeMemory_ok (h : Balanced heap.allocated heap.freed (v.blocks + owned)) :
    v.freeMemory heap = .ok (v.freed heap) := by
  cases hb : v.currentMemory with
  | none =>
    have hnone : v.blocks = 0 := by rw [blocks, hb, Option.toList_none, Multiset.coe_nil]
    rw [freeMemory, hb, freed_of_blocks_eq_zero hnone]
  | some b =>
    have hone : v.blocks = {b} := by rw [blocks, hb, Option.toList_some, Multiset.coe_singleton]
    have hmem : b ∈ v.blocks + owned := by
      rw [hone]
      exact Multiset.mem_add.mpr (Or.inl (Multiset.mem_singleton_self b))
    rw [freeMemory, hb, freed, hone]
    exact if_pos ⟨h.issued_of_mem hmem, h.not_returned hmem⟩

/-- The block of a vector is freed, and the others are still owned. -/
theorem freed_balanced (h : Balanced heap.allocated heap.freed (v.blocks + owned)) :
    Balanced (v.freed heap).allocated (v.freed heap).freed owned :=
  h.giveBack

theorem clear_ok (hv : v.Valid) (panics : Value w → Bool) (unwinding : Bool) :
    ∃ l ending, v.clear panics unwinding = .ok ({ v with len := 0 }, l, ending) ∧
      Drops panics unwinding v.contents l ending := by
  obtain ⟨l, ending, hdrop, hl⟩ := dropInPlace_ok panics hv.initialized hv.typed unwinding
  refine ⟨l, ending, ?_, hl⟩
  rw [clear, hdrop]
  rfl

/-- **Dropping a vector** drops its elements and frees its block. -/
theorem drop_ok (hv : v.Valid) (h : Balanced heap.allocated heap.freed (v.blocks + owned))
    (panics : Value w → Bool) (unwinding : Bool) :
    ∃ heap' l ending, v.drop panics unwinding heap = .ok (heap', l, ending) ∧
      Drops panics unwinding v.contents l ending ∧ (ending ≠ .aborted → heap' = v.freed heap) := by
  obtain ⟨l, ending, hdrop, hl⟩ := dropInPlace_ok panics hv.initialized hv.typed unwinding
  rw [Vec.drop, hdrop]
  cases ending with
  | aborted => exact ⟨heap, l, .aborted, rfl, hl, fun hne => absurd rfl hne⟩
  | returned | unwinding =>
    refine ⟨v.freed heap, l, _, ?_, hl, fun _ => rfl⟩
    simp only [ok_bind, freeMemory_ok h]

/-- Dropping a vector without elements cannot panic. -/
theorem drop_of_len_eq_zero (hlen : v.len = 0)
    (h : Balanced heap.allocated heap.freed (v.blocks + owned)) (panics : Value w → Bool)
    (unwinding : Bool) : v.drop panics unwinding heap = .ok (v.freed heap, [], .returned) := by
  rw [Vec.drop, hlen]
  simp only [dropInPlace_zero, ok_bind, freeMemory_ok h]

/-- An unwinding frees the block of a cleared vector. -/
theorem unwind_ok (hlen : v.len = 0)
    (h : Balanced heap.allocated heap.freed (v.blocks + owned)) (panics : Value w → Bool) :
    v.unwind panics heap .unwinding = .ok (v.freed heap, [], .unwinding) := by
  rw [unwind, drop_of_len_eq_zero hlen h]
  rfl

/-! ## Forgetting -/

/-- The capacity is kept, also of elements without bytes, for which none is stored. -/
theorem forgetVec_capacity (marker : SameLayout T U) (v : Vec T) :
    (marker.forgetVec v).capacity = v.capacity := by
  rw [SameLayout.forgetVec, fromRawParts, capacity, capacity, ← marker.size]
  by_cases hz : T.size = 0
  · rw [if_pos hz, if_pos hz]
  · rw [if_neg hz, if_neg hz]

/-- So is the block, with the layout it was requested with. -/
theorem forgetVec_currentMemory (marker : SameLayout T U) (v : Vec T) :
    (marker.forgetVec v).currentMemory = v.currentMemory := by
  rw [SameLayout.forgetVec, fromRawParts, currentMemory, currentMemory, capacity, ← marker.size,
    ← marker.align]
  by_cases hz : T.size = 0
  · rw [if_pos (Or.inl hz), if_pos (Or.inl hz)]
  · simp only [if_neg hz]

theorem forgetVec_blocks (marker : SameLayout T U) (v : Vec T) :
    (marker.forgetVec v).blocks = v.blocks := by
  rw [blocks, forgetVec_currentMemory, blocks]

theorem forgetVec_contents (marker : SameLayout T U) (v : Vec T) :
    (marker.forgetVec v).contents = [] := contents_of_len_eq_zero rfl

theorem forgetVec_valid (marker : SameLayout T U) (v : Vec T) : (marker.forgetVec v).Valid :=
  valid_of_len_eq_zero rfl

/-! ## Allocating -/

end Vec

/-- The heap numbers its blocks, and the blocks not freed are those owned. -/
structure Heap.Sound (heap : Heap) (owned : Multiset Block) : Prop where
  balanced : Balanced heap.allocated heap.freed owned
  numbered : ∀ b ∈ heap.allocated, b.id < heap.allocated.card

/-- A new block is one that was not allocated before. -/
theorem Heap.Sound.alloc (h : heap.Sound owned) (size align : ℕ) :
    (heap.alloc size align).1.Sound (⟨heap.allocated.card, size, align⟩ ::ₘ owned) := by
  refine ⟨h.balanced.issue fun hmem => ?_, fun b hb => ?_⟩
  · exact absurd (h.numbered _ hmem) (Nat.lt_irrefl _)
  · have hcard : (heap.alloc size align).1.allocated.card = heap.allocated.card + 1 :=
      Multiset.card_cons _ _
    rw [hcard]
    rcases Multiset.mem_cons.mp hb with rfl | hb
    · exact Nat.lt_succ_self _
    · exact Nat.lt_succ_of_lt (h.numbered b hb)

namespace Vec

variable {T U : Kind w} {v v' : Vec T} {cap : ℕ}

theorem freed_sound (h : heap.Sound (v.blocks + owned)) : (v.freed heap).Sound owned :=
  ⟨freed_balanced h.balanced, h.numbered⟩

theorem withCapacity_ok (h : heap.Sound owned)
    (hdone : withCapacity heap T cap = .ok (heap', v)) :
    v.len = 0 ∧ heap'.Sound (v.blocks + owned) := by
  have hempty : heap.Sound ((new T).blocks + owned) := by rwa [new_blocks, zero_add]
  rw [withCapacity] at hdone
  by_cases hz : T.size = 0
  · rw [if_pos hz] at hdone
    obtain ⟨rfl, rfl⟩ := ok_pair_inj hdone
    exact ⟨rfl, hempty⟩
  · rw [if_neg hz] at hdone
    cases harray : Layout.array T.toTy cap with
    | none =>
      rw [harray] at hdone
      exact absurd hdone (by simp)
    | some layout =>
      rw [harray] at hdone
      obtain ⟨hsize, halign⟩ := Layout.array_some harray
      by_cases hc : cap = 0
      · simp only [if_pos hc] at hdone
        obtain ⟨rfl, rfl⟩ := ok_pair_inj hdone
        exact ⟨rfl, hempty⟩
      · simp only [if_neg hc] at hdone
        obtain ⟨rfl, rfl⟩ := ok_pair_inj hdone
        refine ⟨rfl, ?_⟩
        have hsound := h.alloc layout.size layout.align
        rw [hsize, halign, ← Multiset.singleton_add] at hsound
        rw [hsize, halign, blocks, currentMemory, if_neg (not_or.mpr ⟨hz, hc⟩)]
        exact hsound

/-- A reallocation moves the elements into a block for the new capacity. -/
theorem reallocate_ok (hv : v.Valid) (h : heap.Sound (v.blocks + owned)) (hroom : v.len ≤ cap)
    (hdone : v.reallocate heap cap = .ok (heap', v')) :
    v'.Valid ∧ v'.contents = v.contents ∧ heap'.Sound (v'.blocks + owned) := by
  rw [reallocate] at hdone
  by_cases hz : T.size = 0
  · rw [if_pos hz] at hdone
    obtain ⟨rfl, rfl⟩ := ok_pair_inj hdone
    exact ⟨hv, rfl, h⟩
  · rw [if_neg hz] at hdone
    have hcontents : (v.ptr.memory.take cap).take v.len = v.contents := by
      rw [List.take_take, min_eq_left hroom, contents]
    -- the elements in a block of whatever number
    have hvalid : ∀ block : ℕ, Valid (⟨⟨block, v.ptr.memory.take cap⟩, cap, v.len⟩ : Vec T) := by
      refine fun block => ⟨?_, ?_, ?_⟩
      · show v.len ≤ (v.ptr.memory.take cap).length
        rw [List.length_take]
        exact le_min hroom hv.initialized
      · show ∀ a ∈ (v.ptr.memory.take cap).take v.len, a.ty = T
        rw [hcontents]
        exact hv.typed
      · rw [capacity, if_neg hz]
        exact hroom
    cases harray : Layout.array T.toTy cap with
    | none =>
      rw [harray] at hdone
      exact absurd hdone (by simp)
    | some layout =>
      obtain ⟨hsize, halign⟩ := Layout.array_some harray
      have hfreed := freed_sound h
      rw [harray] at hdone
      simp only [freeMemory_ok h.balanced, ok_bind] at hdone
      by_cases hc : cap = 0
      · rw [if_pos hc] at hdone
        obtain ⟨rfl, rfl⟩ := ok_pair_inj hdone
        refine ⟨hc ▸ hvalid 0, hcontents, ?_⟩
        rwa [blocks_of_cap_eq_zero rfl, zero_add]
      · rw [if_neg hc] at hdone
        obtain ⟨rfl, rfl⟩ := ok_pair_inj hdone
        refine ⟨hvalid _, hcontents, ?_⟩
        have hsound := hfreed.alloc layout.size layout.align
        rw [hsize, halign, ← Multiset.singleton_add] at hsound
        rw [hsize, halign, blocks, currentMemory, if_neg (not_or.mpr ⟨hz, hc⟩)]
        exact hsound

end Vec

end SameAlloc
end StaticAlloc
