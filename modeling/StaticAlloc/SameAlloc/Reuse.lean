import StaticAlloc.SameAlloc.Vectors
import Mathlib.Tactic.Abel

/-!
# A buffer is reused without a leak or a double free

The allocation of a `VecBuffer` changes its type with every use, and nothing but the
order of the calls in `use_for` and in the drop of a view sees to it that no element
changes its type with it.  What they rely on is one invariant of everything that the
program owns (`Inv`): a buffer is empty while it is not lent out, and has nothing at
all while it is.  So `forget_vec` forgets no elements on the way out; on the way back
the elements are dropped before it is called.

The blocks and the values are two ledgers, and a step of a program hands on, issues or
gives back what one thing has (`Inv.cons_iff`).  `Inv.step` puts the steps together.

What is owned can also be dropped, one thing after the other, until nothing is left
(`Inv.run_all`): a drop frees the block and can only fail to go on where two destructors
panic.  `reuse_exact` is what follows in every state that a program can reach.
-/

namespace StaticAlloc
namespace SameAlloc

open Toolkit
open FixedVec (Ending)

variable {w : ℕ} {panics : Value w → Bool} {unwinding : Bool} {heap heap' : Heap}
  {owned : Multiset Block}

/-! ## Buffers and views -/

/-- What is the case after a call, unless the process was aborted. -/
def After (returned unwinding : Prop) : Ending → Prop
  | .returned => returned
  | .unwinding => unwinding
  | .aborted => True

section Buffer

variable {T U : Kind w}

/-- The buffer as a dropped view gives it back: the vector of the view, cleared and made
a vector of the buffer's type. -/
def TempVec.returned (t : TempVec T U) : VecBuffer T :=
  ⟨t.marker.transpose.forgetVec { t.vec with len := 0 }⟩

/-- Dropping a vector that owns nothing does nothing. -/
theorem Vec.drop_nothing {v : Vec T} (hlen : v.len = 0) (hblocks : v.blocks = 0)
    (h : Balanced heap.allocated heap.freed owned) (panics : Value w → Bool) (unwinding : Bool) :
    v.drop panics unwinding heap = .ok (heap, [], .returned) := by
  rw [← zero_add owned, ← hblocks] at h
  rw [Vec.drop_of_len_eq_zero hlen h, Vec.freed_of_blocks_eq_zero hblocks]

/-- The swap with a buffer that is lent out.  What the view is left with is nothing. -/
theorem swapInternalWith_ok {v : Vec U} (marker : SameLayout T U) (hv : v.Valid)
    (h : Balanced heap.allocated heap.freed (v.blocks + owned)) (panics : Value w → Bool)
    (unwinding : Bool) :
    ∃ heap' elements vec l ending,
      swapInternalWith panics unwinding heap (Vec.new T) marker v =
        .ok (heap', elements, vec, l, ending) ∧
      Drops panics unwinding v.contents l ending ∧ vec.len = 0 ∧ vec.blocks = 0 ∧
      After (heap' = heap ∧ elements = marker.transpose.forgetVec { v with len := 0 })
        (heap' = v.freed heap ∧ elements = Vec.new T) ending := by
  obtain ⟨l, ending, hclear, hl⟩ := Vec.clear_ok hv panics unwinding
  rw [swapInternalWith, hclear]
  cases ending with
  | aborted =>
    refine ⟨heap, Vec.new T, Vec.new U, l, .aborted, ?_, hl, rfl, Vec.new_blocks U, trivial⟩
    simp only [ok_bind, Vec.unwind, List.append_nil]
  | returned =>
    have hold : (Vec.new T).clear panics unwinding = .ok (Vec.new T, [], .returned) := rfl
    have htaken := Vec.drop_nothing (v := Vec.new U) rfl (Vec.new_blocks U) h panics unwinding
    refine ⟨heap, _, marker.forgetVec (Vec.new T), l, .returned, ?_, hl, rfl, ?_, rfl, rfl⟩
    · simp only [ok_bind, hold, htaken, List.append_nil]
    · rw [Vec.forgetVec_blocks, Vec.new_blocks]
  | unwinding =>
    have hunwind := Vec.unwind_ok (v := { v with len := 0 }) rfl h panics
    refine ⟨v.freed heap, Vec.new T, Vec.new U, l, .unwinding, ?_, hl, rfl, Vec.new_blocks U,
      rfl, rfl⟩
    simp only [ok_bind, hunwind, List.append_nil]
    rfl

/-- **Dropping a view** drops its elements and gives its block to the buffer.  If a
destructor panics the block is freed, and the buffer has none. -/
theorem TempVec.drop_ok {t : TempVec T U} (hempty : t.elements = Vec.new T) (hv : t.vec.Valid)
    (h : Balanced heap.allocated heap.freed (t.vec.blocks + owned)) (panics : Value w → Bool)
    (unwinding : Bool) :
    ∃ heap' b l ending, t.drop panics unwinding heap = .ok (heap', b, l, ending) ∧
      Drops panics unwinding t.vec.contents l ending ∧
      After (heap' = heap ∧ b = t.returned) (heap' = t.vec.freed heap ∧ b = VecBuffer.new T)
        ending := by
  obtain ⟨heap', elements, vec, l, ending, hswap, hl, hlen, hblocks, hafter⟩ :=
    swapInternalWith_ok t.marker hv h panics unwinding
  rw [TempVec.drop, hempty, hswap]
  cases ending with
  | aborted => exact ⟨heap', ⟨elements⟩, l, .aborted, rfl, hl, trivial⟩
  | returned =>
    obtain ⟨rfl, rfl⟩ := hafter
    have hdrop := Vec.drop_nothing hlen hblocks h panics unwinding
    refine ⟨_, t.returned, l, .returned, ?_, hl, rfl, rfl⟩
    simp only [ok_bind, hdrop, List.append_nil]
    rfl
  | unwinding =>
    obtain ⟨rfl, rfl⟩ := hafter
    have hdrop : vec.unwind panics (t.vec.freed heap) .unwinding =
        .ok (t.vec.freed heap, [], .unwinding) := by
      rw [Vec.unwind, Vec.drop_nothing hlen hblocks (Vec.freed_balanced h)]
      rfl
    refine ⟨_, VecBuffer.new T, l, .unwinding, ?_, hl, rfl, rfl⟩
    simp only [ok_bind, hdrop, List.append_nil]
    rfl

/-- `From<Vec<T>>` drops the elements and keeps the block. -/
theorem VecBuffer.fromVec_ok {v : Vec T} (hv : v.Valid)
    (h : Balanced heap.allocated heap.freed (v.blocks + owned)) (panics : Value w → Bool)
    (unwinding : Bool) :
    ∃ heap' b l ending, VecBuffer.fromVec panics unwinding heap v = .ok (heap', b, l, ending) ∧
      Drops panics unwinding v.contents l ending ∧
      After (heap' = heap ∧ b = some ⟨{ v with len := 0 }⟩) (heap' = v.freed heap ∧ b = none)
        ending := by
  obtain ⟨l, ending, hclear, hl⟩ := Vec.clear_ok hv panics unwinding
  rw [VecBuffer.fromVec, hclear]
  cases ending with
  | aborted =>
    refine ⟨heap, none, l, .aborted, ?_, hl, trivial⟩
    simp only [ok_bind, Vec.unwind, List.append_nil]
  | returned => exact ⟨heap, _, l, .returned, rfl, hl, rfl, rfl⟩
  | unwinding =>
    have hunwind := Vec.unwind_ok (v := { v with len := 0 }) rfl h panics
    refine ⟨v.freed heap, none, l, .unwinding, ?_, hl, rfl, rfl⟩
    simp only [ok_bind, hunwind, List.append_nil]
    rfl

end Buffer

/-! ## The invariant -/

/-- A vector is fit to be dropped, a buffer is empty, and what a view has taken its
vector from is a new vector. -/
def Thing.Valid : Thing w → Prop
  | .vec v => v.Valid
  | .buffer b => b.elementBuffer.len = 0
  | .view (T := T) t => t.elements = Vec.new T ∧ t.vec.Valid

/-- Every block is freed or has one owner, and every value is dropped, held or an
element of one of the things. -/
structure Inv (σ : State w) : Prop where
  heap : σ.heap.Sound (holdings Thing.blocks σ.things)
  values : Balanced σ.made σ.dropped (σ.held + holdings Thing.contents σ.things)
  valid : ∀ x ∈ σ.things, x.Valid

theorem Inv.empty : Inv (State.empty : State w) where
  heap := ⟨Balanced.nil, fun b hb => absurd hb (Multiset.notMem_zero b)⟩
  values := Balanced.nil
  valid x hx := absurd hx (Multiset.notMem_zero x)

section Place

variable {U : Kind w} {put : Vec U → Thing w} {v v' : Vec U}

/-- What is at a place counts, whatever else the thing has. -/
theorem Place.contents (h : Place put) :
    ∃ others : Multiset (Value w), ∀ v, (put v).contents = v.contents + others := by
  cases h with
  | own => exact ⟨0, fun v => (add_zero _).symm⟩
  | view elements marker => exact ⟨elements.contents, fun v => add_comm _ _⟩

theorem Place.blocks (h : Place put) :
    ∃ others : Multiset Block, ∀ v, (put v).blocks = v.blocks + others := by
  cases h with
  | own => exact ⟨0, fun v => (add_zero _).symm⟩
  | view elements marker => exact ⟨elements.blocks, fun v => add_comm _ _⟩

theorem Place.valid_vec (h : Place put) (hv : (put v).Valid) : v.Valid := by
  cases h with
  | own => exact hv
  | view elements marker => exact hv.2

theorem Place.valid_put (h : Place put) (hv : (put v).Valid) (hv' : v'.Valid) :
    (put v').Valid := by
  cases h with
  | own => exact hv'
  | view elements marker => exact ⟨hv.1, hv'⟩

end Place

section Step

variable {things : Multiset (Thing w)} {made held dropped : Multiset (Value w)} {x y : Thing w}

/-- One thing and the others. -/
theorem Inv.cons_iff :
    Inv ⟨heap, x ::ₘ things, made, held, dropped⟩ ↔
      heap.Sound (x.blocks + holdings Thing.blocks things) ∧
        Balanced made dropped (x.contents + (held + holdings Thing.contents things)) ∧
        x.Valid ∧ ∀ y ∈ things, y.Valid := by
  constructor
  · rintro ⟨hheap, hvalues, hvalid⟩
    refine ⟨?_, ?_, ?_⟩
    · rwa [holdings_cons] at hheap
    · rwa [holdings_cons, add_left_comm] at hvalues
    · exact Multiset.forall_mem_cons.mp hvalid
  · rintro ⟨hheap, hvalues, hvalid⟩
    refine ⟨?_, ?_, ?_⟩
    · rwa [holdings_cons]
    · rwa [holdings_cons, add_left_comm]
    · exact Multiset.forall_mem_cons.mpr hvalid

/-- A thing is dropped with all that it has. -/
theorem Inv.drop_thing (h : Inv ⟨heap, x ::ₘ things, made, held, dropped⟩)
    (hheap : heap'.Sound (holdings Thing.blocks things)) {l : List (Value w)}
    (hl : (l : Multiset (Value w)) = x.contents) :
    Inv ⟨heap', things, made, held, l + dropped⟩ := by
  obtain ⟨-, hvalues, -, hvalid⟩ := Inv.cons_iff.mp h
  refine ⟨hheap, ?_, hvalid⟩
  rw [← hl] at hvalues
  exact hvalues.giveBack

/-- Something that has nothing is added. -/
theorem Inv.add (h : Inv ⟨heap, things, made, held, dropped⟩) (hcontents : x.contents = 0)
    (hheap : heap'.Sound (x.blocks + holdings Thing.blocks things)) (hvalid : x.Valid) :
    Inv ⟨heap', x ::ₘ things, made, held, dropped⟩ := by
  refine Inv.cons_iff.mpr ⟨hheap, ?_, hvalid, h.valid⟩
  rw [hcontents, zero_add]
  exact h.values

/-- A thing is exchanged for an empty one, and its elements are dropped. -/
theorem Inv.clear (h : Inv ⟨heap, x ::ₘ things, made, held, dropped⟩) {l : List (Value w)}
    (hl : (l : Multiset (Value w)) = x.contents) (hcontents : y.contents = 0)
    (hheap : heap'.Sound (y.blocks + holdings Thing.blocks things)) (hvalid : y.Valid) :
    Inv ⟨heap', y ::ₘ things, made, held, l + dropped⟩ := by
  obtain ⟨-, hvalues, -, hrest⟩ := Inv.cons_iff.mp h
  refine Inv.cons_iff.mpr ⟨hheap, ?_, hvalid, hrest⟩
  rw [← hl] at hvalues
  rw [hcontents, zero_add]
  exact hvalues.giveBack

/-- A thing is exchanged for another one that owns the same. -/
theorem Inv.replace (h : Inv ⟨heap, x ::ₘ things, made, held, dropped⟩)
    (hcontents : y.contents = x.contents)
    (hheap : heap'.Sound (y.blocks + holdings Thing.blocks things)) (hvalid : y.Valid) :
    Inv ⟨heap', y ::ₘ things, made, held, dropped⟩ := by
  obtain ⟨-, hvalues, -, hrest⟩ := Inv.cons_iff.mp h
  refine Inv.cons_iff.mpr ⟨hheap, ?_, hvalid, hrest⟩
  rwa [hcontents]

variable {U : Kind w} {put put' : Vec U → Thing w} {v v' : Vec U} {held' : Multiset (Value w)}

/-- A vector operation within the capacity. -/
theorem Inv.operate (h : Inv ⟨heap, put v ::ₘ things, made, held, dropped⟩) (place : Place put)
    (exchange : v.Exchange v' held held') :
    Inv ⟨heap, put v' ::ₘ things, made, held', dropped⟩ := by
  obtain ⟨hheap, hvalues, hvalid, hrest⟩ := Inv.cons_iff.mp h
  obtain ⟨elements, helements⟩ := place.contents
  obtain ⟨blocks, hblocks⟩ := place.blocks
  have hown : v'.blocks = v.blocks := by
    rw [Vec.blocks, Vec.currentMemory, exchange.block, exchange.cap, Vec.blocks, Vec.currentMemory]
  refine Inv.cons_iff.mpr ⟨?_, ?_, place.valid_put hvalid exchange.valid, hrest⟩
  · rwa [hblocks, hown, ← hblocks]
  · rw [helements] at hvalues ⊢
    have hmoved : (v'.contents : Multiset (Value w)) + elements +
        (held' + holdings Thing.contents things) =
        v.contents + elements + (held + holdings Thing.contents things) := by
      calc (v'.contents : Multiset (Value w)) + elements +
            (held' + holdings Thing.contents things)
          = v'.contents + held' + (elements + holdings Thing.contents things) := by abel
        _ = v.contents + held + (elements + holdings Thing.contents things) := by
            rw [exchange.moved]
        _ = v.contents + elements + (held + holdings Thing.contents things) := by abel
    rwa [hmoved]

/-- A reallocation. -/
theorem Inv.reallocate (h : Inv ⟨heap, put v ::ₘ things, made, held, dropped⟩)
    (place : Place put) {cap : ℕ} (room : v.len ≤ cap)
    (done : v.reallocate heap cap = .ok (heap', v')) :
    Inv ⟨heap', put v' ::ₘ things, made, held, dropped⟩ := by
  obtain ⟨hheap, -, hvalid, -⟩ := Inv.cons_iff.mp h
  obtain ⟨elements, helements⟩ := place.contents
  obtain ⟨blocks, hblocks⟩ := place.blocks
  rw [hblocks, add_assoc] at hheap
  obtain ⟨hvalid', hcontents, hheap'⟩ :=
    Vec.reallocate_ok (place.valid_vec hvalid) hheap room done
  refine h.replace ?_ ?_ (place.valid_put hvalid hvalid')
  · rw [helements, helements, hcontents]
  · rwa [hblocks, add_assoc]

/-- Two vectors of one type change places. -/
theorem Inv.swap (h : Inv ⟨heap, put v ::ₘ put' v' ::ₘ things, made, held, dropped⟩)
    (place : Place put) (place' : Place put') :
    Inv ⟨heap, put v' ::ₘ put' v ::ₘ things, made, held, dropped⟩ := by
  obtain ⟨elements, helements⟩ := place.contents
  obtain ⟨elements', helements'⟩ := place'.contents
  obtain ⟨blocks, hblocks⟩ := place.blocks
  obtain ⟨blocks', hblocks'⟩ := place'.blocks
  obtain ⟨hheap, hvalues, hvalid⟩ := h
  rw [Multiset.forall_mem_cons, Multiset.forall_mem_cons] at hvalid
  obtain ⟨hput, hput', hrest⟩ := hvalid
  have hv := place.valid_vec hput
  have hv' := place'.valid_vec hput'
  refine ⟨?_, ?_, ?_⟩
  · simp only [holdings_cons, hblocks, hblocks'] at hheap ⊢
    convert hheap using 1
    abel
  · simp only [holdings_cons, helements, helements'] at hvalues ⊢
    convert hvalues using 1
    abel
  · rw [Multiset.forall_mem_cons, Multiset.forall_mem_cons]
    exact ⟨place.valid_put hput hv', place'.valid_put hput' hv, hrest⟩

variable {T : Kind w} {l : List (Value w)} {ending : Ending}

theorem buffer_contents {b : VecBuffer T} (h : b.elementBuffer.len = 0) :
    (Thing.buffer b).contents = 0 := by
  rw [Thing.contents, Vec.contents_of_len_eq_zero h, Multiset.coe_nil]

theorem Inv.dropVec {v : Vec T} (h : Inv ⟨heap, .vec v ::ₘ things, made, held, dropped⟩)
    (alive : ending ≠ .aborted) (done : v.drop panics unwinding heap = .ok (heap', l, ending)) :
    Inv ⟨heap', things, made, held, l + dropped⟩ := by
  obtain ⟨hheap, -, hvalid, -⟩ := Inv.cons_iff.mp h
  obtain ⟨heap₁, l₁, ending₁, hdrop, hl, hfreed⟩ :=
    Vec.drop_ok hvalid hheap.balanced panics unwinding
  rw [hdrop] at done
  obtain ⟨rfl, rfl, rfl⟩ : heap₁ = heap' ∧ l₁ = l ∧ ending₁ = ending := by
    simpa using done
  rw [hfreed alive, hl.all alive]
  exact h.drop_thing (Vec.freed_sound hheap) rfl

theorem Inv.withCapacity {b : VecBuffer T} {cap : ℕ}
    (h : Inv ⟨heap, things, made, held, dropped⟩)
    (done : VecBuffer.withCapacity heap T cap = .ok (heap', b)) :
    Inv ⟨heap', .buffer b ::ₘ things, made, held, dropped⟩ := by
  obtain ⟨⟨heap₁, v⟩, halloc, hpair⟩ := of_bind_ok done
  obtain ⟨rfl, rfl⟩ := ok_pair_inj hpair
  obtain ⟨hlen, hheap⟩ := Vec.withCapacity_ok h.heap halloc
  exact h.add (buffer_contents hlen) hheap hlen

theorem Inv.fromVec {v : Vec T} {b : Option (VecBuffer T)}
    (h : Inv ⟨heap, .vec v ::ₘ things, made, held, dropped⟩) (alive : ending ≠ .aborted)
    (done : VecBuffer.fromVec panics unwinding heap v = .ok (heap', b, l, ending)) :
    Inv ⟨heap', (b.toList.map Thing.buffer : Multiset (Thing w)) + things, made, held,
      l + dropped⟩ := by
  obtain ⟨hheap, -, hvalid, -⟩ := Inv.cons_iff.mp h
  obtain ⟨heap₁, b₁, l₁, ending₁, hfrom, hl, hafter⟩ :=
    VecBuffer.fromVec_ok hvalid hheap.balanced panics unwinding
  rw [hfrom] at done
  obtain ⟨rfl, rfl, rfl, rfl⟩ : heap₁ = heap' ∧ b₁ = b ∧ l₁ = l ∧ ending₁ = ending := by
    simpa using done
  rw [hl.all alive]
  cases ending₁ with
  | aborted => exact absurd rfl alive
  | returned =>
    obtain ⟨rfl, rfl⟩ := hafter
    exact h.clear rfl (buffer_contents rfl) hheap rfl
  | unwinding =>
    obtain ⟨rfl, rfl⟩ := hafter
    have hnone : ((none : Option (VecBuffer T)).toList.map Thing.buffer : Multiset (Thing w)) +
        things = things := zero_add things
    rw [hnone]
    exact h.drop_thing (Vec.freed_sound hheap) rfl

/-- A buffer that is lent out has nothing. -/
theorem Inv.useFor {b : VecBuffer T} (h : Inv ⟨heap, .buffer b ::ₘ things, made, held, dropped⟩)
    (marker : SameLayout T U) :
    Inv ⟨heap, .view (b.useFor marker) ::ₘ things, made, held, dropped⟩ := by
  obtain ⟨hheap, -, hvalid, -⟩ := Inv.cons_iff.mp h
  refine h.replace ?_ ?_ ⟨rfl, Vec.forgetVec_valid marker b.elementBuffer⟩
  · rw [buffer_contents hvalid, VecBuffer.useFor, Thing.contents, Vec.forgetVec_contents]
    rfl
  · rw [VecBuffer.useFor, Thing.blocks, Vec.forgetVec_blocks, Vec.new_blocks, zero_add]
    exact hheap

theorem Inv.dropView {t : TempVec T U} {b : VecBuffer T}
    (h : Inv ⟨heap, .view t ::ₘ things, made, held, dropped⟩) (alive : ending ≠ .aborted)
    (done : t.drop panics unwinding heap = .ok (heap', b, l, ending)) :
    Inv ⟨heap', .buffer b ::ₘ things, made, held, l + dropped⟩ := by
  obtain ⟨hheap, -, ⟨hempty, hvalid⟩, -⟩ := Inv.cons_iff.mp h
  have hcontents : (t.vec.contents : Multiset (Value w)) = (Thing.view t).contents := by
    rw [Thing.contents, hempty, Vec.new_contents, Multiset.coe_nil, zero_add]
  rw [Thing.blocks, hempty, Vec.new_blocks, zero_add] at hheap
  obtain ⟨heap₁, b₁, l₁, ending₁, hdrop, hl, hafter⟩ :=
    TempVec.drop_ok hempty hvalid hheap.balanced panics unwinding
  rw [hdrop] at done
  obtain ⟨rfl, rfl, rfl, rfl⟩ : heap₁ = heap' ∧ b₁ = b ∧ l₁ = l ∧ ending₁ = ending := by
    simpa using done
  rw [hl.all alive]
  cases ending₁ with
  | aborted => exact absurd rfl alive
  | returned =>
    obtain ⟨rfl, rfl⟩ := hafter
    refine h.clear hcontents (buffer_contents rfl) ?_ rfl
    rw [Thing.blocks, TempVec.returned, Vec.forgetVec_blocks]
    exact hheap
  | unwinding =>
    obtain ⟨rfl, rfl⟩ := hafter
    refine h.clear hcontents (buffer_contents rfl) ?_ rfl
    rw [Thing.blocks, VecBuffer.new, Vec.new_blocks, zero_add]
    exact Vec.freed_sound hheap

theorem Inv.dropBuffer {b : VecBuffer T}
    (h : Inv ⟨heap, .buffer b ::ₘ things, made, held, dropped⟩) (alive : ending ≠ .aborted)
    (done : b.drop panics unwinding heap = .ok (heap', l, ending)) :
    Inv ⟨heap', things, made, held, l + dropped⟩ := by
  obtain ⟨hheap, -, hlen, -⟩ := Inv.cons_iff.mp h
  rw [VecBuffer.drop, Vec.drop_of_len_eq_zero hlen hheap.balanced] at done
  obtain ⟨rfl, rfl, rfl⟩ : b.elementBuffer.freed heap = heap' ∧ [] = l ∧ .returned = ending := by
    simpa using done
  exact h.drop_thing (Vec.freed_sound hheap) (buffer_contents hlen).symm

end Step

/-- **The step lemma.**  Every step of a program keeps the invariant. -/
theorem Inv.step {σ τ : State w} {event : Event} (h : Inv σ) (hstep : Step panics σ event τ) :
    Inv τ := by
  cases hstep with
  | make a fresh =>
    refine ⟨h.heap, ?_, h.valid⟩
    have hvalues := h.values.issue fresh
    rwa [← Multiset.cons_add] at hvalues
  | @discard heap things made held dropped a =>
    have hvalues : Balanced made dropped ({a} + (held + holdings Thing.contents things)) := by
      rw [← add_assoc, Multiset.singleton_add]
      exact h.values
    exact ⟨h.heap, Multiset.singleton_add a dropped ▸ hvalues.giveBack, h.valid⟩
  | newVec T =>
    refine h.add rfl ?_ (Vec.new_valid T)
    rw [Thing.blocks, Vec.new_blocks, zero_add]
    exact h.heap
  | operate place exchange => exact h.operate place exchange
  | reallocate place room done => exact h.reallocate place room done
  | swap place place' => exact h.swap place place'
  | dropVec alive done => exact h.dropVec alive done
  | new T =>
    refine h.add rfl ?_ rfl
    rw [Thing.blocks, VecBuffer.new, Vec.new_blocks, zero_add]
    exact h.heap
  | withCapacity done => exact h.withCapacity done
  | fromVec alive done => exact h.fromVec alive done
  | useFor marker => exact h.useFor marker
  | dropView alive done => exact h.dropView alive done
  | dropBuffer alive done => exact h.dropBuffer alive done

theorem Inv.run {σ τ : State w} {hist : List (State w × Event × State w)} (h : Inv σ)
    (hrun : (machine w panics).Run σ hist τ) : Inv τ :=
  hrun.invariant (P := fun _ _ => True) (fun _ _ _ hI _ hstep => hI.step hstep) h
    fun _ _ => trivial

/-! ## Dropping everything -/

/-- The events by which a program drops what it owns. -/
def Event.Drops : Event → Prop
  | .dropVec | .dropView | .dropBuffer => True
  | _ => False

section Run

variable {things : Multiset (Thing w)} {made held dropped : Multiset (Value w)} {x : Thing w}

/-- From one state to the other the program only drops, and nothing is allocated. -/
def DropsTo (panics : Value w → Bool) (σ τ : State w) : Prop :=
  ∃ hist, (machine w panics).Run σ hist τ ∧ (∀ s ∈ hist, s.2.1.Drops) ∧
    τ.heap.allocated = σ.heap.allocated ∧ τ.made = σ.made ∧ τ.held = σ.held

theorem DropsTo.refl (panics : Value w → Bool) (σ : State w) : DropsTo panics σ σ :=
  ⟨[], .refl σ, fun _ hs => absurd hs List.not_mem_nil, rfl, rfl, rfl⟩

theorem DropsTo.trans {ρ σ τ : State w} (h : DropsTo panics ρ σ) (h' : DropsTo panics σ τ) :
    DropsTo panics ρ τ := by
  obtain ⟨hist, hrun, hdrops, halloc, hmade, hheld⟩ := h
  obtain ⟨hist', hrun', hdrops', halloc', hmade', hheld'⟩ := h'
  refine ⟨hist ++ hist', hrun.trans hrun', fun s hs => ?_, halloc'.trans halloc,
    hmade'.trans hmade, hheld'.trans hheld⟩
  exact (List.mem_append.mp hs).elim (hdrops s) (hdrops' s)

theorem DropsTo.of_step {σ τ : State w} {event : Event} (hstep : Step panics σ event τ)
    (hevent : event.Drops) (halloc : τ.heap.allocated = σ.heap.allocated) (hmade : τ.made = σ.made)
    (hheld : τ.held = σ.held) : DropsTo panics σ τ := by
  refine ⟨_, (Machine.Run.refl (M := machine w panics) σ).tail hstep, ?_, halloc, hmade, hheld⟩
  intro s hs
  rw [List.mem_singleton.mp hs]
  exact hevent

theorem DropsTo.inv {σ τ : State w} (h : DropsTo panics σ τ) (hσ : Inv σ) : Inv τ := by
  obtain ⟨hist, hrun, -⟩ := h
  exact hσ.run hrun

/-- A drop goes on after one panic. -/
theorem Drops.alive {elements l : List (Value w)} {ending : Ending}
    (h : Drops panics false elements l ending) (hfew : elements.countP panics ≤ 1) :
    ending ≠ .aborted := by
  intro habort
  have hsecond := h.second habort
  rw [Bool.toNat_false, add_zero] at hsecond
  omega

/-- An empty buffer is dropped, and its block is freed. -/
theorem Inv.dropsTo_buffer {T : Kind w} {b : VecBuffer T}
    (h : Inv ⟨heap, .buffer b ::ₘ things, made, held, dropped⟩) (panics : Value w → Bool) :
    DropsTo panics ⟨heap, .buffer b ::ₘ things, made, held, dropped⟩
      ⟨b.elementBuffer.freed heap, things, made, held, dropped⟩ := by
  obtain ⟨hheap, -, hlen, -⟩ := Inv.cons_iff.mp h
  have hdone := Vec.drop_of_len_eq_zero hlen hheap.balanced panics false
  have hstep : Step panics ⟨heap, .buffer b ::ₘ things, made, held, dropped⟩ .dropBuffer
      ⟨b.elementBuffer.freed heap, things, made, held, ([] : List (Value w)) + dropped⟩ :=
    .dropBuffer (by simp) hdone
  rw [Multiset.coe_nil, zero_add] at hstep
  exact .of_step hstep trivial rfl rfl rfl

/-- **One thing is dropped**, if at most one destructor in it panics. -/
theorem Inv.dropsTo (h : Inv ⟨heap, x ::ₘ things, made, held, dropped⟩)
    (hfew : x.contents.countP (fun a => panics a) ≤ 1) :
    ∃ (heap' : Heap) (l : List (Value w)),
      DropsTo panics ⟨heap, x ::ₘ things, made, held, dropped⟩
        ⟨heap', things, made, held, l + dropped⟩ := by
  obtain ⟨hheap, -, hvalid, -⟩ := Inv.cons_iff.mp h
  cases x with
  | vec v =>
    obtain ⟨heap', l, ending, hdrop, hl, hfreed⟩ :=
      Vec.drop_ok hvalid hheap.balanced panics false
    have alive := hl.alive (by simpa [Thing.contents] using hfew)
    refine ⟨heap', l, .of_step (Step.dropVec alive hdrop) trivial ?_ rfl rfl⟩
    rw [hfreed alive]
    rfl
  | buffer b =>
    refine ⟨b.elementBuffer.freed heap, [], ?_⟩
    rw [Multiset.coe_nil, zero_add]
    exact h.dropsTo_buffer panics
  | @view T U t =>
    obtain ⟨hempty, hvec⟩ := hvalid
    rw [Thing.blocks, hempty, Vec.new_blocks, zero_add] at hheap
    obtain ⟨heap', b, l, ending, hdrop, hl, hafter⟩ :=
      TempVec.drop_ok hempty hvec hheap.balanced panics false
    have alive := hl.alive (by simpa [Thing.contents, hempty] using hfew)
    have halloc : heap'.allocated = heap.allocated := by
      cases ending with
      | aborted => exact absurd rfl alive
      | returned => rw [hafter.1]
      | unwinding =>
        rw [hafter.1]
        rfl
    -- the buffer is empty now, whatever the drop ended with
    have hbuffer := (h.dropView alive hdrop).dropsTo_buffer panics
    exact ⟨_, l, .trans (.of_step (Step.dropView alive hdrop) trivial halloc rfl rfl) hbuffer⟩

/-- Everything is dropped, one thing after the other. -/
theorem Inv.run_all (h : Inv ⟨heap, things, made, held, dropped⟩)
    (hfew : ∀ x ∈ things, x.contents.countP (fun a => panics a) ≤ 1) :
    ∃ heap' dropped', DropsTo panics ⟨heap, things, made, held, dropped⟩
      ⟨heap', 0, made, held, dropped'⟩ := by
  induction things using Multiset.induction_on generalizing heap dropped with
  | empty => exact ⟨heap, dropped, .refl panics _⟩
  | cons x things ih =>
    obtain ⟨hx, hrest⟩ := Multiset.forall_mem_cons.mp hfew
    obtain ⟨heap₁, l, hone⟩ := h.dropsTo hx
    obtain ⟨heap', dropped', hall⟩ := ih (hone.inv h) hrest
    exact ⟨heap', dropped', hone.trans hall⟩

end Run

theorem Inv.of_reachable {σ : State w} (h : (machine w panics).Reachable σ) : Inv σ :=
  h.invariant (fun _ h₀ => h₀ ▸ Inv.empty) fun _ _ _ _ hI hstep => hI.step hstep

/-! ## What the program can rely on -/

/-- The call is defined. -/
def Defined {α : Type} (r : Except Stop α) : Prop := ∀ msg, r ≠ .error (.undefined msg)

theorem Defined.of_ok {α : Type} {r : Except Stop α} {a : α} (h : r = .ok a) : Defined r := by
  intro msg hmsg
  rw [h] at hmsg
  exact absurd hmsg (by simp)

/-- A vector that is reallocated is there. -/
theorem Vec.reallocate_defined {T : Kind w} {v : Vec T}
    (h : Balanced heap.allocated heap.freed (v.blocks + owned)) (cap : ℕ) :
    Defined (v.reallocate heap cap) := by
  rw [Vec.reallocate]
  by_cases hz : T.size = 0
  · rw [if_pos hz]
    exact Defined.of_ok rfl
  · rw [if_neg hz]
    cases Layout.array T.toTy cap with
    | none => exact fun msg hmsg => absurd hmsg (by simp)
    | some layout =>
      simp only [Vec.freeMemory_ok h, ok_bind]
      by_cases hc : cap = 0
      · rw [if_pos hc]
        exact Defined.of_ok rfl
      · rw [if_neg hc]
        exact Defined.of_ok rfl

/-- What dropping a view does: its elements are dropped, each once, and the buffer is
empty.  The drop returns if none of them panics; then the block of the view is that of
the buffer, and the capacity what it was in the end.  If one panics, the block is
freed. -/
def DropsView (panics : Value w → Bool) (heap : Heap) {T U : Kind w} (t : TempVec T U) : Prop :=
  ∀ unwinding, ∃ heap' b l ending, t.drop panics unwinding heap = .ok (heap', b, l, ending) ∧
    Drops panics unwinding t.vec.contents l ending ∧
    (ending ≠ .aborted → b.elementBuffer.len = 0) ∧
    (ending = .returned → heap' = heap ∧ b.elementBuffer.capacity = t.vec.capacity ∧
      b.elementBuffer.currentMemory = t.vec.currentMemory) ∧
    (ending = .unwinding → heap'.allocated = heap.allocated ∧
      heap'.freed = t.vec.blocks + heap.freed ∧ b.elementBuffer.currentMemory = none)

/-- What a program can rely on. -/
structure Reused (panics : Value w → Bool) (σ : State w) : Prop where
  /-- Each value made is dropped, held, or an element of one thing, and only once. -/
  values : Balanced σ.made σ.dropped (σ.held + holdings Thing.contents σ.things)
  /-- No element is taken for a value of another type than its own. -/
  typed : ∀ {U : Kind w} {put : Vec U → Thing w} (_ : Place put) (v : Vec U),
    put v ∈ σ.things → ∀ a ∈ v.contents, a.ty = U
  /-- No block is freed twice, and none with another layout than it was allocated with. -/
  freed : σ.heap.freed.Nodup ∧ σ.heap.freed ≤ σ.heap.allocated
  /-- Each block is freed or has one owner. -/
  owner : ∀ b ∈ σ.heap.allocated, (b ∈ σ.heap.freed ∧ ∀ x ∈ σ.things, b ∉ x.blocks) ∨
    (b ∉ σ.heap.freed ∧
      ∃ x rest, σ.things = x ::ₘ rest ∧ b ∈ x.blocks ∧ ∀ y ∈ rest, b ∉ y.blocks)
  /-- A buffer that is not in use is empty, and use of it for another type starts with
  no elements and its block. -/
  buffer : ∀ {T : Kind w} (b : VecBuffer T), .buffer b ∈ σ.things →
    b.elementBuffer.len = 0 ∧ ∀ {U : Kind w} (marker : SameLayout T U),
      (b.useFor marker).vec.len = 0 ∧
      (b.useFor marker).vec.capacity = b.elementBuffer.capacity ∧
      (b.useFor marker).vec.currentMemory = b.elementBuffer.currentMemory
  view : ∀ {T U : Kind w} (t : TempVec T U), .view t ∈ σ.things → DropsView panics σ.heap t
  /-- A vector that is dropped drops its elements, each once, and frees its block, unless a
  second panic aborts the process. -/
  dropVec : ∀ {T : Kind w} (v : Vec T), .vec v ∈ σ.things → ∀ unwinding, ∃ heap' l ending,
    v.drop panics unwinding σ.heap = .ok (heap', l, ending) ∧
      Drops panics unwinding v.contents l ending ∧ (ending ≠ .aborted → heap' = v.freed σ.heap)
  /-- A vector that is made a buffer drops its elements, each once, and the buffer has its block.
  If one panics, the block is freed, and there is no buffer. -/
  fromVec : ∀ {T : Kind w} (v : Vec T), .vec v ∈ σ.things → ∀ unwinding, ∃ heap' b l ending,
    VecBuffer.fromVec panics unwinding σ.heap v = .ok (heap', b, l, ending) ∧
      Drops panics unwinding v.contents l ending ∧
      After (heap' = σ.heap ∧ b = some ⟨{ v with len := 0 }⟩)
        (heap' = v.freed σ.heap ∧ b = none) ending
  /-- A buffer that is dropped frees its block, and nothing can panic. -/
  dropBuffer : ∀ {T : Kind w} (b : VecBuffer T), .buffer b ∈ σ.things → ∀ unwinding,
    b.drop panics unwinding σ.heap = .ok (b.elementBuffer.freed σ.heap, [], .returned)
  /-- A reallocation is defined as well. -/
  reallocate : ∀ {U : Kind w} {put : Vec U → Thing w} (_ : Place put) (v : Vec U) (cap : ℕ),
    put v ∈ σ.things → Defined (v.reallocate σ.heap cap)
  /-- When nothing is owned any more, every block is freed, and every value dropped
  that is not held. -/
  settled : σ.things = 0 →
    σ.heap.freed = σ.heap.allocated ∧ σ.made = σ.dropped + σ.held
  /-- That can be reached from everywhere, by dropping what is owned, unless two destructors of
  one thing panic: each block that was allocated is freed then, once. -/
  ends : (∀ x ∈ σ.things, x.contents.countP (fun a => panics a) ≤ 1) →
    ∃ hist τ, (machine w panics).Run σ hist τ ∧ (∀ s ∈ hist, s.2.1.Drops) ∧ τ.things = 0 ∧
      τ.heap.allocated = σ.heap.allocated ∧ τ.heap.freed = σ.heap.allocated ∧
      σ.made = τ.dropped + σ.held

section Reused

variable {σ : State w} {T U : Kind w}

/-- The blocks of a thing, and those of the others. -/
theorem Inv.split (h : Inv σ) {x : Thing w} (hx : x ∈ σ.things) :
    x.Valid ∧ ∃ owned, Balanced σ.heap.allocated σ.heap.freed (x.blocks + owned) := by
  obtain ⟨rest, hrest⟩ := Multiset.exists_cons_of_mem hx
  have hbalanced := h.heap.balanced
  rw [hrest, holdings_cons] at hbalanced
  exact ⟨h.valid x hx, _, hbalanced⟩

theorem Inv.dropsView (h : Inv σ) (panics : Value w → Bool) {t : TempVec T U}
    (ht : .view t ∈ σ.things) : DropsView panics σ.heap t := by
  obtain ⟨⟨hempty, hvalid⟩, owned, hblocks⟩ := h.split ht
  rw [Thing.blocks, hempty, Vec.new_blocks, zero_add] at hblocks
  intro unwinding
  obtain ⟨heap', b, l, ending, hdrop, hl, hafter⟩ :=
    TempVec.drop_ok hempty hvalid hblocks panics unwinding
  refine ⟨heap', b, l, ending, hdrop, hl, ?_, ?_, ?_⟩
  · intro halive
    cases ending with
    | aborted => exact absurd rfl halive
    | returned | unwinding =>
      rw [hafter.2]
      rfl
  · rintro rfl
    obtain ⟨rfl, rfl⟩ := hafter
    exact ⟨rfl, Vec.forgetVec_capacity t.marker.transpose _,
      Vec.forgetVec_currentMemory t.marker.transpose _⟩
  · rintro rfl
    obtain ⟨rfl, rfl⟩ := hafter
    exact ⟨rfl, rfl, if_pos (Or.inr rfl)⟩

theorem Inv.settled (h : Inv σ) (hnone : σ.things = 0) :
    σ.heap.freed = σ.heap.allocated ∧ σ.made = σ.dropped + σ.held := by
  have hblocks := h.heap.balanced
  have hvalues := h.values.balance
  rw [hnone, holdings_zero] at hblocks hvalues
  rw [add_zero] at hvalues
  exact ⟨hblocks.settled, hvalues⟩

/-- Everything is dropped, and then every block is freed. -/
theorem Inv.ends (h : Inv σ)
    (hfew : ∀ x ∈ σ.things, x.contents.countP (fun a => panics a) ≤ 1) :
    ∃ hist τ, (machine w panics).Run σ hist τ ∧ (∀ s ∈ hist, s.2.1.Drops) ∧ τ.things = 0 ∧
      τ.heap.allocated = σ.heap.allocated ∧ τ.heap.freed = σ.heap.allocated ∧
      σ.made = τ.dropped + σ.held := by
  obtain ⟨heap', dropped', hist, hrun, hdrops, halloc, hmade, hheld⟩ := h.run_all hfew
  obtain ⟨hfreed, hvalues⟩ := (h.run hrun).settled rfl
  exact ⟨hist, _, hrun, hdrops, rfl, halloc, hfreed.trans halloc, hvalues⟩

end Reused

/-- **A buffer is reused without a leak and without a double free.**  The program may
have any buffers, made in any of the three ways, lend them out for any types with the
same layout, do with its vectors and with those in its views whatever vector operations
can do, and drop all of them when it likes.  In every state it can reach, every value
is in one place and every block has one owner, no call is undefined behaviour, buffers
are empty between uses, the drop of a view drops its elements and gives its block
back, the drop of a vector or a buffer frees its block, and by dropping what it owns
the program gets to a state in which every block is freed. -/
theorem reuse_exact (panics : Value w → Bool) {σ : State w}
    (h : (machine w panics).Reachable σ) : Reused panics σ := by
  have hinv := Inv.of_reachable h
  have hblocks := hinv.heap.balanced
  refine ⟨hinv.values, fun place v hv => (place.valid_vec (hinv.valid _ hv)).typed,
    ⟨hblocks.returned_nodup, ?_⟩, fun b hb => hblocks.returned_or_owned hb,
    fun b hb => ⟨(hinv.split hb).1, fun marker => ⟨rfl, ?_, ?_⟩⟩,
    fun t ht => hinv.dropsView panics ht, fun v hv unwinding => ?_, fun v hv unwinding => ?_,
    fun b hb unwinding => ?_, fun place v cap hv => ?_, hinv.settled, hinv.ends⟩
  · rw [hblocks.balance]
    exact Multiset.le_add_right _ _
  · exact Vec.forgetVec_capacity marker b.elementBuffer
  · exact Vec.forgetVec_currentMemory marker b.elementBuffer
  · obtain ⟨hvalid, owned, hown⟩ := hinv.split hv
    exact Vec.drop_ok hvalid hown panics unwinding
  · obtain ⟨hvalid, owned, hown⟩ := hinv.split hv
    exact VecBuffer.fromVec_ok hvalid hown panics unwinding
  · obtain ⟨hlen, owned, hown⟩ := hinv.split hb
    exact Vec.drop_of_len_eq_zero hlen hown panics unwinding
  · obtain ⟨-, owned, hown⟩ := hinv.split hv
    obtain ⟨others, hothers⟩ := place.blocks
    rw [hothers, add_assoc] at hown
    exact Vec.reallocate_defined hown cap

/-! ## A run -/

/-- Two types with the layout of a `usize`. -/
def wordKind (name : ℕ) : Kind 64 := ⟨Ty.word, name⟩

theorem wordKind_sameLayout (name name' : ℕ) : SameLayout (wordKind name) (wordKind name') :=
  ⟨rfl, rfl⟩

/-- A value of the second type. -/
def someWord : Value 64 := ⟨wordKind 1, 0⟩

/-- A view of a buffer for the first type, with this value in it and room for four. -/
def wordView : TempVec (wordKind 0) (wordKind 1) :=
  ⟨Vec.new (wordKind 0), wordKind_sameLayout 0 1, ⟨⟨0, [someWord]⟩, 4, 1⟩⟩

def wordView.state : State 64 :=
  ⟨⟨{⟨0, 32, 8⟩}, 0⟩, {.view wordView}, {someWord}, 0, 0⟩

/-- A new buffer is used for the second type, and a value is pushed. -/
theorem wordView.reachable (panics : Value 64 → Bool) :
    (machine 64 panics).Reachable wordView.state := by
  have hempty : (machine 64 panics).Reachable State.empty := Machine.Reachable.of_init rfl
  have hnew := hempty.tail (Step.new (wordKind 0))
  have huse := hnew.tail (Step.useFor (wordKind_sameLayout 0 1))
  have hmade := huse.tail (Step.make someWord (Multiset.notMem_zero _))
  have hplace := Place.view (Vec.new (wordKind 0)) (wordKind_sameLayout 0 1)
  have hgrown : (machine 64 panics).Reachable
      ⟨⟨{⟨0, 32, 8⟩}, 0⟩, {.view { wordView with vec := ⟨⟨0, []⟩, 4, 0⟩ }}, {someWord},
        {someWord}, 0⟩ :=
    hmade.tail (Step.reallocate hplace (Nat.zero_le 4) rfl)
  refine hgrown.tail (Step.operate hplace ⟨rfl, rfl, ⟨?_, ?_, ?_⟩, rfl⟩)
  · decide
  · intro a ha
    rw [List.mem_singleton.mp ha]
    rfl
  · decide

/-- The view is dropped: the value is, and the buffer has room for four.  In the end the block is
freed. -/
theorem reuse_exact_wordView :
    (∃ heap b, wordView.drop (fun _ => false) false wordView.state.heap =
        .ok (heap, b, [someWord], .returned) ∧
      b.elementBuffer.len = 0 ∧ b.elementBuffer.capacity = 4) ∧
    ∃ hist τ, (machine 64 fun _ => false).Run wordView.state hist τ ∧ τ.things = 0 ∧
      τ.heap.freed = {⟨0, 32, 8⟩} := by
  have hreused := reuse_exact (fun _ => false) (wordView.reachable fun _ => false)
  constructor
  · obtain ⟨heap, b, l, ending, hdrop, hl, hlen, hret, -⟩ :=
      hreused.view wordView (Multiset.mem_singleton_self _) false
    obtain rfl := hl.quiet.mpr fun _ _ => rfl
    obtain rfl := hl.all (by decide)
    exact ⟨heap, b, hdrop, hlen (by decide), (hret rfl).2.1⟩
  · obtain ⟨hist, τ, hrun, -, hnone, -, hfreed, -⟩ := hreused.ends fun x _ => by simp
    exact ⟨hist, τ, hrun, hnone, hfreed⟩

end SameAlloc
end StaticAlloc
