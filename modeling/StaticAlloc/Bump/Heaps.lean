import StaticAlloc.Bump.Realloc
import StaticAlloc.Bump.Placement

/-!
# The allocator traits as a heap of blocks

Whoever allocates through `LocalAlloc` or `GlobalAlloc` need not know that there is an
arena.  What the traits promise can be said of a heap of blocks without addresses: a
block is a number of bytes, each of them known or not.  A new block has no known bytes,
or zeros if it was asked for zeroed; a block that is reallocated keeps the known bytes
that are left of it; a byte that is written is known, and a known byte is what a
read returns.

`traits_refine` says that the arenas keep these promises, through both traits of both
types, with the provided methods `alloc_zeroed` of either trait and with both ways to
reallocate: that of the arena, which leaves a block where it is if it can, and the
provided one, `defaults::local::realloc`, which always moves it.

The way of the arena is never worse.  What was granted with the provided method is
granted with the arena's, and takes up no more of it (`realloc_never_worse`): the level
stays at or below that of the other arena, and what has room at some level has room at a
lower one.
-/

namespace StaticAlloc

open Toolkit

variable {w : ℕ} {β : Type}

/-! ## Provided methods -/

namespace AllocTraits

/-- `defaults::local::alloc_zeroed`. -/
def allocZeroed (region : Span) (zero : β)
    (alloc : NonZeroLayout w → Except Stop (Bump.Memory β × Option (Allocation w)))
    (layout : NonZeroLayout w) : Except Stop (Bump.Memory β × Option (Allocation w)) := do
  match ← alloc layout with
  | (σ, none) => return (σ, none)
  | (σ, some allocation) =>
    let bytes ← ptrWriteBytes region σ.bytes allocation.ptr zero allocation.layout.size
    return ({ σ with bytes := bytes }, some allocation)

/-- `defaults::local::realloc`.  It deallocates the old block in the end, which does
nothing in an arena. -/
def realloc (region : Span)
    (alloc : NonZeroLayout w → Except Stop (Bump.Memory β × Option (Allocation w)))
    (old : Allocation w) (layout : NonZeroLayout w) :
    Except Stop (Bump.Memory β × Option (Allocation w)) := do
  match ← alloc layout with
  | (σ, none) => return (σ, none)
  | (σ, some newAlloc) =>
    let bytes ← ptrCopyNonoverlapping region σ.bytes old.ptr newAlloc.ptr
      (min layout.size old.layout.size)
    return ({ σ with bytes := bytes }, some newAlloc)

end AllocTraits

namespace Bump

open AllocTraits (NonZeroLayout)

/-- `GlobalAlloc::alloc_zeroed`, which the trait provides. -/
def globalAllocZeroed (region : Span) (zero : β)
    (alloc : Layout w → Except Stop (Memory β × ℕ)) (layout : Layout w) :
    Except Stop (Memory β × ℕ) := do
  let size := layout.size
  match ← alloc layout with
  | (σ, 0) => return (σ, 0)
  | (σ, ptr) =>
    let bytes ← ptrWriteBytes region σ.bytes ptr zero size
    return ({ σ with bytes := bytes }, ptr)

/-! ## The calls of a user -/

/-- How a new block is asked for. -/
inductive Source where
  | localAlloc (via : Via)
  | globalAlloc (via : Via)
  | localAllocZeroed (via : Via)
  | globalAllocZeroed (via : Via)

namespace Source

/-- Whether the block is to be zeroed. -/
def zeroed : Source → Bool
  | localAllocZeroed _ | globalAllocZeroed _ => true
  | _ => false

/-- The call.  What `GlobalAlloc` returns is a null pointer, or the block of the layout. -/
def ask (S : Storage w) (zero : β) (m : Memory β) (layout : NonZeroLayout w) :
    Source → Except Stop (Memory β × Option (AllocTraits.Allocation w))
  | localAlloc via => via.localAlloc S m layout
  | globalAlloc via => do
    let (m, ptr) ← via.globalAlloc S m layout.toLayout
    return (m, (nonNullNew ptr).map (⟨·, layout⟩))
  | localAllocZeroed via => AllocTraits.allocZeroed S.span zero (via.localAlloc S m) layout
  | globalAllocZeroed via => do
    let (m, ptr) ← Bump.globalAllocZeroed S.span zero (via.globalAlloc S m) layout.toLayout
    return (m, (nonNullNew ptr).map (⟨·, layout⟩))

end Source

/-- How a block is reallocated. -/
inductive Mover where
  /-- as the arena does it -/
  | localRealloc (via : Via)
  /-- as the trait provides it -/
  | provided (via : Via)
  | globalRealloc (via : Via)

namespace Mover

/-- Whether a block may stay where it is. -/
def staysPut : Mover → Bool
  | provided _ => false
  | _ => true

/-- `GlobalAlloc::realloc` cannot change the alignment. -/
def Allows (a : AllocTraits.Allocation w) (layout : NonZeroLayout w) : Mover → Prop
  | globalRealloc _ => layout.align = a.layout.align
  | _ => True

/-- The call. -/
def ask (S : Storage w) (m : Memory β) (a : AllocTraits.Allocation w)
    (layout : NonZeroLayout w) :
    Mover → Except Stop (Memory β × Option (AllocTraits.Allocation w))
  | localRealloc via => via.localRealloc S m a layout
  | provided via => AllocTraits.realloc S.span (via.localAlloc S m) a layout
  | globalRealloc via => do
    let (m, ptr) ← via.globalRealloc S m a.ptr a.layout.toLayout layout.size
    return (m, (nonNullNew ptr).map (⟨·, layout⟩))

end Mover

/-- What a user does, and whether a request was granted. -/
inductive Deal (w : ℕ) (β : Type) where
  | alloc (source : Source) (layout : NonZeroLayout w) (granted : Bool)
  | realloc (mover : Mover) (i : ℕ) (layout : NonZeroLayout w) (granted : Bool)
  | dealloc (i : ℕ)
  | write (i k : ℕ) (b : β)
  | read (i k : ℕ) (b : β)

/-- What a call returned becomes the property of its user. -/
def Session.receive (σ : Session w β) (m : Memory β) :
    Option (AllocTraits.Allocation w) → Session w β
  | some a => σ.push m a
  | none => { σ with memory := m }

/-- What a call returned takes the place of the `i`-th block. -/
def Session.exchange (σ : Session w β) (m : Memory β) (i : ℕ) :
    Option (AllocTraits.Allocation w) → Session w β
  | some a => σ.replace m i a
  | none => { σ with memory := m }

/-- All runs of one user of an arena, whatever its bytes and its level. -/
def traits (S : Storage w) (zero : β) : Machine (Session w β) (Deal w β) where
  init σ := σ.live = [] ∧ σ.memory.consumed ≤ S.len
  step σ d τ :=
    match d with
    | .alloc source layout granted => ∃ m r, source.ask S zero σ.memory layout = .ok (m, r) ∧
        granted = r.isSome ∧ τ = σ.receive m r
    | .realloc mover i layout granted => ∃ a m r, σ.live[i]? = some a ∧ mover.Allows a layout ∧
        mover.ask S σ.memory a layout = .ok (m, r) ∧ granted = r.isSome ∧ τ = σ.exchange m i r
    | .dealloc i => i < σ.live.length ∧ τ = { σ with live := σ.live.eraseIdx i }
    | .write i k b => ∃ a, σ.live[i]? = some a ∧ k < a.layout.size ∧
        τ = { σ with memory.bytes := σ.memory.bytes.store (a.ptr + k) b }
    | .read i k b => ∃ a, σ.live[i]? = some a ∧ k < a.layout.size ∧
        σ.memory.bytes (a.ptr + k) = b ∧ τ = σ

/-! ## What the traits promise -/

/-- A block without an address: its size, and what is known of its bytes. -/
structure Chunk (β : Type) where
  size : ℕ
  known : ℕ → Option β

/-- A block that was just allocated. -/
def Chunk.new (size : ℕ) (b : Option β) : Chunk β := ⟨size, fun _ => b⟩

/-- A block that was reallocated to a size. -/
def Chunk.resize (c : Chunk β) (size : ℕ) : Chunk β :=
  ⟨size, fun k => if k < min c.size size then c.known k else none⟩

/-- A block with one byte written. -/
def Chunk.write (c : Chunk β) (k : ℕ) (b : β) : Chunk β :=
  ⟨c.size, Function.update c.known k (some b)⟩

/-- The heap of blocks.  It may refuse any request, and is the same as before then. -/
def heap (w : ℕ) (zero : β) : Machine (List (Chunk β)) (Deal w β) where
  init σ := σ = []
  step σ d τ :=
    match d with
    | .alloc source layout granted => τ = if granted then
        σ ++ [.new layout.size (if source.zeroed then some zero else none)] else σ
    | .realloc _ i layout granted => ∃ c, σ[i]? = some c ∧
        τ = if granted then σ.set i (c.resize layout.size) else σ
    | .dealloc i => i < σ.length ∧ τ = σ.eraseIdx i
    | .write i k b => ∃ c, σ[i]? = some c ∧ k < c.size ∧ τ = σ.set i (c.write k b)
    | .read i k b => ∃ c, σ[i]? = some c ∧ k < c.size ∧ (∀ b' ∈ c.known k, b = b') ∧ τ = σ

/-! ## What the calls return -/

variable {S : Storage w} {zero : β} {m : Memory β} {a : AllocTraits.Allocation w}
  {layout : NonZeroLayout w} {σ : Session w β} {i : ℕ}

/-- The memory after a block was asked for and granted. -/
def Source.granted (S : Storage w) (zero : β) (m : Memory β) (layout : Layout w)
    (source : Source) : Memory β :=
  { m.taken S layout with
    bytes := if source.zeroed then m.bytes.fill (m.fresh S layout) layout.size zero else m.bytes }

theorem Memory.fresh_ne_zero (l : Layout w) : m.fresh S l ≠ 0 :=
  Nat.ne_of_gt (S.nonnull.trans_le (Nat.le_add_right _ _))

theorem nonNullNew_of_ne_zero {p : ℕ} (hp : p ≠ 0) : nonNullNew p = some p := if_neg hp

theorem Memory.Room.inRegion {l : Layout w} (hroom : m.Room S l) :
    InRegion S.span (m.fresh S l) l.size := by
  refine ⟨Nat.le_add_right _ _, ?_⟩
  have : placement S l m.consumed + l.size ≤ S.len := hroom
  show S.base + placement S l m.consumed + l.size ≤ S.base + S.len
  omega

theorem Source.ask_eq (source : Source) (hc : m.consumed ≤ S.len) :
    source.ask S zero m layout = .ok (if m.Room S layout.toLayout then
      (source.granted S zero m layout.toLayout, some ⟨m.fresh S layout.toLayout, layout⟩)
      else (m, none)) := by
  have hfresh := nonNullNew_of_ne_zero (Memory.fresh_ne_zero (S := S) (m := m) layout.toLayout)
  cases source with
  | localAlloc via =>
    rw [ask, localAlloc_eq via hc]
    rfl
  | globalAlloc via =>
    rw [ask, globalAlloc_eq via hc]
    by_cases hroom : m.Room S layout.toLayout
    · rw [if_pos hroom, if_pos hroom]
      simp only [ok_bind, hfresh]
      rfl
    · rw [if_neg hroom, if_neg hroom]
      rfl
  | localAllocZeroed via =>
    rw [ask, AllocTraits.allocZeroed, localAlloc_eq via hc]
    by_cases hroom : m.Room S layout.toLayout
    · rw [if_pos hroom, if_pos hroom]
      simp only [ok_bind, ptrWriteBytes_ok hroom.inRegion]
      rfl
    · rw [if_neg hroom, if_neg hroom]
      rfl
  | globalAllocZeroed via =>
    rw [ask, Bump.globalAllocZeroed, globalAlloc_eq via hc]
    by_cases hroom : m.Room S layout.toLayout
    · rw [if_pos hroom, if_pos hroom]
      obtain ⟨n, hn⟩ := Nat.exists_eq_add_one_of_ne_zero
        (Memory.fresh_ne_zero (S := S) (m := m) layout.toLayout)
      have hwrite : ptrWriteBytes S.span (m.taken S layout.toLayout).bytes _ zero _ = _ :=
        ptrWriteBytes_ok hroom.inRegion
      rw [hn] at hwrite hfresh ⊢
      simp only [ok_bind, hwrite, pure_eq_ok, hfresh]
      rw [Source.granted, hn]
      rfl
    · rw [if_neg hroom, if_neg hroom]
      rfl

/-- The provided way is the arena's without its first case. -/
theorem realloc_eq (via : Via) (hc : m.consumed ≤ S.len) (ha : Below S m a) :
    AllocTraits.realloc S.span (via.localAlloc S m) a layout = .ok (
      if m.Room S layout.toLayout then
        (m.moved S a layout, some ⟨m.fresh S layout.toLayout, layout⟩)
      else (m, none)) := by
  rw [AllocTraits.realloc, localAlloc_eq via hc]
  by_cases hroom : m.Room S layout.toLayout
  · rw [if_pos hroom, if_pos hroom]
    simp only [ok_bind, copy_moved hc ha hroom]
    rfl
  · rw [if_neg hroom, if_neg hroom]
    rfl

/-- The layout of the new size is the one that was asked for. -/
theorem layoutReallocated_of_align_eq (halign : layout.align = a.layout.align) :
    layoutReallocated a.layout layout.size = .ok (some layout) := by
  have hbound := layout.bounded
  have hpow := layout.align_pow
  rw [layoutReallocated, Layout.fromSizeAlign, dif_pos ⟨halign ▸ hpow, halign ▸ hbound⟩]
  obtain ⟨⟨size, align, hp, hb⟩, hs⟩ := layout
  obtain rfl : align = a.layout.align := halign
  simp only [NonZeroLayout.fromLayout, dif_pos hs, unwrap_some, ok_bind]
  rfl

/-- A block is reallocated in place, if that may be; or it moves; or nothing happens. -/
theorem Mover.ask_eq (mover : Mover) (hc : m.consumed ≤ S.len) (ha : Below S m a)
    (hallows : mover.Allows a layout) :
    mover.ask S m a layout = .ok (
      if mover.staysPut = true ∧ InPlace a layout then (m, some ⟨a.ptr, layout⟩)
      else if m.Room S layout.toLayout then
        (m.moved S a layout, some ⟨m.fresh S layout.toLayout, layout⟩)
      else (m, none)) := by
  cases mover with
  | localRealloc via =>
    rw [ask, localRealloc_eq via hc ha]
    simp only [staysPut, true_and]
  | provided via =>
    rw [ask, realloc_eq via hc ha]
    simp [staysPut]
  | globalRealloc via =>
    have hptr : a.ptr ≠ 0 := Nat.ne_of_gt (S.nonnull.trans_le ha.1)
    have htarget := layoutReallocated_of_align_eq hallows
    rw [ask]
    rcases globalRealloc_eq (S := S) (m := m) via layout.size_pos hptr with
      ⟨hnone, -⟩ | ⟨target, hsome, -, -, heq⟩
    · rw [htarget] at hnone
      exact absurd (Except.ok.inj hnone) (by simp)
    · obtain rfl : layout = target := Option.some.inj (Except.ok.inj (htarget.symm.trans hsome))
      rw [heq, localRealloc_eq .view hc ha]
      simp only [staysPut, true_and]
      by_cases hin : InPlace a layout
      · rw [if_pos hin]
        simp only [Except.map, ok_bind, Option.map_some, Option.getD_some,
          nonNullNew_of_ne_zero hptr]
        rfl
      · rw [if_neg hin]
        by_cases hroom : m.Room S layout.toLayout
        · rw [if_pos hroom]
          simp only [Except.map, ok_bind, Option.map_some, Option.getD_some,
            nonNullNew_of_ne_zero (Memory.fresh_ne_zero (S := S) (m := m) layout.toLayout)]
          rfl
        · rw [if_neg hroom]
          rfl

/-! ## The refinement -/

/-- The block holds what is known of the chunk. -/
structure Holds (m : Bytes β) (a : AllocTraits.Allocation w) (c : Chunk β) : Prop where
  size : c.size = a.layout.size
  known : ∀ k < a.layout.size, ∀ b ∈ c.known k, m (a.ptr + k) = b

theorem Holds.congr {m m' : Bytes β} {c : Chunk β} (h : Holds m a c)
    (heq : Set.EqOn m' m a.span.addresses) : Holds m' a c := by
  refine ⟨h.size, fun k hk b hb => ?_⟩
  have hmem : a.ptr + k ∈ a.span.addresses :=
    Span.mem_addresses.mpr ⟨Nat.le_add_right _ _, Nat.add_lt_add_left hk _⟩
  rw [heq hmem]
  exact h.known k hk b hb

/-- A new block. -/
theorem Source.holds (source : Source) :
    Holds (source.granted S zero m layout.toLayout).bytes ⟨m.fresh S layout.toLayout, layout⟩
      (.new layout.size (if source.zeroed then some zero else none)) := by
  refine ⟨rfl, fun k hk b hb => ?_⟩
  rw [Source.granted]
  by_cases hz : source.zeroed = true
  · simp only [if_pos hz] at hb ⊢
    obtain rfl : zero = b := Option.some.inj hb
    exact Bytes.fill_at hk
  · simp only [if_neg hz] at hb
    exact absurd hb (by simp [Chunk.new])

/-- The bytes of the blocks held stay what they were. -/
theorem Source.granted_eqOn (h : σ.Inv S) (source : Source) {c : AllocTraits.Allocation w}
    (hc : c ∈ σ.live) (l : Layout w) :
    Set.EqOn (source.granted S zero σ.memory l).bytes σ.memory.bytes c.span.addresses := by
  rw [Source.granted]
  by_cases hz : source.zeroed = true
  · simp only [if_pos hz]
    exact Bytes.fill_eqOn (h.fresh_disjoint hc).symm
  · simp only [if_neg hz]
    exact Set.eqOn_refl _ _

/-- A block that stays where it is. -/
theorem Holds.in_place {m : Bytes β} {c : Chunk β} (h : Holds m a c) (hin : InPlace a layout) :
    Holds m ⟨a.ptr, layout⟩ (c.resize layout.size) := by
  refine ⟨rfl, fun k hk b hb => ?_⟩
  have hk' : k < a.layout.size := hk.trans_le hin.2
  have hlt : k < min c.size layout.size := lt_min (h.size ▸ hk') hk
  refine h.known k hk' b ?_
  simpa only [Chunk.resize, if_pos hlt] using hb

/-- A block that moves takes its bytes along. -/
theorem Holds.moved {c : Chunk β} (h : Holds m.bytes a c) :
    Holds (m.moved S a layout).bytes ⟨m.fresh S layout.toLayout, layout⟩
      (c.resize layout.size) := by
  refine ⟨rfl, fun k _ b hb => ?_⟩
  by_cases hlt : k < min c.size layout.size
  · simp only [Chunk.resize, if_pos hlt] at hb
    rw [h.size] at hlt
    have hcopy : (m.bytes.copy a.ptr (m.fresh S layout.toLayout) _) _ = m.bytes (a.ptr + k) :=
      Bytes.copy_same k (lt_min (lt_min_iff.mp hlt).2 (lt_min_iff.mp hlt).1)
    show m.bytes.copy _ _ _ _ = b
    rw [hcopy]
    exact h.known k (lt_min_iff.mp hlt).1 b hb
  · simp only [Chunk.resize, if_neg hlt] at hb
    exact absurd hb (by simp)

/-- A byte of the block is written. -/
theorem Holds.write {m : Bytes β} {c : Chunk β} (h : Holds m a c) (k : ℕ) (b : β) :
    Holds (m.store (a.ptr + k) b) a (c.write k b) := by
  refine ⟨h.size, fun q hq b' hb' => ?_⟩
  by_cases hqk : q = k
  · subst hqk
    obtain rfl : b = b' := by simpa [Chunk.write] using hb'
    exact if_pos rfl
  · rw [Bytes.store, if_neg (by omega)]
    refine h.known q hq b' ?_
    simpa only [Chunk.write, Function.update_of_ne hqk] using hb'

/-- The session is the heap. -/
structure Represents (S : Storage w) (σ : Session w β) (chunks : List (Chunk β)) : Prop where
  inv : σ.Inv S
  length : chunks.length = σ.live.length
  holds : ∀ (i : ℕ) a c, σ.live[i]? = some a → chunks[i]? = some c → Holds σ.memory.bytes a c

namespace Represents

variable {chunks : List (Chunk β)} {c : Chunk β}

/-- The chunk of a block. -/
theorem chunk (h : Represents S σ chunks) (ha : σ.live[i]? = some a) :
    ∃ c, chunks[i]? = some c ∧ Holds σ.memory.bytes a c := by
  obtain ⟨hi, -⟩ := List.getElem?_eq_some_iff.mp ha
  have hc := List.getElem?_eq_getElem (h.length ▸ hi : i < chunks.length)
  exact ⟨_, hc, h.holds i a _ ha hc⟩

theorem push (h : Represents S σ chunks) (source : Source)
    (hroom : σ.memory.Room S layout.toLayout) :
    Represents S (σ.push (source.granted S zero σ.memory layout.toLayout)
        ⟨σ.memory.fresh S layout.toLayout, layout⟩)
      (chunks ++ [.new layout.size (if source.zeroed then some zero else none)]) where
  inv := ⟨(h.inv.push_fresh hroom).packed, hroom⟩
  length := by
    show _ = (σ.live ++ [_]).length
    rw [List.length_append, List.length_append, h.length]
    rfl
  holds := by
    intro j b d hb hd
    have hb' : (σ.live ++ [_])[j]? = some b := hb
    rcases Nat.lt_or_ge j σ.live.length with hj | hj
    · rw [List.getElem?_append_left hj] at hb'
      rw [List.getElem?_append_left (h.length ▸ hj)] at hd
      exact (h.holds j b d hb' hd).congr
        (source.granted_eqOn h.inv (List.mem_of_getElem? hb') _)
    · rw [List.getElem?_append_right hj] at hb'
      rw [List.getElem?_append_right (h.length ▸ hj), h.length] at hd
      obtain ⟨hj', rfl⟩ := List.getElem?_eq_some_iff.mp hb'
      obtain ⟨-, rfl⟩ := List.getElem?_eq_some_iff.mp hd
      simp only [List.getElem_singleton]
      exact source.holds

/-- One block and its chunk are exchanged; the bytes of the others stay what they were. -/
theorem exchange (h : Represents S σ chunks) {m : Memory β} {b : AllocTraits.Allocation w}
    (hinv : (σ.replace m i b).Inv S) (hholds : Holds m.bytes b c)
    (hframe : ∀ j d, j ≠ i → σ.live[j]? = some d →
      Set.EqOn m.bytes σ.memory.bytes d.span.addresses) :
    Represents S (σ.replace m i b) (chunks.set i c) where
  inv := hinv
  length := by
    show _ = (σ.live.set _ _).length
    rw [List.length_set, List.length_set, h.length]
  holds := by
    intro j d e hd he
    have hd' : (σ.live.set i b)[j]? = some d := hd
    rw [List.getElem?_set] at hd' he
    by_cases hij : i = j
    · rw [if_pos hij] at hd' he
      split at hd'
      · rename_i hi
        rw [if_pos (h.length ▸ hi)] at he
        obtain rfl := Option.some.inj hd'
        obtain rfl := Option.some.inj he
        exact hholds
      · exact absurd hd' (by simp)
    · rw [if_neg hij] at hd' he
      exact (h.holds j d e hd' he).congr (hframe j d (Ne.symm hij) hd')

theorem alloc (h : Represents S σ chunks) (source : Source) {r : Option _}
    (heq : source.ask S zero σ.memory layout = .ok (m, r)) :
    Represents S (σ.receive m r) (if r.isSome then
      chunks ++ [.new layout.size (if source.zeroed then some zero else none)] else chunks) := by
  rw [source.ask_eq h.inv.consumed_le] at heq
  by_cases hroom : σ.memory.Room S layout.toLayout
  · rw [if_pos hroom] at heq
    obtain ⟨rfl, rfl⟩ := ok_pair_inj heq
    exact h.push source hroom
  · rw [if_neg hroom] at heq
    obtain ⟨rfl, rfl⟩ := ok_pair_inj heq
    exact h

theorem realloc (h : Represents S σ chunks) {mover : Mover} (ha : σ.live[i]? = some a)
    (hc : chunks[i]? = some c) (hallows : mover.Allows a layout) {r : Option _}
    (heq : mover.ask S σ.memory a layout = .ok (m, r)) :
    Represents S (σ.exchange m i r)
      (if r.isSome then chunks.set i (c.resize layout.size) else chunks) := by
  have hholds := h.holds i a c ha hc
  rw [mover.ask_eq h.inv.consumed_le (h.inv.below (List.mem_of_getElem? ha)) hallows] at heq
  by_cases hin : mover.staysPut = true ∧ InPlace a layout
  · rw [if_pos hin] at heq
    obtain ⟨rfl, rfl⟩ := ok_pair_inj heq
    exact h.exchange (h.inv.replace_in_place ha hin.2) (hholds.in_place hin.2)
      fun _ _ _ _ => Set.eqOn_refl _ _
  · rw [if_neg hin] at heq
    by_cases hroom : σ.memory.Room S layout.toLayout
    · rw [if_pos hroom] at heq
      obtain ⟨rfl, rfl⟩ := ok_pair_inj heq
      obtain ⟨hi, -⟩ := List.getElem?_eq_some_iff.mp ha
      exact h.exchange (h.inv.replace_moved hi hroom) hholds.moved
        fun j d _ hd => Bytes.copy_eqOn (h.inv.fresh_disjoint (List.mem_of_getElem? hd)).symm
    · rw [if_neg hroom] at heq
      obtain ⟨rfl, rfl⟩ := ok_pair_inj heq
      exact h

theorem dealloc (h : Represents S σ chunks) (i : ℕ) :
    Represents S { σ with live := σ.live.eraseIdx i } (chunks.eraseIdx i) where
  inv := ⟨h.inv.packed.sublist ((List.eraseIdx_sublist _ _).map _), h.inv.consumed_le⟩
  length := by
    show _ = (σ.live.eraseIdx i).length
    rw [List.length_eraseIdx, List.length_eraseIdx, h.length]
  holds := by
    intro j b d hb hd
    have hb' : (σ.live.eraseIdx i)[j]? = some b := hb
    rw [List.getElem?_eraseIdx] at hb' hd
    by_cases hj : j < i
    · rw [if_pos hj] at hb' hd
      exact h.holds j b d hb' hd
    · rw [if_neg hj] at hb' hd
      exact h.holds (j + 1) b d hb' hd

theorem write (h : Represents S σ chunks) (ha : σ.live[i]? = some a) (hc : chunks[i]? = some c)
    {k : ℕ} (hk : k < a.layout.size) (b : β) :
    Represents S { σ with memory.bytes := σ.memory.bytes.store (a.ptr + k) b }
      (chunks.set i (c.write k b)) := by
  obtain ⟨hi, hget⟩ := List.getElem?_eq_some_iff.mp ha
  have hsame : σ.live.set i a = σ.live := by rw [← hget, List.set_getElem_self]
  have hmem : a.ptr + k ∈ a.span.addresses :=
    Span.mem_addresses.mpr ⟨Nat.le_add_right _ _, Nat.add_lt_add_left hk _⟩
  have hexchange := h.exchange (i := i) (b := a) (c := c.write k b)
    (m := { σ.memory with bytes := σ.memory.bytes.store (a.ptr + k) b })
    ⟨by rw [Session.replace, hsame]; exact h.inv.packed, h.inv.consumed_le⟩
    ((h.holds i a c ha hc).write k b)
    fun j d hne hd => Bytes.store_eqOn (Set.disjoint_left.mp (h.inv.disjoint ha hd hne) hmem)
  rwa [Session.replace, hsame] at hexchange

end Represents

/-- **The simulation.** -/
theorem represents_simulation (S : Storage w) (zero : β) :
    Simulation (traits S zero) (heap w zero) (Represents S) where
  init := by
    rintro ⟨m, live⟩ ⟨rfl, hc⟩
    refine ⟨[], rfl, ⟨.nil, hc⟩, rfl, ?_⟩
    intro i a c ha
    exact absurd ha (by simp)
  step := by
    intro σ d τ chunks _ h hstep
    cases d with
    | alloc source layout granted =>
      obtain ⟨m, r, hask, rfl, rfl⟩ := hstep
      exact ⟨_, rfl, h.alloc source hask⟩
    | realloc mover i layout granted =>
      obtain ⟨a, m, r, ha, hallows, hask, rfl, rfl⟩ := hstep
      obtain ⟨c, hc, -⟩ := h.chunk ha
      exact ⟨_, ⟨c, hc, rfl⟩, h.realloc ha hc hallows hask⟩
    | dealloc i =>
      obtain ⟨hi, rfl⟩ := hstep
      exact ⟨_, ⟨h.length ▸ hi, rfl⟩, h.dealloc i⟩
    | write i k b =>
      obtain ⟨a, ha, hk, rfl⟩ := hstep
      obtain ⟨c, hc, hholds⟩ := h.chunk ha
      exact ⟨_, ⟨c, hc, hholds.size ▸ hk, rfl⟩, h.write ha hc hk b⟩
    | read i k b =>
      obtain ⟨a, ha, hk, hb, rfl⟩ := hstep
      obtain ⟨c, hc, hholds⟩ := h.chunk ha
      refine ⟨chunks, ⟨c, hc, hholds.size ▸ hk, fun b' hb' => ?_, rfl⟩, h⟩
      rw [← hb]
      exact hholds.known k hk b' hb'

/-- In every state some run leads to, no call stops. -/
theorem traits_total {σ : Session w β} (h : (traits S zero).Reachable σ) :
    (∀ source layout, ∃ r, Source.ask S zero σ.memory layout source = .ok r) ∧
    ∀ (mover : Mover) (i : ℕ) a layout, σ.live[i]? = some a → mover.Allows a layout →
      ∃ r, mover.ask S σ.memory a layout = .ok r := by
  obtain ⟨σ₀, run, h₀, hrun⟩ := h
  obtain ⟨chunks₀, -, hrep₀⟩ := (represents_simulation S zero).init σ₀ h₀
  obtain ⟨chunks, -, -, -, hrep⟩ := (represents_simulation S zero).run (.of_init h₀) hrep₀ hrun
  refine ⟨fun source layout => ⟨_, source.ask_eq hrep.inv.consumed_le⟩, ?_⟩
  intro mover i a layout ha hallows
  exact ⟨_, mover.ask_eq hrep.inv.consumed_le (hrep.inv.below (List.mem_of_getElem? ha)) hallows⟩

/-- **The allocator traits are a heap of blocks.**  Whatever a user of an arena does through
the traits, with their provided methods and without, and whatever is granted and is read,
could be done and read in the same order on a heap of blocks without addresses.  And no
call stops. -/
theorem traits_refine {σ₀ σ : Session w β} {run : List (Session w β × Deal w β × Session w β)}
    (h₀ : (traits S zero).init σ₀) (h : (traits S zero).Run σ₀ run σ) :
    (∃ (chunks : List (Chunk β)) (run' : List (List (Chunk β) × Deal w β × List (Chunk β))),
      (heap w zero).Run [] run' chunks ∧
        run'.map (fun x => x.2.1) = run.map (fun x => x.2.1) ∧
        chunks.map Chunk.size = σ.live.map fun a => a.layout.size) ∧
    (∀ source layout, ∃ r, Source.ask S zero σ.memory layout source = .ok r) ∧
    ∀ (mover : Mover) (i : ℕ) a layout, σ.live[i]? = some a → mover.Allows a layout →
      ∃ r, mover.ask S σ.memory a layout = .ok r := by
  refine ⟨?_, traits_total ⟨σ₀, run, h₀, h⟩⟩
  obtain ⟨chunks₀, hinit, hrep₀⟩ := (represents_simulation S zero).init σ₀ h₀
  obtain rfl : chunks₀ = [] := hinit
  obtain ⟨chunks, run', hrun', hlabels, hrep⟩ :=
    (represents_simulation S zero).run (.of_init h₀) hrep₀ h
  refine ⟨chunks, run', hrun', hlabels, List.ext_getElem? fun i => ?_⟩
  rw [List.getElem?_map, List.getElem?_map]
  cases ha : σ.live[i]? with
  | none =>
    have hc : chunks[i]? = none := by
      rw [List.getElem?_eq_none_iff] at ha ⊢
      rwa [hrep.length]
    rw [hc]
    rfl
  | some a =>
    obtain ⟨c, hc, hholds⟩ := hrep.chunk ha
    rw [hc]
    exact congrArg some hholds.size

/-- A zeroed block of eight bytes, one byte of it written, and then sixteen bytes by the
provided `realloc`. -/
theorem run_zeroed : ∃ run σ, (traits sixtyFour 0).Run (⟨⟨0, id⟩, []⟩ : Session 64 ℕ) run σ ∧
    run.map (fun x => x.2.1) = [.alloc (.globalAllocZeroed .bump) eightBytes true, .write 0 1 7,
      .realloc (.provided .view) 0 sixteenBytes true] ∧
    σ.live.map (fun a => a.layout.size) = [16] := by
  let zeroed : Session 64 ℕ := ⟨⟨8, Bytes.fill id 4096 8 0⟩, [⟨4096, eightBytes⟩]⟩
  let written : Session 64 ℕ := { zeroed with memory.bytes := zeroed.memory.bytes.store 4097 7 }
  have halloc : (traits sixtyFour 0).step (⟨⟨0, id⟩, []⟩ : Session 64 ℕ)
      (.alloc (.globalAllocZeroed .bump) eightBytes true) zeroed := by
    refine ⟨zeroed.memory, some ⟨4096, eightBytes⟩, ?_, rfl, rfl⟩
    rw [Source.ask_eq _ (by decide), if_pos (by decide)]
    rfl
  have hwrite : (traits sixtyFour 0).step zeroed (.write 0 1 7) written :=
    ⟨⟨4096, eightBytes⟩, rfl, by decide, rfl⟩
  have hrealloc : (traits sixtyFour 0).step written
      (.realloc (.provided .view) 0 sixteenBytes true)
      (written.replace (written.memory.moved sixtyFour ⟨4096, eightBytes⟩ sixteenBytes) 0
        ⟨4104, sixteenBytes⟩) := by
    refine ⟨⟨4096, eightBytes⟩, _, some ⟨4104, sixteenBytes⟩, rfl, trivial, ?_, rfl, rfl⟩
    have hbelow : Below sixtyFour written.memory ⟨4096, eightBytes⟩ := ⟨by decide, by decide⟩
    have hfresh : written.memory.fresh sixtyFour sixteenBytes.toLayout = 4104 := by decide
    rw [Mover.ask_eq (.provided .view) (by decide) hbelow trivial, if_neg (by decide),
      if_pos (by decide), hfresh]
  exact ⟨_, _, (((Machine.Run.refl _).tail halloc).tail hwrite).tail hrealloc, rfl, rfl⟩

/-- On the heap the written byte moved along. -/
theorem traits_refine_zeroed : ∃ (chunks : List (Chunk ℕ))
    (run : List (List (Chunk ℕ) × Deal 64 ℕ × List (Chunk ℕ))),
    (heap 64 0).Run [] run chunks ∧ chunks.map Chunk.size = [16] := by
  obtain ⟨run, σ, hrun, -, hsizes⟩ := run_zeroed
  obtain ⟨⟨chunks, run', hrun', -, hchunks⟩, -⟩ := traits_refine ⟨rfl, Nat.zero_le _⟩ hrun
  exact ⟨chunks, run', hrun', hchunks.trans hsizes⟩

/-! ## Two ways to reallocate -/

namespace Deal

/-- A request that was granted, made of an arena that has only the provided `realloc`. -/
def Plain : Deal w β → Prop
  | alloc _ _ granted => granted = true
  | realloc (.provided _) _ _ granted => granted = true
  | dealloc _ | write _ _ _ => True
  | _ => False

/-- The same request of an arena with a `realloc` of its own. -/
def improved : Deal w β → Deal w β
  | realloc (.provided via) i layout granted => realloc (.localRealloc via) i layout granted
  | d => d

end Deal

/-- The second arena has the same blocks, and not less room. -/
structure Ahead (S : Storage w) (σ τ : Session w β) : Prop where
  inv : σ.Inv S
  inv' : τ.Inv S
  layouts : τ.live.map AllocTraits.Allocation.layout = σ.live.map AllocTraits.Allocation.layout
  level : τ.memory.consumed ≤ σ.memory.consumed

/-- What has room at a level has room at a lower one, and ends at or below where it would. -/
theorem Memory.Room.lower {m m' : Memory β} {l : Layout w} (hroom : m.Room S l)
    (hle : m'.consumed ≤ m.consumed) :
    m'.Room S l ∧ (m'.taken S l).consumed ≤ (m.taken S l).consumed := by
  have hplace : placement S l m'.consumed ≤ placement S l m.consumed :=
    placement_le (hle.trans le_placement) dvd_placement
  exact ⟨(Nat.add_le_add_right hplace _).trans hroom, Nat.add_le_add_right hplace _⟩

namespace Ahead

variable {τ σ' : Session w β}

/-- The block of the same number. -/
theorem get (h : Ahead S σ τ) (ha : σ.live[i]? = some a) :
    ∃ b, τ.live[i]? = some b ∧ b.layout = a.layout := by
  have hget := congrArg (·[i]?) h.layouts
  simp only [List.getElem?_map, ha, Option.map_some] at hget
  exact Option.map_eq_some_iff.mp hget

theorem alloc (h : Ahead S σ τ) {source : Source} {r : Option _} (hr : r.isSome = true)
    (heq : source.ask S zero σ.memory layout = .ok (m, r)) :
    ∃ m' r', source.ask S zero τ.memory layout = .ok (m', r') ∧ r'.isSome = true ∧
      Ahead S (σ.receive m r) (τ.receive m' r') := by
  rw [source.ask_eq h.inv.consumed_le] at heq
  by_cases hroom : σ.memory.Room S layout.toLayout
  · rw [if_pos hroom] at heq
    obtain ⟨rfl, rfl⟩ := ok_pair_inj heq
    obtain ⟨hroom', hlevel⟩ := hroom.lower h.level
    rw [source.ask_eq h.inv'.consumed_le, if_pos hroom']
    refine ⟨_, _, rfl, rfl, ⟨(h.inv.push_fresh hroom).packed, hroom⟩,
      ⟨(h.inv'.push_fresh hroom').packed, hroom'⟩, ?_, hlevel⟩
    show (τ.live ++ [_]).map _ = (σ.live ++ [_]).map _
    rw [List.map_append, List.map_append, h.layouts]
    rfl
  · rw [if_neg hroom] at heq
    obtain ⟨-, rfl⟩ := ok_pair_inj heq
    exact absurd hr (by simp)

/-- The provided `realloc` always takes a new block; the arena's may not need one. -/
theorem realloc (h : Ahead S σ τ) {via : Via} (ha : σ.live[i]? = some a) {r : Option _}
    (hr : r.isSome = true)
    (heq : (Mover.provided via).ask S σ.memory a layout = .ok (m, r)) :
    ∃ b m' r', τ.live[i]? = some b ∧
      (Mover.localRealloc via).ask S τ.memory b layout = .ok (m', r') ∧ r'.isSome = true ∧
      Ahead S (σ.exchange m i r) (τ.exchange m' i r') := by
  obtain ⟨b, hb, -⟩ := h.get ha
  obtain ⟨hi, -⟩ := List.getElem?_eq_some_iff.mp ha
  obtain ⟨hi', -⟩ := List.getElem?_eq_some_iff.mp hb
  rw [Mover.ask_eq (.provided via) h.inv.consumed_le
      (h.inv.below (List.mem_of_getElem? ha)) trivial,
    if_neg (by simp [Mover.staysPut])] at heq
  by_cases hroom : σ.memory.Room S layout.toLayout
  · rw [if_pos hroom] at heq
    obtain ⟨rfl, rfl⟩ := ok_pair_inj heq
    have hlayouts : ∀ p p' : ℕ, (τ.live.set i ⟨p', layout⟩).map AllocTraits.Allocation.layout =
        (σ.live.set i ⟨p, layout⟩).map AllocTraits.Allocation.layout := by
      intro p p'
      rw [List.map_set, List.map_set, h.layouts]
    have hinv := h.inv.replace_moved (a := a) hi hroom
    obtain ⟨hroom', hlevel⟩ := hroom.lower h.level
    have hallows : (Mover.localRealloc via).Allows b layout := trivial
    have hask := Mover.ask_eq (.localRealloc via) h.inv'.consumed_le
      (h.inv'.below (List.mem_of_getElem? hb)) hallows
    by_cases hin : InPlace b layout
    · rw [if_pos ⟨rfl, hin⟩] at hask
      refine ⟨b, _, _, hb, hask, rfl, hinv, h.inv'.replace_in_place hb hin, hlayouts _ _, ?_⟩
      exact h.level.trans (le_placement.trans (Nat.le_add_right _ _))
    · rw [if_neg fun hin' => hin hin'.2, if_pos hroom'] at hask
      exact ⟨b, _, _, hb, hask, rfl, hinv, h.inv'.replace_moved hi' hroom', hlayouts _ _, hlevel⟩
  · rw [if_neg hroom] at heq
    obtain ⟨-, rfl⟩ := ok_pair_inj heq
    exact absurd hr (by simp)

theorem step (h : Ahead S σ τ) {d : Deal w β} (hd : d.Plain)
    (hstep : (traits S zero).step σ d σ') :
    ∃ τ', (traits S zero).step τ d.improved τ' ∧ Ahead S σ' τ' := by
  cases d with
  | alloc source layout granted =>
    obtain ⟨m, r, hask, rfl, rfl⟩ := hstep
    obtain ⟨m', r', hask', hr', hahead⟩ := h.alloc hd hask
    exact ⟨_, ⟨m', r', hask', hd.trans hr'.symm, rfl⟩, hahead⟩
  | realloc mover i layout granted =>
    cases mover with
    | provided via =>
      obtain ⟨a, m, r, ha, -, hask, rfl, rfl⟩ := hstep
      obtain ⟨b, m', r', hb, hask', hr', hahead⟩ := h.realloc ha hd hask
      exact ⟨_, ⟨b, m', r', hb, trivial, hask', hd.trans hr'.symm, rfl⟩, hahead⟩
    | localRealloc via => exact absurd hd (by simp [Deal.Plain])
    | globalRealloc via => exact absurd hd (by simp [Deal.Plain])
  | dealloc i =>
    obtain ⟨hi, rfl⟩ := hstep
    have hlength : τ.live.length = σ.live.length := by
      simpa using congrArg List.length h.layouts
    refine ⟨_, ⟨hlength ▸ hi, rfl⟩,
      ⟨h.inv.packed.sublist ((List.eraseIdx_sublist _ _).map _), h.inv.consumed_le⟩,
      ⟨h.inv'.packed.sublist ((List.eraseIdx_sublist _ _).map _), h.inv'.consumed_le⟩, ?_, h.level⟩
    show (τ.live.eraseIdx i).map _ = (σ.live.eraseIdx i).map _
    rw [← List.eraseIdx_map, ← List.eraseIdx_map, h.layouts]
  | write i k b =>
    obtain ⟨a, ha, hk, rfl⟩ := hstep
    obtain ⟨b', hb', hlayout⟩ := h.get ha
    exact ⟨_, ⟨b', hb', hlayout ▸ hk, rfl⟩, ⟨h.inv.packed, h.inv.consumed_le⟩,
      ⟨h.inv'.packed, h.inv'.consumed_le⟩, h.layouts, h.level⟩
  | read i k b => exact absurd hd (by simp [Deal.Plain])

end Ahead

/-- **The arena's `realloc` is never worse.**  Take any run of requests that an arena
grants with nothing but the provided `realloc`, which always allocates anew.  With a
`realloc` of its own the arena, started at the same level or at a lower one, grants the
same requests, the blocks have the same layouts, and its level is the same or lower. -/
theorem realloc_never_worse {σ₀ σ τ₀ : Session w β}
    {run : List (Session w β × Deal w β × Session w β)} (h₀ : (traits S zero).init σ₀)
    (h : (traits S zero).Run σ₀ run σ) (hplain : ∀ x ∈ run, x.2.1.Plain) (hτ₀ : τ₀.live = [])
    (hlevel : τ₀.memory.consumed ≤ σ₀.memory.consumed) :
    ∃ τ run', (traits S zero).Run τ₀ run' τ ∧
      run'.map (fun x => x.2.1) = run.map (fun x => x.2.1.improved) ∧
      τ.live.map AllocTraits.Allocation.layout = σ.live.map AllocTraits.Allocation.layout ∧
      τ.memory.consumed ≤ σ.memory.consumed := by
  suffices hrun : ∃ τ run', (traits S zero).Run τ₀ run' τ ∧
      run'.map (fun x => x.2.1) = run.map (fun x => x.2.1.improved) ∧ Ahead S σ τ by
    obtain ⟨τ, run', hrun, hlabels, hahead⟩ := hrun
    exact ⟨τ, run', hrun, hlabels, hahead.layouts, hahead.level⟩
  induction h with
  | refl =>
    obtain ⟨hσ₀, hc⟩ := h₀
    refine ⟨τ₀, [], Machine.Run.refl _, rfl, ⟨?_, hc⟩, ⟨?_, hlevel.trans hc⟩, ?_, hlevel⟩
    · rw [hσ₀]
      exact .nil
    · rw [hτ₀]
      exact .nil
    · rw [hσ₀, hτ₀]
  | tail hrun hstep ih =>
    obtain ⟨τ, run', hrun', hlabels, hahead⟩ :=
      ih fun x hx => hplain x (List.mem_append_left _ hx)
    obtain ⟨τ', hstep', hahead'⟩ :=
      hahead.step (hplain _ (List.mem_append_right _ (List.mem_singleton_self _))) hstep
    refine ⟨τ', _, hrun'.tail hstep', ?_, hahead'⟩
    rw [List.map_append, List.map_append, hlabels]
    rfl

/-- The arena with a `realloc` of its own gives sixteen bytes as well. -/
theorem realloc_never_worse_zeroed : ∃ (τ : Session 64 ℕ) (run : _),
    (traits sixtyFour 0).Run (⟨⟨0, id⟩, []⟩ : Session 64 ℕ) run τ ∧
      run.map (fun x => x.2.1) = [.alloc (.globalAllocZeroed .bump) eightBytes true,
        .write 0 1 7, .realloc (.localRealloc .view) 0 sixteenBytes true] := by
  obtain ⟨run, σ, hrun, hlabels, -⟩ := run_zeroed
  have hplain : ∀ x ∈ run, x.2.1.Plain := by
    intro x hx
    have hmem := List.mem_map_of_mem (f := fun x => x.2.1) hx
    rw [hlabels] at hmem
    simp only [List.mem_cons, List.not_mem_nil, or_false] at hmem
    rcases hmem with h | h | h
    · rw [h]
      rfl
    · rw [h]
      trivial
    · rw [h]
      rfl
  have hlevel : (⟨⟨0, id⟩, []⟩ : Session 64 ℕ).memory.consumed ≤ 0 := le_rfl
  obtain ⟨τ, run', hrun', hlabels', -⟩ :=
    realloc_never_worse ⟨rfl, Nat.zero_le _⟩ hrun hplain rfl hlevel
  refine ⟨τ, run', hrun', hlabels'.trans ?_⟩
  have himproved := congrArg (List.map Deal.improved) hlabels
  rw [List.map_map] at himproved
  exact himproved

end Bump
end StaticAlloc
