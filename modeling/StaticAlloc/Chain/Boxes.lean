import StaticAlloc.Chain.Ownership
import StaticAlloc.Core.Memory

/-!
# Boxes on chains

`Chain::bump_box` lends a box: a pointer into the first link of the chain, for as long as the
chain is borrowed.  The chain may put other links in front of it meanwhile.  What the box relies on
is that no link of its chain is freed before the chain is dropped, or moved into another chain;
that no link hands out memory twice; and, for its first bytes, that a link was zeroed when it was
allocated, wherever in memory that is and whatever was there before.

A program has any number of chains and of boxes.  A box knows the link that its pointer points
into; it is used after free if that link is not on the heap.  `Enabled` is what the types allow:
a chain that is dropped or given to another one has no boxes any more.

`Lender` is the same without links and addresses.  A box has its own bytes, all zero at first.
`Program.lender` forgets the links, and `matched` says that what is left does what a lender does.
The invariant is `Intact`: the blocks of the links on the heap are apart, every box is in a link of
the chain it borrows, below its level (`Within`), boxes are apart, and above the level of a link
everything is still zero.
-/

namespace StaticAlloc
namespace Chain

open Toolkit
open Bump (Failure placement le_placement dvd_placement)

variable {w : ℕ} {T : Target w} {I ι β : Type}

/-! ## Where the data of a link is -/

/-- The data of the arena in a link. -/
def LinkPtr.data (p : LinkPtr T) : Span := ⟨p.storage.base, p.capacity⟩

/-- The pointer to the next link, and the header of the arena. -/
def LinkPtr.head (p : LinkPtr T) : Span := ⟨p.addr, p.bumpOffset + T.header.size⟩

/-- The data lies behind the head, and ends inside the block. -/
theorem LinkPtr.data_stop_le (p : LinkPtr T) : p.data.stop ≤ p.block.stop := by
  have hlaid := p.laidOut
  rw [linkLayout] at hlaid
  obtain ⟨bump, hbump, hlink⟩ := Option.bind_eq_some_iff.mp hlaid
  obtain ⟨dataTail, hdata, hrest⟩ := Option.bind_eq_some_iff.mp hbump
  obtain ⟨⟨header, offset⟩, hheader, hpad⟩ := Option.bind_eq_some_iff.mp hrest
  obtain rfl := Option.some.inj hpad
  have hsize := (Layout.fromSizeAlign_some hdata).1
  obtain ⟨hle, -, hsize', -, -⟩ := Layout.extend_some hheader
  obtain ⟨-, -, hsize'', -, -⟩ := Layout.extend_some hlink
  have hround : header.size ≤ header.padToAlign.size := le_roundUp
  show p.addr + p.bumpOffset + T.header.size + p.capacity ≤ p.addr + p.layout.size
  omega

theorem LinkPtr.head_stop (p : LinkPtr T) : p.head.stop = p.data.start :=
  (Nat.add_assoc _ _ _).symm

theorem LinkPtr.data_subset (p : LinkPtr T) : p.data.addresses ⊆ p.block.addresses := by
  refine Span.addresses_subset ?_ p.data_stop_le
  show p.addr ≤ p.addr + p.bumpOffset + T.header.size
  omega

theorem LinkPtr.head_subset (p : LinkPtr T) : p.head.addresses ⊆ p.block.addresses := by
  refine Span.addresses_subset le_rfl (p.head_stop.trans_le ?_)
  exact (Nat.le_add_right _ _).trans p.data_stop_le

/-! ## Programs with boxes -/

/-- `LeakBox<'_, MaybeUninit<V>>`: the chain that it borrows, the link that its pointer points
into, and the pointer. -/
structure Boxed (T : Target w) (I : Type) where
  chain : I
  link : Option (LinkPtr T)
  ptr : ℕ
  ty : Ty w

/-- The bytes of a box. -/
def Boxed.span (B : Boxed T I) : Span := ⟨B.ptr, B.ty.size⟩

/-- The chains, the memory, and the boxes of a program. -/
structure Program (T : Target w) (I ι β : Type) where
  chains : State T I
  bytes : Bytes β
  boxes : ι → Option (Boxed T I)

/-- What a program may do. -/
inductive Act (T : Target w) (I ι β : Type) where
  | new (i : I) (size : ℕ) (grant : Option (LinkPtr T))
  | bumpBox (x : ι) (i : I) (V : Ty w)
  | chain (i new : I)
  | drop (i : I)
  | write (x : ι) (k : ℕ) (b : β)
  | read (x : ι) (k : ℕ)
  /-- A box is dropped, or its reference ends. -/
  | release (x : ι)

/-- What it learns from it. -/
inductive Reply (β : Type) where
  | done
  | notMade (e : RawAllocError)
  | refused (failure : Failure)
  | saw (b : β)
  | panicked

/-- An access to one byte through a pointer into a link. -/
def access (σ : State T I) (link : Option (LinkPtr T)) (q : ℕ) : Except Stop Unit :=
  match link with
  | none => .error (.undefined "access through a pointer to nothing")
  | some p =>
    match σ.links p with
    | none => .error (.undefined "use after free")
    | some _ =>
      if InRegion p.data q 1 then .ok ()
      else .error (.undefined "access outside of the data of a link")

/-- `alloc_zeroed`: the bytes of the block that was granted. -/
def allocZeroed (zero : β) (m : Bytes β) : Option (LinkPtr T) → Bytes β
  | none => m
  | some p => m.fill p.block.start p.block.size zero

namespace Program

/-- A box is assigned to a variable. -/
def assign [DecidableEq ι] (s : Program T I ι β) (x : ι) (o : Option (Boxed T I)) :
    Program T I ι β :=
  { s with boxes := Function.update s.boxes x o }

/-- One act; what is not enabled does nothing. -/
def exec [DecidableEq I] [DecidableEq ι] (b : Build) (zero : β) (fuel : ℕ)
    (s : Program T I ι β) : Act T I ι β → Except Stop (Option (Program T I ι β × Reply β))
  | .new i size grant =>
    match new s.chains i size grant with
    | (σ, .error e) => .ok (some ({ s with chains := σ }, .notMade e))
    | (σ, .ok ()) =>
      .ok (some ({ s with chains := σ, bytes := allocZeroed zero s.bytes grant }, .done))
  | .bumpBox x i V => do
    match ← bumpBox b s.chains i V with
    | (σ, .error failure) => return some ({ s with chains := σ }, .refused failure)
    | (σ, .ok ptr) =>
      return some ({ s.assign x (some ⟨i, s.chains.root i, ptr, V⟩) with chains := σ }, .done)
  | .chain i new => do
    match ← chain fuel s.chains i new with
    | none => return none
    | some σ => return some ({ s with chains := σ }, .done)
  | .drop i => do
    match ← Chain.drop fuel s.chains i with
    | none => return none
    | some σ => return some ({ s with chains := σ }, .done)
  | .write x k v =>
    match s.boxes x with
    | none => .ok (some (s, .done))
    | some B => do
      access s.chains B.link (B.ptr + k)
      return some ({ s with bytes := s.bytes.store (B.ptr + k) v }, .done)
  | .read x k =>
    match s.boxes x with
    | none => .ok (some (s, .done))
    | some B => do
      access s.chains B.link (B.ptr + k)
      return some (s, .saw (s.bytes (B.ptr + k)))
  | .release x => .ok (some (s.assign x none, .done))

/-- What the types of the functions ask for, and what the global allocator does. -/
def Enabled (s : Program T I ι β) : Act T I ι β → Prop
  | .new i size grant => Chain.Enabled s.chains (.new i size grant)
  | .bumpBox x i V => Chain.Enabled s.chains (.bumpBox i V) ∧ s.boxes x = none
  | .chain i new => Chain.Enabled s.chains (.chain i new) ∧
      ∀ x B, s.boxes x = some B → B.chain ≠ new
  | .drop i => Chain.Enabled s.chains (.drop i) ∧ ∀ x B, s.boxes x = some B → B.chain ≠ i
  | .write x k _ | .read x k => ∃ B, s.boxes x = some B ∧ k < B.ty.size
  | .release _ => True

variable [DecidableEq I] [DecidableEq ι]

/-- What an act does with enough fuel. -/
def Ends (b : Build) (zero : β) (s : Program T I ι β) (act : Act T I ι β)
    (r : Program T I ι β × Reply β) : Prop :=
  ∃ n, ∀ fuel, n ≤ fuel → s.exec b zero fuel act = .ok (some r)

/-- The act panics, whatever the fuel. -/
def Panics (b : Build) (zero : β) (s : Program T I ι β) (act : Act T I ι β) : Prop :=
  ∃ msg, ∀ fuel, s.exec b zero fuel act = .error (.panic msg)

/-- No chains and no boxes, in a memory of any bytes. -/
def start (T : Target w) (I ι : Type) (m : Bytes β) : Program T I ι β :=
  ⟨State.empty T I, m, fun _ => none⟩

/-- All runs of a program that goes on after a panic. -/
def machine (b : Build) (zero : β) (T : Target w) (I ι : Type) [DecidableEq I] [DecidableEq ι] :
    Machine (Program T I ι β) (Act T I ι β × Reply β) where
  init s := ∃ m, s = start T I ι m
  step s l s' := s.Enabled l.1 ∧
    (Ends b zero s l.1 (s', l.2) ∨ Panics b zero s l.1 ∧ l.2 = .panicked ∧ s' = s)

end Program

/-! ## Lenders -/

/-- Chains that lend boxes, without links: which chains there are, and for every box the chain that
it borrows and its bytes. -/
structure Lender (I ι β : Type) where
  alive : Set I
  boxes : ι → Option (I × List β)

/-- What a lender does.  Whether it has memory left is not determined. -/
inductive Lender.Does [DecidableEq ι] (zero : β) (π : Lender I ι β) :
    Act T I ι β → Reply β → Lender I ι β → Prop where
  | new {i : I} {size : ℕ} {grant : Option (LinkPtr T)} : i ∉ π.alive →
      Does zero π (.new i size grant) .done { π with alive := insert i π.alive }
  | notMade {i : I} {size : ℕ} {grant : Option (LinkPtr T)} {e : RawAllocError} :
      Does zero π (.new i size grant) (.notMade e) π
  | bumpBox {x : ι} {i : I} {V : Ty w} : i ∈ π.alive → π.boxes x = none →
      Does zero π (.bumpBox x i V) .done { π with
        boxes := Function.update π.boxes x (some (i, List.replicate V.size zero)) }
  | refused {x : ι} {i : I} {V : Ty w} {failure : Failure} : i ∈ π.alive →
      Does zero π (.bumpBox x i V) (.refused failure) π
  | panicked {x : ι} {i : I} {V : Ty w} : V.size = 0 →
      Does zero π (.bumpBox x i V) .panicked π
  | chain {i new : I} : i ∈ π.alive → new ∈ π.alive → i ≠ new →
      (∀ x l, π.boxes x ≠ some (new, l)) →
      Does zero π (.chain i new) .done { π with alive := π.alive \ {new} }
  | drop {i : I} : i ∈ π.alive → (∀ x l, π.boxes x ≠ some (i, l)) →
      Does zero π (.drop i) .done { π with alive := π.alive \ {i} }
  | write {x : ι} {k : ℕ} {v : β} {i : I} {l : List β} : π.boxes x = some (i, l) →
      k < l.length → Does zero π (.write x k v) .done { π with
        boxes := Function.update π.boxes x (some (i, l.set k v)) }
  | read {x : ι} {k : ℕ} {v : β} {i : I} {l : List β} : π.boxes x = some (i, l) →
      l[k]? = some v → Does zero π (.read x k) (.saw v) π
  | release {x : ι} : Does zero π (.release x) .done { π with
      boxes := Function.update π.boxes x none }

/-- All runs of a lender. -/
def lender (zero : β) (T : Target w) (I ι : Type) [DecidableEq ι] :
    Machine (Lender I ι β) (Act T I ι β × Reply β) where
  init π := π = ⟨∅, fun _ => none⟩
  step π l π' := π.Does zero l.1 l.2 π'

/-- A program, without its links. -/
def Program.lender (s : Program T I ι β) : Lender I ι β where
  alive := {i | s.chains.roots i ≠ none}
  boxes x := (s.boxes x).map fun B => (B.chain, s.bytes.get B.ptr B.ty.size)

/-! ## The invariant -/

/-- A box lies in a link of the chain that it borrows, below the level of the link. -/
structure Within (L : I → List (LinkPtr T × ℕ)) (B : Boxed T I) (p : LinkPtr T) (n : ℕ) :
    Prop where
  link : B.link = some p
  listed : (p, n) ∈ L B.chain
  start : p.data.start ≤ B.span.start
  stop : B.span.stop ≤ p.data.start + n
  aligned : B.ty.align ∣ B.ptr

/-- The blocks of links are apart, boxes are apart and in links of their chains, and what is above
a level was not written to. -/
structure Intact (zero : β) (s : Program T I ι β) (L : I → List (LinkPtr T × ℕ)) : Prop where
  owns : Owns s.chains L
  apart : ∀ p q, s.chains.links p ≠ none → s.chains.links q ≠ none → p ≠ q →
    p.block.Apart q.block
  zeroed : ∀ i p n, (p, n) ∈ L i → ∀ k, n ≤ k → k < p.capacity →
    s.bytes (p.data.start + k) = zero
  within : ∀ x B, s.boxes x = some B → ∃ p n, Within L B p n
  disjoint : ∀ x y B B', x ≠ y → s.boxes x = some B → s.boxes y = some B' →
    Disjoint B.span.addresses B'.span.addresses

section Invariant

variable {σ τ : State T I} {s : Program T I ι β} {L L' : I → List (LinkPtr T × ℕ)} {zero : β}
  {x y : ι} {B : Boxed T I} {p q : LinkPtr T} {n m : ℕ} {i j : I}

/-- A link has one level. -/
theorem Owns.level_unique (h : Owns σ L) (hi : (p, n) ∈ L i) (hj : (p, m) ∈ L j) : n = m := by
  obtain ⟨next, hlink⟩ := h.links hi
  obtain ⟨next', hlink'⟩ := h.links hj
  exact (Link.mk.inj (Option.some.inj (hlink.symm.trans hlink'))).2

theorem Owns.level_le (h : Owns σ L) (hi : (p, n) ∈ L i) : n ≤ p.capacity := by
  obtain ⟨next, hlink⟩ := h.links hi
  exact h.levels p _ hlink

theorem Owns.on_heap (h : Owns σ L) (hi : (p, n) ∈ L i) : σ.links p ≠ none := by
  obtain ⟨next, hlink⟩ := h.links hi
  simp [hlink]

theorem intact_start (zero : β) (m : Bytes β) :
    Intact zero (Program.start T I ι m) fun _ => [] where
  owns := owns_empty
  apart _ _ hp := absurd rfl hp
  zeroed _ _ _ hmem := absurd hmem List.not_mem_nil
  within _ _ hx := absurd hx (by simp [Program.start])
  disjoint _ _ _ _ _ hx := absurd hx (by simp [Program.start])

namespace Intact

/-- A box is in the block of its link. -/
theorem span_subset (h : Intact zero s L) (hB : Within L B p n) :
    B.span.addresses ⊆ p.block.addresses := by
  refine (Span.addresses_subset hB.start (hB.stop.trans ?_)).trans p.data_subset
  exact Nat.add_le_add_left (h.owns.level_le hB.listed) _

/-- **Boxes and what is still free.**  A box shares no byte with what is above the level of a
link. -/
theorem disjoint_free (h : Intact zero s L) (hB : Within L B p n) (hq : (q, m) ∈ L j) {t : Span}
    (hstart : q.data.start + m ≤ t.start) (hstop : t.stop ≤ q.data.stop) :
    Disjoint B.span.addresses t.addresses := by
  by_cases hne : p = q
  · subst hne
    obtain rfl := h.owns.level_unique hB.listed hq
    exact Span.disjoint_of_le (.inl (hB.stop.trans hstart))
  · have happart := h.apart p q (h.owns.on_heap hB.listed) (h.owns.on_heap hq) hne
    refine happart.disjoint.mono (h.span_subset hB) ?_
    exact (Span.addresses_subset ((Nat.le_add_right _ _).trans hstart) hstop).trans q.data_subset

/-- A box shares no byte with the head of a link. -/
theorem disjoint_head (h : Intact zero s L) (hB : Within L B p n) (hq : s.chains.links q ≠ none) :
    Disjoint B.span.addresses q.head.addresses := by
  by_cases hne : p = q
  · subst hne
    exact Span.disjoint_of_le (.inr (p.head_stop.trans_le hB.start))
  · have happart := h.apart p q (h.owns.on_heap hB.listed) hq hne
    exact happart.disjoint.mono (h.span_subset hB) q.head_subset

/-- A fresh block shares no byte with a box. -/
theorem disjoint_fresh (h : Intact zero s L) (hB : Within L B p n) (hq : Fresh s.chains q) :
    Disjoint B.span.addresses q.block.addresses := by
  obtain ⟨next, hlink⟩ := h.owns.links hB.listed
  exact (hq p _ hlink).symm.disjoint.mono_left (h.span_subset hB)

/-- **No use after free.** -/
theorem access_ok (h : Intact zero s L) (hx : s.boxes x = some B) {k : ℕ} (hk : k < B.ty.size) :
    access s.chains B.link (B.ptr + k) = .ok () := by
  obtain ⟨p, n, hB⟩ := h.within x B hx
  obtain ⟨next, hlink⟩ := h.owns.links hB.listed
  have hle := h.owns.level_le hB.listed
  have hstart : p.data.start ≤ B.ptr := hB.start
  have hstop : B.ptr + B.ty.size ≤ p.data.start + n := hB.stop
  have hin : InRegion p.data (B.ptr + k) 1 := by
    refine ⟨hstart.trans (Nat.le_add_right _ _), ?_⟩
    show B.ptr + k + 1 ≤ p.data.start + p.capacity
    omega
  simp only [access, hB.link, hlink, if_pos hin]

/-- **Chains change, and no box loses its link.** -/
theorem of_chains (h : Intact zero s L) (howns : Owns τ L')
    (hlinks : ∀ p, τ.links p ≠ none → s.chains.links p ≠ none)
    (hlists : ∀ i p n, (p, n) ∈ L' i → ∃ j, (p, n) ∈ L j)
    (hkeep : ∀ x B, s.boxes x = some B → ∀ p n, (p, n) ∈ L B.chain → (p, n) ∈ L' B.chain) :
    Intact zero { s with chains := τ } L' where
  owns := howns
  apart p q hp hq := h.apart p q (hlinks p hp) (hlinks q hq)
  zeroed i p n hmem := by
    obtain ⟨j, hj⟩ := hlists i p n hmem
    exact h.zeroed j p n hj
  within x B hx := by
    obtain ⟨p, n, hB⟩ := h.within x B hx
    exact ⟨p, n, hB.link, hkeep x B hx p n hB.listed, hB.start, hB.stop, hB.aligned⟩
  disjoint := h.disjoint

/-- Bytes change that are not free. -/
theorem of_bytes (h : Intact zero s L) {m : Bytes β}
    (hfree : ∀ i p n, (p, n) ∈ L i → ∀ k, n ≤ k → k < p.capacity →
      m (p.data.start + k) = s.bytes (p.data.start + k)) :
    Intact zero { s with bytes := m } L where
  owns := h.owns
  apart := h.apart
  zeroed i p n hmem k hk hlt := (hfree i p n hmem k hk hlt).trans (h.zeroed i p n hmem k hk hlt)
  within := h.within
  disjoint := h.disjoint

end Intact

/-- What `drop` and `chain` leave of the chains. -/
structure Shrinks (σ τ : State T I) (j : I) : Prop where
  links : ∀ p, τ.links p ≠ none → σ.links p ≠ none
  roots : ∀ k, τ.roots k ≠ none ↔ k ≠ j ∧ σ.roots k ≠ none

/-- What is left of the chains, for the lender. -/
theorem lender_shrinks (h : Shrinks s.chains τ j) :
    Program.lender { s with chains := τ } =
      { s.lender with alive := s.lender.alive \ {j} } := by
  rw [Program.lender, Program.lender, Lender.mk.injEq]
  refine ⟨Set.ext fun k => (h.roots k).trans ?_, rfl⟩
  exact and_comm

/-- No box borrows a chain, also for the lender. -/
theorem no_boxes (h : ∀ x B, s.boxes x = some B → B.chain ≠ j)
    (x : ι) (l : List β) : s.lender.boxes x ≠ some (j, l) := by
  intro hx
  obtain ⟨B, hB, hpair⟩ := Option.map_eq_some_iff.mp hx
  exact h x B hB (Prod.mk.inj hpair).1

variable [DecidableEq ι]

/-- Assigning to a variable, for the lender. -/
theorem lender_assign (s : Program T I ι β) (x : ι) (o : Option (Boxed T I)) :
    (s.assign x o).lender = { s.lender with
      boxes := Function.update s.lender.boxes x
        (o.map fun B => (B.chain, s.bytes.get B.ptr B.ty.size)) } := by
  rw [Program.lender, Program.lender, Lender.mk.injEq]
  refine ⟨rfl, funext fun y => ?_⟩
  show (Function.update s.boxes x o y).map _ = _
  by_cases hy : y = x
  · rw [hy, Function.update_self, Function.update_self]
    rfl
  · rw [Function.update_of_ne hy, Function.update_of_ne hy]
    rfl

/-- **A byte of a box is written.**  No other box sees it. -/
theorem Intact.store (h : Intact zero s L) (hx : s.boxes x = some B) {k : ℕ} (hk : k < B.ty.size)
    (v : β) : Intact zero { s with bytes := s.bytes.store (B.ptr + k) v } L ∧
      Program.lender { s with bytes := s.bytes.store (B.ptr + k) v } = { s.lender with
        boxes := Function.update s.lender.boxes x
          (some (B.chain, (s.bytes.get B.ptr B.ty.size).set k v)) } := by
  obtain ⟨p, n, hB⟩ := h.within x B hx
  have hmem : B.ptr + k ∈ B.span.addresses :=
    Span.mem_addresses.mpr ⟨Nat.le_add_right _ _, Nat.add_lt_add_left hk _⟩
  have hframe : ∀ {A : Set ℕ}, Disjoint B.span.addresses A →
      Set.EqOn (s.bytes.store (B.ptr + k) v) s.bytes A :=
    fun hA => Bytes.store_eqOn (Set.disjoint_left.mp hA hmem)
  constructor
  · refine h.of_bytes fun i q m hq k' hle hlt => ?_
    have hfree := h.disjoint_free hB hq (t := ⟨q.data.start + k', 1⟩)
      (Nat.add_le_add_left hle _) (by
        show q.data.start + k' + 1 ≤ q.data.start + q.capacity
        omega)
    exact hframe hfree (Span.mem_addresses.mpr ⟨le_rfl, Nat.lt_succ_self _⟩)
  · rw [Program.lender, Program.lender, Lender.mk.injEq]
    refine ⟨rfl, funext fun y => ?_⟩
    by_cases hy : y = x
    · rw [hy, Function.update_self]
      show (s.boxes x).map _ = _
      rw [hx, Option.map_some, Bytes.get_store]
    · rw [Function.update_of_ne hy]
      show (s.boxes y).map _ = (s.boxes y).map _
      cases hB' : s.boxes y with
      | none => rfl
      | some B' =>
        exact congrArg (fun l => some (B'.chain, l))
          (Bytes.get_congr (hframe (h.disjoint x y B B' (Ne.symm hy) hx hB')))

/-- A box is gone. -/
theorem Intact.release (h : Intact zero s L) (x : ι) : Intact zero (s.assign x none) L where
  owns := h.owns
  apart := h.apart
  zeroed := h.zeroed
  within y B hy := by
    replace hy : Function.update s.boxes x none y = some B := hy
    by_cases hyx : y = x
    · rw [hyx, Function.update_self] at hy
      exact absurd hy (by simp)
    · rw [Function.update_of_ne hyx] at hy
      exact h.within y B hy
  disjoint y z B B' hne hy hz := by
    have hold : ∀ {v B}, (s.assign x none).boxes v = some B → s.boxes v = some B := by
      intro v B hv
      replace hv : Function.update s.boxes x none v = some B := hv
      by_cases hvx : v = x
      · rw [hvx, Function.update_self] at hv
        exact absurd hv (by simp)
      · rwa [Function.update_of_ne hvx] at hv
    exact h.disjoint y z B B' hne (hold hy) (hold hz)

end Invariant

/-! ## The acts -/

section Acts

/-- **What `bump_box` lends**: memory of the first link that was free. -/
theorem bumpBox_lends {b : Build} {σ : State T I} {L : I → List (LinkPtr T × ℕ)}
    (h : Owns σ L) (i : I) (V : Ty w) :
    (∃ failure, bumpBox b σ i V = .ok (σ, .error failure)) ∨
      (V.size = 0 ∧ bumpBox b σ i V = .error (.panic "layout.size() > 0")) ∨
      ∃ p n rest next, σ.root i = some p ∧ L i = (p, n) :: rest ∧ read σ p = some (next, n) ∧
        placement p.storage V.toLayout n + V.size ≤ p.capacity ∧
        bumpBox b σ i V = .ok
          (σ.setLink p ⟨next, placement p.storage V.toLayout n + V.size⟩,
            .ok (p.data.start + placement p.storage V.toLayout n)) := by
  have hlinked := h.linked i
  cases hroot : σ.root i with
  | none => exact .inl ⟨.exhausted, by rw [bumpBox, hroot]⟩
  | some p =>
    rw [hroot] at hlinked
    obtain ⟨n, next, rest, hread, hi, -⟩ := hlinked.of_some
    have hlink := links_of_read hread
    have hle : n ≤ p.storage.len := h.levels p _ hlink
    rcases Nat.eq_zero_or_pos V.size with hzero | hsize
    · refine .inr (.inl ⟨hzero, ?_⟩)
      simp only [bumpBox, hroot, hlink, Unsync.bumpBox_of_size_eq_zero hzero, error_bind]
    have hbump := Unsync.bumpBox_eq (b := b) hsize hle
    by_cases hfit : placement p.storage V.toLayout n + V.size ≤ p.storage.len
    · rw [if_pos hfit] at hbump
      refine .inr (.inr ⟨p, n, rest, next, rfl, hi, hread, hfit, ?_⟩)
      simp only [bumpBox, hroot, hlink, hbump, ok_bind]
      rfl
    · rw [if_neg hfit] at hbump
      refine .inl ⟨.exhausted, ?_⟩
      have hsame : σ.setLink p ⟨next, n⟩ = σ := by
        rw [State.setLink, ← hlink, Function.update_eq_self]
      simp only [bumpBox, hroot, hlink, hbump, ok_bind, hsame]
      rfl

variable [DecidableEq I] {b : Build} {σ τ : State T I} {s : Program T I ι β}
  {L L' : I → List (LinkPtr T × ℕ)} {zero : β} {x : ι} {B : Boxed T I} {p : LinkPtr T} {n : ℕ}
  {i j : I} {V : Ty w}

/-- What `Chain::new` makes is one list more. -/
theorem new_ok (h : Owns σ L) (hdead : σ.roots i = none) {size : ℕ} (hsize : p.capacity = size)
    (hfresh : Fresh σ p) : ∃ τ, new σ i size (some p) = (τ, .ok ()) ∧
      τ.links = Function.update σ.links p (some ⟨none, 0⟩) ∧
      τ.roots = Function.update σ.roots i (some (some p)) ∧
      Owns τ (Function.update L i [(p, 0)]) := by
  have hgrant : ∀ q ∈ some p, Fresh σ q := by
    rintro q hq
    obtain rfl := Option.some.inj hq
    exact hfresh
  obtain ⟨L', howns⟩ : ∃ L', Owns (new σ i size (some p)).1 L' := new_owns h hdead hgrant
  have hlaid : linkLayout T size = some (p.layout, p.bumpOffset) := hsize ▸ p.laidOut
  have hnew : new σ i size (some p) = (({ σ.setLink p ⟨none, 0⟩ with
      allocated := p ::ₘ σ.allocated } : State T I).setRoot i (some p), .ok ()) := by
    simp only [new, linkAlloc, hlaid]
  rw [hnew] at howns
  refine ⟨_, hnew, rfl, rfl, ?_⟩
  -- Roots and links determine the lists.
  have hlists : L' = Function.update L i [(p, 0)] := by
    funext k
    refine (howns.linked k).unique ?_
    by_cases hk : k = i
    · subst hk
      rw [Function.update_self, root_setRoot_self]
      exact .cons (read_of_links setLink_links_self) .nil
    · rw [Function.update_of_ne hk, root_setRoot_of_ne hk]
      exact linked_setLink (h.linked k)
        ((h.linked k).not_mem (by rw [read, hfresh.links_eq_none]; rfl))
  rwa [hlists] at howns

theorem Freed.shrinks {ps : List (LinkPtr T)} (h : Freed (σ.forget j) τ ps) : Shrinks σ τ j where
  links p hp := by
    rw [h.links] at hp
    split at hp
    · exact absurd rfl hp
    · exact hp
  roots k := by
    rw [h.roots]
    show Function.update σ.roots j none k ≠ none ↔ _
    by_cases hk : k = j
    · rw [hk, Function.update_self]
      exact ⟨fun hnot => absurd rfl hnot, fun hnot => absurd rfl hnot.1⟩
    · rw [Function.update_of_ne hk]
      exact ⟨fun hsome => ⟨hk, hsome⟩, And.right⟩

/-- **Chaining** consumes the argument; no other chain goes away, and no link appears. -/
theorem chain_shrinks (h : Owns σ L) (hi : σ.roots i ≠ none) (hne : j ≠ i) :
    ∃ τ, (∀ fuel, (L j).length ≤ fuel → chain fuel σ i j = .ok (some τ)) ∧ Shrinks σ τ j ∧
      Owns τ (Function.update (Function.update L j []) i ((L j).take 1 ++ L i)) := by
  obtain ⟨τ, hτ, hchained, howns⟩ := chain_ok h hi hne
  refine ⟨τ, hτ, ⟨fun p hp => ?_, fun k => ?_⟩, howns⟩
  · obtain ⟨l, hl⟩ := Option.ne_none_iff_exists'.mp hp
    obtain ⟨l', hl', -⟩ := hchained.levels p l hl
    simp [hl']
  · cases hj : L j with
    | nil =>
      have hroot : σ.root j = none := by
        cases hr : σ.root j with
        | none => rfl
        | some p =>
          have hlinked := h.linked j
          rw [hr, hj] at hlinked
          cases hlinked
      obtain ⟨τ', hτ', hfreed, -⟩ := drop_ok h j
      have hdrop := (chain_nil hi hne hroot).trans (hτ' _ le_rfl)
      obtain rfl := Option.some.inj (Except.ok.inj ((hτ _ le_rfl).symm.trans hdrop))
      exact hfreed.shrinks.roots k
    | cons kv rest =>
      obtain ⟨p, n⟩ := kv
      obtain ⟨τ', hτ', hfreed⟩ := chain_relinks hne (hj ▸ h.linked j)
      have hlength : rest.length ≤ (L j).length := by simp [hj]
      obtain rfl := Option.some.inj (Except.ok.inj
        ((hτ _ le_rfl).symm.trans (hτ' _ hlength)))
      rw [hfreed.roots]
      show Function.update (Function.update σ.roots i (some (some p))) j none k ≠ none ↔ _
      by_cases hk : k = j
      · rw [hk, Function.update_self]
        exact ⟨fun hnot => absurd rfl hnot, fun hnot => absurd rfl hnot.1⟩
      · rw [Function.update_of_ne hk]
        by_cases hki : k = i
        · rw [hki, Function.update_self]
          exact ⟨fun _ => ⟨Ne.symm hne, hi⟩, fun _ => by simp⟩
        · rw [Function.update_of_ne hki]
          exact ⟨fun hsome => ⟨hk, hsome⟩, And.right⟩

variable [DecidableEq ι]

/-- **A link is made.**  Its memory was zeroed, and no box was in it. -/
theorem Intact.make (h : Intact zero s L) (hdead : s.chains.roots i = none) {size : ℕ}
    (hsize : p.capacity = size) (hfresh : Fresh s.chains p) :
    ∃ s' L', (∀ fuel, s.exec b zero fuel (.new i size (some p)) = .ok (some (s', .done))) ∧
      Intact zero s' L' ∧ s'.lender = { s.lender with alive := insert i s.lender.alive } := by
  obtain ⟨τ, hnew, hlinks, hroots, howns⟩ := new_ok h.owns hdead hsize hfresh
  have hframe : ∀ {t : Span}, Disjoint t.addresses p.block.addresses →
      Set.EqOn (s.bytes.fill p.block.start p.block.size zero) s.bytes t.addresses :=
    fun hdisj => Bytes.fill_eqOn hdisj
  have hLi : L i = [] := by
    have hlinked := h.owns.linked i
    have hroot : s.chains.root i = none := by rw [State.root, hdead]; rfl
    rw [hroot] at hlinked
    exact hlinked.of_none
  refine ⟨{ s with chains := τ, bytes := s.bytes.fill p.block.start p.block.size zero }, _,
    fun fuel => by rw [Program.exec, hnew]; rfl, ⟨howns, ?_, ?_, ?_, h.disjoint⟩, ?_⟩
  · have hapart : ∀ q, q ≠ p → τ.links q ≠ none → p.block.Apart q.block := by
      intro q hq hne
      rw [hlinks, Function.update_of_ne hq] at hne
      obtain ⟨l, hl⟩ := Option.ne_none_iff_exists'.mp hne
      exact hfresh q l hl
    intro q r hq hr hne
    by_cases hqp : q = p
    · subst hqp
      exact hapart r (Ne.symm hne) hr
    · by_cases hrp : r = p
      · subst hrp
        exact (hapart q hqp hq).symm
      · replace hq : τ.links q ≠ none := hq
        replace hr : τ.links r ≠ none := hr
        rw [hlinks, Function.update_of_ne hqp] at hq
        rw [hlinks, Function.update_of_ne hrp] at hr
        exact h.apart q r hq hr hne
  · intro k q n hmem m hm hlt
    show s.bytes.fill p.block.start p.block.size zero (q.data.start + m) = zero
    have hdata : q.data.start + m ∈ q.data.addresses :=
      Span.mem_addresses.mpr ⟨Nat.le_add_right _ _, Nat.add_lt_add_left hlt _⟩
    by_cases hk : k = i
    · subst hk
      rw [Function.update_self, List.mem_singleton] at hmem
      obtain ⟨rfl, -⟩ := Prod.mk.inj hmem
      exact if_pos (Span.mem_addresses.mp (q.data_subset hdata))
    · rw [Function.update_of_ne hk] at hmem
      obtain ⟨next, hlink⟩ := h.owns.links hmem
      have hdisj := ((hfresh q _ hlink).symm.disjoint).mono_left q.data_subset
      rw [hframe hdisj hdata]
      exact h.zeroed k q n hmem m hm hlt
  · intro x B hx
    obtain ⟨q, n, hB⟩ := h.within x B hx
    refine ⟨q, n, hB.link, ?_, hB.start, hB.stop, hB.aligned⟩
    have hne : B.chain ≠ i := by
      rintro rfl
      exact absurd hB.listed (by simp [hLi])
    rw [Function.update_of_ne hne]
    exact hB.listed
  · rw [Program.lender, Program.lender, Lender.mk.injEq]
    constructor
    · ext k
      show τ.roots k ≠ none ↔ k = i ∨ s.chains.roots k ≠ none
      rw [hroots]
      by_cases hk : k = i
      · rw [hk, Function.update_self]
        exact ⟨fun _ => .inl rfl, fun _ => by simp⟩
      · rw [Function.update_of_ne hk]
        exact ⟨.inr, fun hor => hor.resolve_left hk⟩
    · funext x
      show (s.boxes x).map _ = (s.boxes x).map _
      cases hx : s.boxes x with
      | none => rfl
      | some B =>
        obtain ⟨q, n, hB⟩ := h.within x B hx
        exact congrArg (fun l => some (B.chain, l))
          (Bytes.get_congr (hframe (h.disjoint_fresh hB hfresh)))

/-- **A box is lent.**  It shares no byte with another one, and its bytes are zero. -/
theorem Intact.lend (h : Intact zero s L) {rest : List (LinkPtr T × ℕ)}
    {next : Option (LinkPtr T)} (hroot : s.chains.root i = some p) (hi : L i = (p, n) :: rest)
    (hread : read s.chains p = some (next, n))
    (hfit : placement p.storage V.toLayout n + V.size ≤ p.capacity) (x : ι) :
    (∃ L', Intact zero { s.assign x (some ⟨i, s.chains.root i,
        p.data.start + placement p.storage V.toLayout n, V⟩) with
      chains := s.chains.setLink p ⟨next, placement p.storage V.toLayout n + V.size⟩ } L') ∧
    Program.lender { s.assign x (some ⟨i, s.chains.root i,
        p.data.start + placement p.storage V.toLayout n, V⟩) with
      chains := s.chains.setLink p ⟨next, placement p.storage V.toLayout n + V.size⟩ } =
      { s.lender with
        boxes := Function.update s.lender.boxes x (some (i, List.replicate V.size zero)) } := by
  set o := placement p.storage V.toLayout n with ho
  have hno : n ≤ o := le_placement
  have hmem : (p, n) ∈ L i := hi ▸ List.mem_cons_self
  have howns := h.owns.setIndex hi hread hfit
  have hlinks : ∀ q, (s.chains.setLink p ⟨next, o + V.size⟩).links q ≠ none →
      s.chains.links q ≠ none := by
    intro q hq
    by_cases hqp : q = p
    · rw [hqp]
      exact h.owns.on_heap hmem
    · rwa [setLink_links_of_ne hqp] at hq
  have hnew : ∀ y B, s.boxes y = some B → Disjoint B.span.addresses
      (Span.mk (p.data.start + o) V.size).addresses := by
    intro y B hy
    obtain ⟨q, m, hB⟩ := h.within y B hy
    refine h.disjoint_free hB hmem (Nat.add_le_add_left hno _) ?_
    show p.data.start + o + V.size ≤ p.data.start + p.capacity
    omega
  refine ⟨⟨_, howns, fun q r hq hr => h.apart q r (hlinks q hq) (hlinks r hr), ?_, ?_, ?_⟩, ?_⟩
  · intro k q m hm k' hle hlt
    by_cases hk : k = i
    · subst hk
      rw [Function.update_self] at hm
      rcases List.mem_cons.mp hm with heq | hm
      · obtain ⟨rfl, rfl⟩ := Prod.mk.inj heq
        exact h.zeroed k q n hmem k' (by omega) hlt
      · exact h.zeroed k q m (hi ▸ List.mem_cons_of_mem _ hm) k' hle hlt
    · rw [Function.update_of_ne hk] at hm
      exact h.zeroed k q m hm k' hle hlt
  · intro y B hy
    replace hy : Function.update s.boxes x _ y = some B := hy
    by_cases hyx : y = x
    · rw [hyx, Function.update_self] at hy
      obtain rfl := Option.some.inj hy
      refine ⟨p, o + V.size, hroot, ?_, Nat.le_add_right _ _, ?_, ?_⟩
      · show (p, o + V.size) ∈ Function.update L i _ i
        rw [Function.update_self]
        exact List.mem_cons_self
      · exact (Nat.add_assoc _ _ _).le
      · exact dvd_placement
    · rw [Function.update_of_ne hyx] at hy
      obtain ⟨q, m, hB⟩ := h.within y B hy
      by_cases hc : B.chain = i
      · have hq := hB.listed
        rw [hc, hi] at hq
        rcases List.mem_cons.mp hq with heq | hq
        · obtain ⟨rfl, rfl⟩ := Prod.mk.inj heq
          refine ⟨q, o + V.size, hB.link, ?_, hB.start, hB.stop.trans ?_, hB.aligned⟩
          · rw [hc, Function.update_self]
            exact List.mem_cons_self
          · exact Nat.add_le_add_left (hno.trans (Nat.le_add_right _ _)) _
        · refine ⟨q, m, hB.link, ?_, hB.start, hB.stop, hB.aligned⟩
          rw [hc, Function.update_self]
          exact List.mem_cons_of_mem _ hq
      · refine ⟨q, m, hB.link, ?_, hB.start, hB.stop, hB.aligned⟩
        rw [Function.update_of_ne hc]
        exact hB.listed
  · intro y z B B' hne hy hz
    replace hy : Function.update s.boxes x _ y = some B := hy
    replace hz : Function.update s.boxes x _ z = some B' := hz
    by_cases hyx : y = x
    · rw [hyx, Function.update_self] at hy
      obtain rfl := Option.some.inj hy
      rw [Function.update_of_ne (fun heq => hne (hyx.trans heq.symm))] at hz
      exact (hnew z B' hz).symm
    · rw [Function.update_of_ne hyx] at hy
      by_cases hzx : z = x
      · rw [hzx, Function.update_self] at hz
        obtain rfl := Option.some.inj hz
        exact hnew y B hy
      · rw [Function.update_of_ne hzx] at hz
        exact h.disjoint y z B B' hne hy hz
  · have hbytes : s.bytes.get (p.data.start + o) V.size = List.replicate V.size zero := by
      refine Bytes.get_eq_replicate fun k hk => ?_
      rw [Nat.add_assoc]
      exact h.zeroed i p n hmem (o + k) (by omega) (by omega)
    refine (lender_assign s x _).trans ?_
    rw [Option.map_some, hbytes]

/-- An act ends, with every box in its link, and is one of a lender. -/
def Matched (b : Build) (zero : β) (s : Program T I ι β) (act : Act T I ι β) : Prop :=
  ∃ s' reply, Program.Ends b zero s act (s', reply) ∧ (∃ L', Intact zero s' L') ∧
    s.lender.Does zero act reply s'.lender

theorem matched_new_some (h : Intact zero s L) (hdead : s.chains.roots i = none) {size : ℕ}
    (hsize : p.capacity = size) (hfresh : Fresh s.chains p) :
    Matched b zero s (.new i size (some p)) := by
  obtain ⟨s', L', hexec, hintact, hlender⟩ := h.make hdead hsize hfresh
  refine ⟨s', .done, ⟨0, fun fuel _ => hexec fuel⟩, ⟨L', hintact⟩, ?_⟩
  rw [hlender]
  exact .new fun halive : s.chains.roots i ≠ none => halive hdead

/-- Without memory there is no chain. -/
theorem matched_new_none (h : Intact zero s L) (size : ℕ) :
    Matched b zero s (.new i size none) := by
  have hnew : ∃ e, new s.chains i size none = (s.chains, .error e) := by
    rw [new, linkAlloc]
    cases linkLayout T size with
    | none => exact ⟨_, rfl⟩
    | some layout => exact ⟨_, rfl⟩
  obtain ⟨e, hnew⟩ := hnew
  refine ⟨s, .notMade e, ⟨0, fun fuel _ => ?_⟩, ⟨L, h⟩, .notMade⟩
  rw [Program.exec, hnew]

/-- The one call that may panic. -/
theorem matched_bumpBox (h : Intact zero s L) (halive : s.chains.roots i ≠ none)
    (hx : s.boxes x = none) : Matched b zero s (.bumpBox x i V) ∨
      V.size = 0 ∧ Program.Panics b zero s (.bumpBox x i V) := by
  rcases bumpBox_lends (b := b) h.owns i V with ⟨failure, hbump⟩ | ⟨hsize, hpanic⟩ |
    ⟨p, n, rest, next, hroot, hi, hread, hfit, hbump⟩
  · refine .inl ⟨s, .refused failure, ⟨0, fun fuel _ => ?_⟩, ⟨L, h⟩, .refused halive⟩
    simp only [Program.exec, hbump, ok_bind]
    rfl
  · refine .inr ⟨hsize, "layout.size() > 0", fun fuel => ?_⟩
    simp only [Program.exec, hpanic, error_bind]
  · obtain ⟨hintact, hlender⟩ := h.lend hroot hi hread hfit x
    refine .inl ⟨_, .done, ⟨0, fun fuel _ => ?_⟩, hintact, ?_⟩
    · simp only [Program.exec, hbump, ok_bind]
      rfl
    · rw [hlender]
      exact .bumpBox halive (congrArg (Option.map _) hx)

/-- The links of `j` are put in front of those of `i`, except for the first. -/
theorem matched_chain (h : Intact zero s L) (hi : s.chains.roots i ≠ none)
    (hj : s.chains.roots j ≠ none) (hne : i ≠ j)
    (hboxes : ∀ x B, s.boxes x = some B → B.chain ≠ j) : Matched b zero s (.chain i j) := by
  obtain ⟨τ, hτ, hshrinks, howns⟩ := chain_shrinks h.owns hi (Ne.symm hne)
  refine ⟨{ s with chains := τ }, .done, ⟨(L j).length, fun fuel hfuel => ?_⟩,
    ⟨_, h.of_chains howns hshrinks.links (fun k p n hmem => ?_) fun x B hx p n hmem => ?_⟩, ?_⟩
  · simp only [Program.exec, hτ fuel hfuel, ok_bind]
    rfl
  · by_cases hk : k = i
    · rw [hk, Function.update_self] at hmem
      rcases List.mem_append.mp hmem with hmem | hmem
      · exact ⟨j, List.mem_of_mem_take hmem⟩
      · exact ⟨i, hmem⟩
    · rw [Function.update_of_ne hk] at hmem
      by_cases hkj : k = j
      · rw [hkj, Function.update_self] at hmem
        exact absurd hmem List.not_mem_nil
      · rw [Function.update_of_ne hkj] at hmem
        exact ⟨k, hmem⟩
  · by_cases hc : B.chain = i
    · rw [hc] at hmem
      rw [hc, Function.update_self]
      exact List.mem_append_right _ hmem
    · rw [Function.update_of_ne hc, Function.update_of_ne (hboxes x B hx)]
      exact hmem
  · rw [lender_shrinks hshrinks]
    exact .chain hi hj hne (no_boxes hboxes)

theorem matched_drop (h : Intact zero s L) (hi : s.chains.roots i ≠ none)
    (hboxes : ∀ x B, s.boxes x = some B → B.chain ≠ i) : Matched b zero s (.drop i) := by
  obtain ⟨τ, hτ, hfreed, howns⟩ := drop_ok h.owns i
  refine ⟨{ s with chains := τ }, .done, ⟨(L i).length, fun fuel hfuel => ?_⟩,
    ⟨_, h.of_chains howns hfreed.shrinks.links (fun k p n hmem => ?_)
      fun x B hx p n hmem => ?_⟩, ?_⟩
  · simp only [Program.exec, hτ fuel hfuel, ok_bind]
    rfl
  · by_cases hk : k = i
    · rw [hk, Function.update_self] at hmem
      exact absurd hmem List.not_mem_nil
    · rw [Function.update_of_ne hk] at hmem
      exact ⟨k, hmem⟩
  · rw [Function.update_of_ne (hboxes x B hx)]
    exact hmem
  · rw [lender_shrinks hfreed.shrinks]
    exact .drop hi (no_boxes hboxes)

theorem matched_write (h : Intact zero s L) (hx : s.boxes x = some B) {k : ℕ}
    (hk : k < B.ty.size) (v : β) : Matched b zero s (.write x k v) := by
  obtain ⟨hintact, hlender⟩ := h.store hx hk v
  refine ⟨_, .done, ⟨0, fun fuel _ => ?_⟩, ⟨L, hintact⟩, ?_⟩
  · simp only [Program.exec, hx, h.access_ok hx hk, ok_bind]
    rfl
  · rw [hlender]
    refine .write ?_ (by rwa [Bytes.get_length])
    exact congrArg (Option.map _) hx

theorem matched_read (h : Intact zero s L) (hx : s.boxes x = some B) {k : ℕ}
    (hk : k < B.ty.size) : Matched b zero s (.read x k) := by
  refine ⟨s, .saw (s.bytes (B.ptr + k)), ⟨0, fun fuel _ => ?_⟩, ⟨L, h⟩, ?_⟩
  · simp only [Program.exec, hx, h.access_ok hx hk, ok_bind]
    rfl
  · exact .read (congrArg (Option.map _) hx) (Bytes.get_at hk)

theorem matched_release (h : Intact zero s L) (x : ι) : Matched b zero s (.release x) := by
  refine ⟨s.assign x none, .done, ⟨0, fun fuel _ => rfl⟩, ⟨L, h.release x⟩, ?_⟩
  rw [lender_assign]
  exact .release

/-- **Every act** that the types allow is matched, or it asks for a box without bytes and panics. -/
theorem matched {b : Build} (h : Intact zero s L) {act : Act T I ι β} (hen : s.Enabled act) :
    Matched b zero s act ∨
      (∃ x i V, act = .bumpBox x i V ∧ V.size = 0) ∧ Program.Panics b zero s act := by
  cases act with
  | new i size grant =>
    obtain ⟨hdead, hgrant⟩ := hen
    cases grant with
    | some p =>
      obtain ⟨hsize, hfresh⟩ := hgrant p rfl
      exact .inl (matched_new_some h hdead hsize hfresh)
    | none => exact .inl (matched_new_none h size)
  | bumpBox x i V =>
    obtain ⟨halive, hx⟩ := hen
    exact (matched_bumpBox h halive hx).imp_right
      fun ⟨hsize, hpanics⟩ => ⟨⟨x, i, V, rfl, hsize⟩, hpanics⟩
  | chain i j =>
    obtain ⟨⟨hi, hj, hne⟩, hboxes⟩ := hen
    exact .inl (matched_chain h hi hj hne hboxes)
  | drop i =>
    obtain ⟨hi, hboxes⟩ := hen
    exact .inl (matched_drop h hi hboxes)
  | write x k v =>
    obtain ⟨B, hx, hk⟩ := hen
    exact .inl (matched_write h hx hk v)
  | read x k =>
    obtain ⟨B, hx, hk⟩ := hen
    exact .inl (matched_read h hx hk)
  | release x => exact .inl (matched_release h x)

end Acts

/-! ## Runs -/

section Runs

variable [DecidableEq I] [DecidableEq ι] {b : Build} {zero : β} {s s₀ : Program T I ι β}
  {act : Act T I ι β}

theorem Program.Ends.unique {r r' : Program T I ι β × Reply β} (h : Program.Ends b zero s act r)
    (h' : Program.Ends b zero s act r') : r = r' := by
  obtain ⟨n, hn⟩ := h
  obtain ⟨m, hm⟩ := h'
  have heq := (hn (max n m) (le_max_left _ _)).symm.trans (hm (max n m) (le_max_right _ _))
  exact Option.some.inj (Except.ok.inj heq)

theorem Program.Ends.not_panics {r : Program T I ι β × Reply β}
    (h : Program.Ends b zero s act r) : ¬ Program.Panics b zero s act := by
  rintro ⟨msg, hmsg⟩
  obtain ⟨n, hn⟩ := h
  exact absurd ((hn n le_rfl).symm.trans (hmsg n)) (by simp)

/-- **The simulation**: forgetting the links. -/
theorem lends_simulation (b : Build) (zero : β) :
    Simulation (Program.machine b zero T I ι) (lender zero T I ι)
      (fun s π => (∃ L, Intact zero s L) ∧ π = s.lender) where
  init := by
    rintro s ⟨m, rfl⟩
    refine ⟨_, rfl, ⟨_, intact_start zero m⟩, ?_⟩
    rw [Program.lender, Lender.mk.injEq]
    exact ⟨Set.ext fun i => ⟨False.elim, fun h => h rfl⟩, rfl⟩
  step := by
    rintro s ⟨act, reply⟩ s' _ - ⟨⟨L, h⟩, rfl⟩ ⟨hen, hstep⟩
    refine ⟨s'.lender, ?_⟩
    rcases matched (b := b) h hen with ⟨s'', reply', hends, hintact, hdoes⟩ | ⟨hzst, hpanics⟩
    · rcases hstep with hends' | ⟨hpanics, -⟩
      · obtain ⟨rfl, rfl⟩ := Prod.mk.inj (hends.unique hends')
        exact ⟨hdoes, hintact, rfl⟩
      · exact absurd hpanics hends.not_panics
    · rcases hstep with hends | ⟨-, hreply, rfl⟩
      · exact absurd hpanics hends.not_panics
      · obtain ⟨x, i, V, rfl, hsize⟩ := hzst
        obtain rfl : reply = .panicked := hreply
        exact ⟨.panicked hsize, ⟨L, h⟩, rfl⟩

/-- **A box of a chain is a memory of its own, all zero at first**, for as long as it borrows the
chain: whatever other boxes are written to, whatever is put in front of the chain, and whatever
links are freed and allocated again at the same addresses.  In every state of a run every act that
the types allow ends, or asks for a box without bytes and panics.  Every box is in a link that is on
the list of the chain it borrows, below the level of that link; no two boxes share a byte, and no
box has a byte of the pointers and headers of the links on the heap. -/
theorem boxes_lent (h₀ : (Program.machine b zero T I ι).init s₀)
    {run : List (Program T I ι β × (Act T I ι β × Reply β) × Program T I ι β)}
    (h : (Program.machine b zero T I ι).Run s₀ run s) :
    (∃ run' : List (Lender I ι β × (Act T I ι β × Reply β) × Lender I ι β),
      (lender zero T I ι).Run ⟨∅, fun _ => none⟩ run' s.lender ∧
        run'.map (fun x => x.2.1) = run.map (fun x => x.2.1)) ∧
    (∀ act, s.Enabled act → (∃ r, Program.Ends b zero s act r) ∨
      (∃ x i V, act = .bumpBox x i V ∧ V.size = 0) ∧ Program.Panics b zero s act) ∧
    (∃ L, Owns s.chains L ∧ ∀ x B, s.boxes x = some B → ∃ p n, Within L B p n) ∧
    (∀ x B p, s.boxes x = some B → s.chains.links p ≠ none →
      Disjoint B.span.addresses p.head.addresses) ∧
    ∀ x y B B', x ≠ y → s.boxes x = some B → s.boxes y = some B' →
      Disjoint B.span.addresses B'.span.addresses := by
  obtain ⟨π₀, rfl, hrep₀⟩ := (lends_simulation b zero).init s₀ h₀
  obtain ⟨π, run', hrun', hlabels, ⟨L, hintact⟩, rfl⟩ :=
    (lends_simulation b zero).run (.of_init h₀) hrep₀ h
  refine ⟨⟨run', hrun', hlabels⟩, fun act hen => ?_, ⟨L, hintact.owns, hintact.within⟩,
    fun x B p hx hp => ?_, hintact.disjoint⟩
  · exact (matched (b := b) hintact hen).imp_left fun ⟨s', reply, hends, _⟩ => ⟨_, hends⟩
  · obtain ⟨q, n, hB⟩ := hintact.within x B hx
    exact hintact.disjoint_head hB hp

end Runs

namespace sixtyFour

/-- The state after an act, if it ends with this fuel. -/
def after (s : Program sixtyFour ℕ Bool ℕ) (act : Act sixtyFour ℕ Bool ℕ) :
    Program sixtyFour ℕ Bool ℕ :=
  match s.exec .debug 0 2 act with
  | .ok (some r) => r.1
  | _ => s

/-- A chain has lent a box, which was written to. -/
def lent : Program sixtyFour ℕ Bool ℕ :=
  after (after (after (.start _ _ _ id) (.new 0 64 (some first))) (.bumpBox true 0 Ty.word))
    (.write true 3 7)

/-- A link was put in front of it, and has lent a second box. -/
def chained : Program sixtyFour ℕ Bool ℕ :=
  after (after (after lent (.new 1 64 (some second))) (.chain 0 1)) (.bumpBox false 0 Ty.word)

/-- What is read after that. -/
theorem run_chained : ∃ run, (Program.machine .debug 0 sixtyFour ℕ Bool).Run (.start _ _ _ id) run
      chained ∧
    run.map (fun x => x.2.1) = [(.new 0 64 (some first), .done),
      (.bumpBox true 0 Ty.word, .done), (.write true 3 7, .done),
      (.new 1 64 (some second), .done), (.chain 0 1, .done),
      (.bumpBox false 0 Ty.word, .done), (.read true 3, .saw 7), (.read false 3, .saw 0)] := by
  let M : Machine (Program sixtyFour ℕ Bool ℕ) _ := Program.machine .debug 0 sixtyFour ℕ Bool
  let s₀ : Program sixtyFour ℕ Bool ℕ := .start _ _ _ id
  let s₁ := after s₀ (.new 0 64 (some first))
  let s₂ := after s₁ (.bumpBox true 0 Ty.word)
  let s₃ := lent
  let s₄ := after s₃ (.new 1 64 (some second))
  let s₅ := after s₄ (.chain 0 1)
  let s₆ := chained
  have h₁ : M.step s₀ (.new 0 64 (some first), .done) s₁ := by
    refine ⟨⟨rfl, ?_⟩, .inl ⟨0, fun _ _ => rfl⟩⟩
    rintro p ⟨⟩
    exact ⟨rfl, fun q l hl => absurd hl (by simp [s₀, Program.start, State.empty])⟩
  have h₂ : M.step s₁ (.bumpBox true 0 Ty.word, .done) s₂ :=
    ⟨⟨Option.some_ne_none (some first), rfl⟩, .inl ⟨0, fun _ _ => rfl⟩⟩
  have h₃ : M.step s₂ (.write true 3 7, .done) s₃ := ⟨⟨_, rfl, by decide⟩, .inl ⟨0, fun _ _ => rfl⟩⟩
  have h₄ : M.step s₃ (.new 1 64 (some second), .done) s₄ := by
    refine ⟨⟨rfl, ?_⟩, .inl ⟨0, fun _ _ => rfl⟩⟩
    rintro p ⟨⟩
    refine ⟨rfl, fun q l hl => ?_⟩
    have hq : q = first := by
      by_contra hne
      have hnone : s₃.chains.links q = none :=
        (Function.update_of_ne hne _ _).trans (Function.update_of_ne hne _ _)
      exact absurd (hnone.symm.trans hl) (by simp)
    rw [hq]
    exact .inr (by decide)
  have h₅ : M.step s₄ (.chain 0 1, .done) s₅ := by
    refine ⟨⟨⟨Option.some_ne_none (some first), Option.some_ne_none (some second), by decide⟩, ?_⟩,
      .inl ⟨2, fun fuel hfuel => ?_⟩⟩
    · intro x B hx
      cases x with
      | true =>
        obtain rfl := Option.some.inj hx
        decide
      | false => exact absurd (show none = some B from hx) (by simp)
    · obtain ⟨n, rfl⟩ := Nat.exists_eq_add_of_le' hfuel
      rfl
  have hroot : s₅.chains.root 0 = some second := rfl
  have hlink : s₅.chains.links second = some ⟨some first, 0⟩ := rfl
  have hbump : bumpBox .debug s₅.chains 0 Ty.word =
      .ok (s₅.chains.setLink second ⟨some first, 8⟩, .ok 8216) := by
    simp only [bumpBox, hroot, hlink]
    rfl
  have h₆ : M.step s₅ (.bumpBox false 0 Ty.word, .done) s₆ := by
    refine ⟨⟨Option.some_ne_none (some second), rfl⟩, .inl ⟨0, fun _ _ => ?_⟩⟩
    show Program.exec .debug 0 _ s₅ _ = .ok (some (after s₅ _, _))
    rw [after, Program.exec, Program.exec, hbump]
    rfl
  have h₇ : M.step s₆ (.read true 3, .saw 7) s₆ := ⟨⟨_, rfl, by decide⟩, .inl ⟨0, fun _ _ => rfl⟩⟩
  have h₈ : M.step s₆ (.read false 3, .saw 0) s₆ := ⟨⟨_, rfl, by decide⟩, .inl ⟨0, fun _ _ => rfl⟩⟩
  exact ⟨_, ((((((((Machine.Run.refl s₀).tail h₁).tail h₂).tail h₃).tail h₄).tail h₅).tail
    h₆).tail h₇).tail h₈, rfl⟩

end sixtyFour

/-- A box keeps its bytes when a link is put in front, and the bytes of a box in that link are zero,
in a memory where they were not.  No byte of them is one of the first link's header. -/
theorem boxes_lent_words :
    (∃ (π : Lender ℕ Bool ℕ)
      (run' : List (Lender ℕ Bool ℕ × (Act sixtyFour ℕ Bool ℕ × Reply ℕ) × Lender ℕ Bool ℕ)),
      (lender 0 sixtyFour ℕ Bool).Run ⟨∅, fun _ => none⟩ run' π ∧
      run'.map (fun x => x.2.1) = [(.new 0 64 (some first), .done),
        (.bumpBox true 0 Ty.word, .done), (.write true 3 7, .done),
        (.new 1 64 (some second), .done), (.chain 0 1, .done),
        (.bumpBox false 0 Ty.word, .done), (.read true 3, .saw 7), (.read false 3, .saw 0)]) ∧
    ∃ B, sixtyFour.chained.boxes false = some B ∧
      Disjoint B.span.addresses first.head.addresses := by
  obtain ⟨run, hrun, hlabels⟩ := sixtyFour.run_chained
  obtain ⟨⟨run', hrun', hlabels'⟩, -, -, hhead, -⟩ := boxes_lent ⟨id, rfl⟩ hrun
  refine ⟨⟨_, run', hrun', hlabels'.trans hlabels⟩, _, rfl, hhead false _ first rfl ?_⟩
  decide

end Chain
end StaticAlloc
