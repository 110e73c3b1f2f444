import StaticAlloc.ExitStack.Model

/-!
# Last in, first out

What an exit stack promises is said about its log: the values pinned since the
arena was last reset are `pinnedSince`, and `Promised` says for each operation
which events it adds.  Popping adds the drops of exactly those values, last
pinned first, and then the reset.

The invariant `Inv σ L` ties the log to the memory through a list `L`: following
the links from `top` leads through `L`, whose reverse is `pinnedSince`, and the
slots of `L` together with the slots handed out and not yet filled are packed
into the part of the arena below the index.  The two halves need each other:
filling a slot writes to memory, and the values already pinned survive the write
because the slot lies apart from theirs.

Each operation has one lemma that says how it ends from a state with the
invariant.  That `set` always finds a slot is `Unsync.Bump.placement_zero`: the
arena is exactly as large as one `PinSlot<Mem>`, and aligned for it.
-/

namespace StaticAlloc
namespace ExitStack

open Toolkit

variable {w : ℕ} {V : Type}

/-! ## Layouts -/

section Layouts

variable {link : Ty w} (T : PinSlot link)

theorem PinSlot.value_fits : T.valueOffset + T.value.size ≤ T.ty.size := by
  obtain ⟨-, -, hsize, -, -⟩ := Layout.extend_some T.laidOut
  rw [← hsize]
  exact le_roundUp

theorem PinSlot.ty_pos (h : 0 < link.size) : 0 < T.ty.size := by
  obtain ⟨hlink, -, -, -, -⟩ := Layout.extend_some T.laidOut
  have := T.value_fits
  omega

/-- The bytes of a slot. -/
def ExitHandle.block (h : ExitHandle link) : Span := ⟨h.ptr, h.vtable.ty.size⟩

/-- The bytes of the value in a slot. -/
def ExitHandle.valueSpan (h : ExitHandle link) : Span :=
  ⟨h.ptr + h.vtable.valueOffset, h.vtable.value.size⟩

theorem ExitHandle.valueSpan_subset (h : ExitHandle link) :
    h.valueSpan.addresses ⊆ h.block.addresses := by
  have := h.vtable.value_fits
  refine Span.addresses_subset (Nat.le_add_right _ _) ?_
  show h.ptr + h.vtable.valueOffset + h.vtable.value.size ≤ h.ptr + h.vtable.ty.size
  omega

/-- The handle a slot gets when it is filled. -/
def Slot.handle (s : Slot link) : ExitHandle link := ⟨s.value, s.type⟩

end Layouts

variable {E : Setup w V}

/-! ## The promise -/

/-- One more event, seen by an observer who keeps the values pinned since the
stack was last emptied. -/
def observe (P : List (ExitHandle E.link × V)) : Event E.link V → List (ExitHandle E.link × V)
  | .pinned h v => P ++ [(h, v)]
  | .dropped _ _ => P
  | .reset => []
  | .unwound => []

/-- The values pinned since the last reset, first pinned first; a call left by
unwinding starts anew as well. -/
def pinnedSince (log : List (Event E.link V)) : List (ExitHandle E.link × V) :=
  log.foldl observe []

/-- The start of a destructor. -/
def drops (L : List (ExitHandle E.link × V)) : List (Event E.link V) :=
  L.map fun hv => .dropped hv.1 hv.2

/-- What each operation adds to the log. -/
def Promised (σ : State E) : Op E → State E → Prop
  | .slot _, τ => τ.log = σ.log
  | .abandon _, τ => τ.log = σ.log
  | .pin i v, τ => ∃ s, σ.slots[i]? = some s ∧ τ.log = σ.log ++ [.pinned s.handle v]
  | .popAll _, τ => τ.index = 0 ∧ τ.log = σ.log ++ drops (pinnedSince σ.log).reverse ++ [.reset]
  | .set _ v, τ => ∃ h, τ.log =
      σ.log ++ drops (pinnedSince σ.log).reverse ++ [.reset] ++ [.pinned h v]
  | .drop _, τ => τ.index = 0 ∧ τ.log = σ.log ++ drops (pinnedSince σ.log).reverse ++ [.reset]

theorem pinnedSince_append {log log' : List (Event E.link V)} :
    pinnedSince (log ++ log') = log'.foldl observe (pinnedSince log) := by
  rw [pinnedSince, List.foldl_append]
  rfl

theorem pinnedSince_reset {log : List (Event E.link V)} : pinnedSince (log ++ [.reset]) = [] := by
  rw [pinnedSince_append]
  rfl

theorem pinnedSince_unwound {log : List (Event E.link V)} :
    pinnedSince (log ++ [.unwound]) = [] := by
  rw [pinnedSince_append]
  rfl

theorem pinnedSince_pinned {log : List (Event E.link V)} {h : ExitHandle E.link} {v : V} :
    pinnedSince (log ++ [.pinned h v]) = pinnedSince log ++ [(h, v)] := by
  rw [pinnedSince_append]
  rfl

/-! ## Reading and writing slots -/

/-- The link and the live value behind a handle. -/
def read (m : Objects (Entry E.link V)) (h : ExitHandle E.link) :
    Option (Option (ExitHandle E.link) × V) :=
  (entryAt m h).bind fun e => e.value.map fun v => (e.link, v)

section Memory

variable {m : Objects (Entry E.link V)} {h k : ExitHandle E.link}
  {link : Option (ExitHandle E.link)} {v : V}

theorem entryAt_write {e : Entry E.link V} (he : e.type = h.vtable) :
    entryAt (writeEntry m h.ptr e) h = some e := by
  rw [entryAt, writeEntry, Objects.write_self, Option.filter_some, if_pos (decide_eq_true he)]

theorem read_write : read (writeEntry m h.ptr ⟨h.vtable, link, some v⟩) h = some (link, v) := by
  rw [read, entryAt_write rfl]
  rfl

/-- What is read through a handle is of the handle's type. -/
theorem entryAt_of_read (hread : read m h = some (link, v)) :
    entryAt m h = some ⟨h.vtable, link, some v⟩ := by
  obtain ⟨⟨type, link', value⟩, he, hv⟩ := Option.bind_eq_some_iff.mp hread
  obtain ⟨v', rfl, hpair⟩ := Option.map_eq_some_iff.mp hv
  obtain ⟨rfl, rfl⟩ := Prod.mk.inj hpair
  obtain rfl : type = h.vtable := by
    have := (Option.filter_eq_some_iff.mp he).2
    exact of_decide_eq_true this
  exact he

/-- A slot that lies apart from the one written is still there. -/
theorem read_write_apart {e : Entry E.link V} (hread : read m h = some (link, v))
    (he : e.type = k.vtable) (hapart : k.block.Apart h.block) :
    read (writeEntry m k.ptr e) h = some (link, v) := by
  have hentry := entryAt_of_read hread
  obtain ⟨hm, htype⟩ := Option.filter_eq_some_iff.mp hentry
  have hne : h.ptr ≠ k.ptr := by
    have hk : 0 < k.block.size := k.vtable.ty_pos E.link_pos
    have hh : 0 < h.block.size := h.vtable.ty_pos E.link_pos
    rcases hapart with hle | hle
    · exact Nat.ne_of_gt (Nat.lt_of_lt_of_le (Nat.lt_add_of_pos_right hk) hle)
    · exact Nat.ne_of_lt (Nat.lt_of_lt_of_le (Nat.lt_add_of_pos_right hh) hle)
  have hsize : Span.Apart ⟨k.ptr, e.size⟩ ⟨h.ptr, h.vtable.ty.size⟩ := by
    rw [Entry.size, he]
    exact hapart
  rw [read, entryAt, writeEntry, Objects.write_apart hm hne hsize, Option.filter_some, if_pos htype]
  rfl

end Memory

/-! ## The loop -/

/-- The values whose destructors a pop starts: up to the first that panics. -/
def untilPanic : List (ExitHandle E.link × V) → List (ExitHandle E.link × V)
  | [] => []
  | hv :: L => if E.panics hv.2 = true then [hv] else hv :: untilPanic L

theorem untilPanic_eq_self {L : List (ExitHandle E.link × V)}
    (hquiet : ∀ hv ∈ L, E.panics hv.2 = false) : untilPanic L = L := by
  induction L with
  | nil => rfl
  | cons hv L ih =>
    obtain ⟨hhead, htail⟩ := List.forall_mem_cons.mp hquiet
    rw [untilPanic, if_neg (by simp [hhead]), ih htail]

/-- How a pop of these values leaves its loop. -/
def loopExit (L : List (ExitHandle E.link × V)) : Exit :=
  if L.any fun hv => E.panics hv.2 then .unwinding else .returned

/-- The state once the destructor of a value has run. -/
def State.afterDrop (σ : State E) (h : ExitHandle E.link) (link : Option (ExitHandle E.link))
    (v : V) : State E :=
  { σ with
    memory := writeEntry σ.memory h.ptr ⟨h.vtable, link, none⟩
    log := σ.log ++ [.dropped h v] }

section Loop

variable {σ : State E} {h : ExitHandle E.link} {link chain : Option (ExitHandle E.link)} {v : V}
  {L : List (ExitHandle E.link × V)}

theorem dropInPlace_eq (hread : read σ.memory h = some (link, v)) :
    dropInPlace σ h = .ok (σ.afterDrop h link v, E.panics v) := by
  rw [dropInPlace, entryAt_of_read hread]
  rfl

theorem linkOf_afterDrop : linkOf (σ.afterDrop h link v) h = .ok link := by
  rw [linkOf, State.afterDrop, entryAt_write rfl]

/-- The values behind a dropped one are still linked. -/
theorem linked_afterDrop (hL : Linked (read σ.memory) chain L)
    (hapart : ∀ b ∈ L.map fun hv => hv.1.block, h.block.Apart b) :
    Linked (read (σ.afterDrop h link v).memory) chain L :=
  hL.frame fun k _ _ hmem hk =>
    read_write_apart hk rfl (hapart k.block (List.mem_map_of_mem hmem))

/-- **What the loop does.**  It starts the destructors in the order of the list,
and stops after the first that panics with nothing left in the flag. -/
theorem popLoop_eq (hL : Linked (read σ.memory) chain L)
    (hapart : (L.map fun hv => hv.1.block).Pairwise Span.Apart) :
    ∃ m, ∀ fuel, L.length ≤ fuel → popLoop fuel σ chain =
      .ok ({ σ with memory := m, log := σ.log ++ drops (untilPanic L) }, none, loopExit L) := by
  induction L generalizing σ chain with
  | nil =>
    cases hL
    refine ⟨σ.memory, fun fuel _ => ?_⟩
    rw [popLoop, drops, untilPanic, List.map_nil, List.append_nil]
    rfl
  | cons hv L ih =>
    cases hL with
    | @cons h v link L hread hrest =>
    obtain ⟨hhead, htail⟩ := List.pairwise_cons.mp hapart
    have hturn : ∀ fuel, (L.length + 1 ≤ fuel) → ∃ fuel', fuel = fuel' + 1 ∧ L.length ≤ fuel' :=
      fun fuel hfuel => ⟨fuel - 1, by omega, by omega⟩
    cases hp : E.panics v with
    | true =>
      refine ⟨(σ.afterDrop h link v).memory, fun fuel hfuel => ?_⟩
      obtain ⟨fuel, rfl, -⟩ := hturn fuel hfuel
      rw [popLoop, dropInPlace_eq hread, hp, untilPanic, if_pos hp, loopExit, List.any_cons, hp]
      rfl
    | false =>
      have hrest' : Linked (read (σ.afterDrop h link v).memory) link L :=
        linked_afterDrop hrest hhead
      obtain ⟨m, hm⟩ := ih hrest' htail
      refine ⟨m, fun fuel hfuel => ?_⟩
      obtain ⟨fuel, rfl, hfuel'⟩ := hturn fuel hfuel
      have hexit : loopExit ((h, v) :: L) = loopExit L := by
        rw [loopExit, List.any_cons, hp, Bool.false_or, loopExit]
      have hstarted : untilPanic ((h, v) :: L) = (h, v) :: untilPanic L := by
        rw [untilPanic, if_neg (by simp [hp])]
      rw [popLoop, dropInPlace_eq hread, hp]
      simp only [ok_bind, linkOf_afterDrop, hm fuel hfuel', hexit, hstarted]
      simp [State.afterDrop, drops]

end Loop

/-! ## The invariant -/

/-- The stack holds the values of `L`, last pinned first. -/
structure Inv (σ : State E) (L : List (ExitHandle E.link × V)) : Prop where
  linked : Linked (read σ.memory) σ.top L
  /-- Filled and unfilled slots lie apart, in the part of the arena handed out. -/
  packed : Packed E.memory.storage.base (E.memory.storage.base + σ.index)
    ((L.map fun hv => hv.1.block) ++ σ.slots.map fun s => s.handle.block)
  index_le : σ.index ≤ E.memory.storage.len
  pinned : pinnedSince σ.log = L.reverse

/-- The stack without its values and without slots that could be filled. -/
def State.emptied (σ : State E) (index : ℕ) (m : Objects (Entry E.link V))
    (log : List (Event E.link V)) : State E :=
  { σ with
    index := index
    top := none
    memory := m
    slots := []
    log := log }

section Operations

variable {σ τ : State E} {L : List (ExitHandle E.link × V)} {T : PinSlot E.link}
  {s : Slot E.link} {v : V} {i : ℕ}

theorem inv_emptied {index : ℕ} {m : Objects (Entry E.link V)} {log : List (Event E.link V)}
    (hindex : index ≤ E.memory.storage.len) (hlog : pinnedSince log = []) :
    Inv (σ.emptied index m log) [] where
  linked := .nil
  packed := .nil
  index_le := hindex
  pinned := hlog

theorem inv_new : Inv (new E) [] where
  linked := .nil
  packed := .nil
  index_le := Nat.zero_le _
  pinned := rfl

/-- Where `slot` finds its memory. -/
theorem slot_eq (hi : σ.index ≤ E.memory.storage.len) :
    slot σ T = .ok (
      if Bump.placement E.memory.storage T.ty.toLayout σ.index + T.ty.size
          ≤ E.memory.storage.len then
        ({ σ with
            index := Bump.placement E.memory.storage T.ty.toLayout σ.index + T.ty.size },
          some ⟨E.memory.storage.base +
            Bump.placement E.memory.storage T.ty.toLayout σ.index, T⟩)
      else (σ, none)) := by
  rw [slot, Unsync.bumpBox_eq (T.ty_pos E.link_pos) hi]
  split
  · rfl
  · rfl

/-- A fresh slot lies behind everything handed out before. -/
theorem Inv.slot (h : Inv σ L)
    (hfit : Bump.placement E.memory.storage T.ty.toLayout σ.index + T.ty.size
      ≤ E.memory.storage.len) :
    Inv { σ with
      index := Bump.placement E.memory.storage T.ty.toLayout σ.index + T.ty.size
      slots := σ.slots ++ [⟨E.memory.storage.base +
        Bump.placement E.memory.storage T.ty.toLayout σ.index, T⟩] } L where
  linked := h.linked
  packed := by
    have hle := Bump.le_placement (S := E.memory.storage) (l := T.ty.toLayout) (e := σ.index)
    refine Packed.perm ?_ (h.packed.cons (s := ⟨E.memory.storage.base +
      Bump.placement E.memory.storage T.ty.toLayout σ.index, T.ty.size⟩)
      (Nat.le_add_right _ _) (Nat.add_le_add_left hle _) (Nat.le_of_eq (Nat.add_assoc _ _ _)))
    rw [List.map_append, ← List.append_assoc]
    exact (List.perm_append_singleton _ _).symm
  index_le := hfit
  pinned := h.pinned

theorem Inv.abandon (h : Inv σ L) : Inv { σ with slots := σ.slots.eraseIdx i } L where
  linked := h.linked
  packed := h.packed.sublist
    (List.Sublist.append_left ((List.eraseIdx_sublist _ _).map _) _)
  index_le := h.index_le
  pinned := h.pinned

/-- **Filling a slot.**  The value comes to the front of the list; those pinned
before it lie apart from the slot and survive the write. -/
theorem Inv.pin (h : Inv σ L) (hs : σ.slots[i]? = some s) :
    Inv (pin { σ with slots := σ.slots.eraseIdx i } s v) ((s.handle, v) :: L) := by
  have hperm : (((L.map fun hv => hv.1.block) ++ σ.slots.map fun s => s.handle.block)).Perm
      (s.handle.block :: ((L.map fun hv => hv.1.block) ++
        (σ.slots.eraseIdx i).map fun s => s.handle.block)) := by
    obtain ⟨hi, rfl⟩ := List.getElem?_eq_some_iff.mp hs
    have hslots := (List.getElem_cons_eraseIdx_perm hi).map fun s => s.handle.block
    exact ((hslots.symm.append_left _).trans List.perm_middle)
  have hpacked := h.packed.perm hperm
  obtain ⟨hhead, -⟩ := List.pairwise_cons.mp hpacked.apart
  have hnull : Bump.nonNullNew s.value = some s.value := by
    have hlow : E.memory.storage.base ≤ s.value :=
      (hpacked.within s.handle.block List.mem_cons_self).1
    have hbase := E.memory.storage.nonnull
    exact if_neg (by omega)
  refine ⟨?_, hpacked, h.index_le, ?_⟩
  · have htop : (ExitStack.pin { σ with slots := σ.slots.eraseIdx i } s v).top
        = some s.handle :=
      congrArg (Option.map fun ptr => (⟨ptr, s.type⟩ : ExitHandle E.link)) hnull
    rw [htop]
    refine .cons (read_write (h := s.handle)) ?_
    refine h.linked.frame fun k u link hmem hk => ?_
    refine read_write_apart (k := s.handle) hk rfl (hhead k.block ?_)
    exact List.mem_append_left _ (List.mem_map_of_mem (f := fun hv => hv.1.block) hmem)
  · rw [List.reverse_cons, ← h.pinned]
    exact pinnedSince_pinned

/-- **A pop whose destructors do not panic.** -/
theorem popAll_quiet (panicking : Bool) (h : Inv σ L) (hquiet : ∀ hv ∈ L, E.panics hv.2 = false) :
    ∃ m, ∀ fuel, L.length ≤ fuel → popAll panicking fuel σ =
      .ok (σ.emptied 0 m (σ.log ++ drops L ++ [.reset]), .returned) := by
  have hapart := (List.pairwise_append.mp h.packed.apart).1
  obtain ⟨m, hm⟩ := popLoop_eq (σ := { σ with slots := [], top := none }) h.linked hapart
  have hexit : loopExit L = .returned := if_neg (by simpa using hquiet)
  have hstarted : untilPanic L = L := untilPanic_eq_self hquiet
  refine ⟨m, fun fuel hfuel => ?_⟩
  rw [popAll, innerPopAll, hm fuel hfuel, hexit, hstarted]
  cases fuel
  · rfl
  · rfl

/-- **A pop with a destructor that panics.**  What comes behind the first of
those is forgotten. -/
theorem popAll_panics (panicking : Bool) (h : Inv σ L) (hpanics : ∃ hv ∈ L, E.panics hv.2 = true) :
    ∃ m, ∀ fuel, L.length ≤ fuel → popAll panicking fuel σ = .ok (
      if panicking then (σ.emptied σ.index m (σ.log ++ drops (untilPanic L)), .aborted)
      else (σ.emptied σ.index m (σ.log ++ drops (untilPanic L) ++ [.unwound]), .unwinding)) := by
  have hapart := (List.pairwise_append.mp h.packed.apart).1
  obtain ⟨m, hm⟩ := popLoop_eq (σ := { σ with slots := [], top := none }) h.linked hapart
  have hexit : loopExit L = .unwinding := if_pos (by simpa using hpanics)
  refine ⟨m, fun fuel hfuel => ?_⟩
  rw [popAll, innerPopAll, hm fuel hfuel, hexit]
  cases fuel <;> cases panicking <;> rfl

/-- **`set` finds its slot.**  After the pop the arena is empty, and exactly as
large as the slot. -/
theorem set_quiet (panicking : Bool) (h : Inv σ L) (hquiet : ∀ hv ∈ L, E.panics hv.2 = false) :
    ∃ τ k, (∀ fuel, L.length ≤ fuel → set panicking fuel σ v = .ok (τ, .returned)) ∧
      Inv τ [(k, v)] ∧ τ.log = σ.log ++ drops L ++ [.reset] ++ [.pinned k v] := by
  obtain ⟨m, hm⟩ := popAll_quiet panicking h hquiet
  have hempty : Inv (σ.emptied 0 m (σ.log ++ drops L ++ [.reset])) [] :=
    inv_emptied (Nat.zero_le _) pinnedSince_reset
  have hfit : Bump.placement E.memory.storage E.mem.ty.toLayout 0 + E.mem.ty.size
      ≤ E.memory.storage.len := by
    rw [E.memory.placement_zero, Nat.zero_add]
    exact Nat.le_refl E.mem.ty.size
  refine ⟨_, _, fun fuel hfuel => ?_, (hempty.slot hfit).pin (i := 0) rfl, rfl⟩
  rw [set, hm fuel hfuel]
  simp only [ok_bind]
  rw [slot_eq (Nat.zero_le _), if_pos (by exact hfit)]
  rfl

/-- A `set` whose pop unwinds pins nothing; the unwinding drops the argument. -/
theorem set_panics (panicking : Bool) (h : Inv σ L) (hpanics : ∃ hv ∈ L, E.panics hv.2 = true) :
    ∃ τ, (∀ fuel, L.length ≤ fuel → set panicking fuel σ v =
      .ok (τ, if panicking || E.panics v then .aborted else .unwinding)) ∧
      (panicking = false → Inv τ []) := by
  obtain ⟨m, hm⟩ := popAll_panics panicking h hpanics
  cases panicking with
  | true =>
    refine ⟨σ.emptied σ.index m (σ.log ++ drops (untilPanic L)), fun fuel hfuel => ?_,
      fun hfalse => absurd hfalse (by decide)⟩
    rw [set, hm fuel hfuel]
    rfl
  | false =>
    refine ⟨σ.emptied σ.index m (σ.log ++ drops (untilPanic L) ++ [.unwound]),
      fun fuel hfuel => ?_, fun _ => inv_emptied h.index_le pinnedSince_unwound⟩
    rw [set, hm fuel hfuel]
    rfl

/-! ## Every operation, from every reachable state -/

theorem Ends.unique {exit exit' : Exit} {τ' : State E} {op : Op E} (h : Ends σ op τ exit)
    (h' : Ends σ op τ' exit') : τ = τ' ∧ exit = exit' := by
  obtain ⟨n, hn⟩ := h
  obtain ⟨n', hn'⟩ := h'
  have := (hn _ (le_max_left n n')).symm.trans (hn' _ (le_max_right n n'))
  exact ok_pair_inj this

/-- The operations that run destructors. -/
def Op.Pops : Op E → Prop
  | .popAll _ => True
  | .set _ _ => True
  | .drop _ => True
  | _ => False

theorem Inv.dead (h : Inv σ L) : Inv { σ with alive := false } L :=
  ⟨h.linked, h.packed, h.index_le, h.pinned⟩

/-- **One operation.**  Unless it runs a destructor that panics, an operation
returns, keeps the invariant, and keeps the promise. -/
theorem exec_quiet (h : Inv σ L) {op : Op E}
    (hquiet : op.Pops → ∀ hv ∈ L, E.panics hv.2 = false) (henabled : Enabled σ op) :
    ∃ τ L', Ends σ op τ .returned ∧ Inv τ L' ∧ Promised σ op τ := by
  have hL : (pinnedSince σ.log).reverse = L := by
    rw [h.pinned, List.reverse_reverse]
  cases op with
  | slot T =>
    by_cases hfit : Bump.placement E.memory.storage T.ty.toLayout σ.index + T.ty.size
        ≤ E.memory.storage.len
    · refine ⟨_, L, ⟨0, fun fuel _ => ?_⟩, h.slot hfit, rfl⟩
      rw [exec, slot_eq h.index_le, if_pos hfit]
      rfl
    · refine ⟨σ, L, ⟨0, fun fuel _ => ?_⟩, h, rfl⟩
      rw [exec, slot_eq h.index_le, if_neg hfit]
      rfl
  | abandon i => exact ⟨_, L, ⟨0, fun fuel _ => rfl⟩, h.abandon, rfl⟩
  | pin i v =>
    have hs := List.getElem?_eq_getElem henabled.2
    refine ⟨_, _, ⟨0, fun fuel _ => ?_⟩, h.pin hs, _, hs, rfl⟩
    rw [exec, hs]
  | popAll panicking =>
    obtain ⟨m, hm⟩ := popAll_quiet panicking h (hquiet trivial)
    refine ⟨_, [], ⟨_, hm⟩, inv_emptied (Nat.zero_le _) pinnedSince_reset, rfl, ?_⟩
    rw [hL]
    rfl
  | set panicking v =>
    obtain ⟨τ, k, hτ, hinv, hlog⟩ :=
      set_quiet panicking (v := v) h (hquiet trivial)
    refine ⟨τ, _, ⟨_, hτ⟩, hinv, k, ?_⟩
    rw [hL, hlog]
  | drop panicking =>
    obtain ⟨m, hm⟩ := popAll_quiet panicking h.dead (hquiet trivial)
    refine ⟨_, [], ⟨_, hm⟩, inv_emptied (Nat.zero_le _) pinnedSince_reset, rfl, ?_⟩
    rw [hL]
    rfl

/-- An operation that runs a destructor that panics aborts, or unwinds and leaves
an empty stack. -/
theorem exec_panics (h : Inv σ L) {op : Op E} (hpops : op.Pops)
    (hpanics : ∃ hv ∈ L, E.panics hv.2 = true) :
    ∃ τ exit, Ends σ op τ exit ∧ (exit = .aborted ∨ exit = .unwinding ∧ Inv τ []) := by
  cases op with
  | slot T => exact absurd hpops id
  | abandon i => exact absurd hpops id
  | pin i v => exact absurd hpops id
  | popAll panicking =>
    obtain ⟨m, hm⟩ := popAll_panics panicking h hpanics
    cases panicking with
    | true => exact ⟨_, _, ⟨_, hm⟩, Or.inl rfl⟩
    | false =>
      exact ⟨_, _, ⟨_, hm⟩, Or.inr ⟨rfl, inv_emptied h.index_le pinnedSince_unwound⟩⟩
  | set panicking v =>
    obtain ⟨τ, hτ, hinv⟩ := set_panics panicking (v := v) h hpanics
    refine ⟨τ, _, ⟨_, hτ⟩, ?_⟩
    cases panicking with
    | true => exact Or.inl rfl
    | false =>
      cases E.panics v with
      | true => exact Or.inl rfl
      | false => exact Or.inr ⟨rfl, hinv rfl⟩
  | drop panicking =>
    obtain ⟨m, hm⟩ := popAll_panics panicking h.dead hpanics
    cases panicking with
    | true => exact ⟨_, _, ⟨_, hm⟩, Or.inl rfl⟩
    | false =>
      exact ⟨_, _, ⟨_, hm⟩, Or.inr ⟨rfl, inv_emptied h.index_le pinnedSince_unwound⟩⟩

/-- **Every step keeps the invariant**, whether it returns or unwinds. -/
theorem inv_step {op : Op E} (h : Inv σ L) (hstep : (machine E).step σ op τ) :
    ∃ L', Inv τ L' := by
  obtain ⟨henabled, hends⟩ := hstep
  by_cases hpanics : op.Pops ∧ ∃ hv ∈ L, E.panics hv.2 = true
  · obtain ⟨τ', exit, hends', hexit⟩ := exec_panics h hpanics.1 hpanics.2
    have huniq : τ = τ' ∧ exit ≠ .aborted := by
      rcases hends with hends | hends
      · obtain ⟨rfl, rfl⟩ := hends.unique hends'
        exact ⟨rfl, by decide⟩
      · obtain ⟨rfl, rfl⟩ := hends.unique hends'
        exact ⟨rfl, by decide⟩
    obtain ⟨rfl, hne⟩ := huniq
    rcases hexit with hexit | ⟨-, hinv⟩
    · exact absurd hexit hne
    · exact ⟨[], hinv⟩
  · have hquiet : op.Pops → ∀ hv ∈ L, E.panics hv.2 = false := by
      intro hpops hv hmem
      exact Bool.eq_false_iff.mpr fun hp => hpanics ⟨hpops, hv, hmem, hp⟩
    obtain ⟨τ', L', hends', hinv, -⟩ := exec_quiet h hquiet henabled
    rcases hends with hends | hends
    · exact ⟨L', (hends.unique hends').1 ▸ hinv⟩
    · exact ⟨L', (hends.unique hends').1 ▸ hinv⟩

theorem reachable_inv (h : (machine E).Reachable σ) : ∃ L, Inv σ L := by
  refine h.invariant (I := fun σ => ∃ L, Inv σ L) ?_ ?_
  · rintro _ rfl
    exact ⟨[], inv_new⟩
  · rintro σ op τ - ⟨L, hL⟩ hstep
    exact inv_step hL hstep

/-- Values on the list have their bytes to themselves. -/
theorem Inv.disjoint (h : Inv σ L) : (pinnedSince σ.log).Pairwise fun a b =>
    Disjoint a.1.valueSpan.addresses b.1.valueSpan.addresses := by
  have hblocks := (List.pairwise_append.mp h.packed.apart).1
  rw [List.pairwise_map] at hblocks
  rw [h.pinned, List.pairwise_reverse]
  refine hblocks.imp fun hapart => ?_
  exact hapart.symm.disjoint.mono (ExitHandle.valueSpan_subset _) (ExitHandle.valueSpan_subset _)

/-- Without panics no call is left by unwinding. -/
theorem unwound_not_mem (hquiet : ∀ v, E.panics v = false) (h : (machine E).Reachable σ) :
    Event.unwound ∉ σ.log := by
  have hdrops : ∀ L : List (ExitHandle E.link × V), Event.unwound ∉ drops L := by
    intro L hmem
    obtain ⟨hv, -, heq⟩ := List.mem_map.mp hmem
    exact absurd heq (by simp)
  refine h.invariant (I := fun σ => Event.unwound ∉ σ.log) ?_ ?_
  · rintro _ rfl
    exact List.not_mem_nil
  · rintro σ op τ hσ hlog ⟨henabled, hends⟩
    obtain ⟨L, hL⟩ := reachable_inv hσ
    obtain ⟨τ', L', hends', -, hpromised⟩ := exec_quiet hL (fun _ hv _ => hquiet hv.2) henabled
    have hτ : τ = τ' := by
      rcases hends with hends | hends
      · exact (hends.unique hends').1
      · exact (hends.unique hends').1
    rw [hτ]
    cases op with
    | slot T => exact fun hmem => hlog (hpromised ▸ hmem)
    | abandon i => exact fun hmem => hlog (hpromised ▸ hmem)
    | pin i v =>
      obtain ⟨s, -, heq⟩ := hpromised
      simpa [heq] using hlog
    | popAll panicking => simpa [hpromised.2, hdrops] using hlog
    | set panicking v =>
      obtain ⟨k, heq⟩ := hpromised
      simpa [heq, hdrops] using hlog
    | drop panicking => simpa [hpromised.2, hdrops] using hlog

end Operations

/-- **An exit stack drops everything once, last pinned first, before its memory
is reused.**  In every state of every run whose destructors do not panic: no call
was left by unwinding; the values pinned since the last reset share no memory; and
whatever the user does next returns and adds to the log what is promised, so that
`pop_all`, `set` and the final drop run the destructors of exactly those values, in
the reverse order of their pins, before the arena is reset, and `set` always finds
the slot for its value. -/
theorem lifo (hquiet : ∀ v, E.panics v = false) {σ : State E} (h : (machine E).Reachable σ) :
    Event.unwound ∉ σ.log ∧
      (pinnedSince σ.log).Pairwise (fun a b =>
        Disjoint a.1.valueSpan.addresses b.1.valueSpan.addresses) ∧
      ∀ op, Enabled σ op → ∃ τ, Ends σ op τ .returned ∧ Promised σ op τ := by
  obtain ⟨L, hL⟩ := reachable_inv h
  refine ⟨unwound_not_mem hquiet h, hL.disjoint, fun op henabled => ?_⟩
  obtain ⟨τ, -, hends, -, hpromised⟩ := exec_quiet hL (fun _ hv _ => hquiet hv.2) henabled
  exact ⟨τ, hends, hpromised⟩

/-! ## A stack for one array of eight words -/

/-- Several words. -/
def words (n : ℕ) (h : 8 * n + 8 ≤ 2 ^ 63) : Ty 64 where
  size := 8 * n
  align := 8
  align_pow := Layout.isPowerOfTwo_eight
  bounded := h
  stride := ⟨n, rfl⟩

/-- A slot for one word. -/
def wordSlot : PinSlot (words 2 (by decide)) := ⟨Ty.word, _, _, rfl⟩

/-- An exit stack that has room for eight words, or for three slots of one. -/
def eightWords (panics : ℕ → Bool) : Setup 64 ℕ where
  build := .debug
  header := Ty.word
  link := words 2 (by decide)
  link_pos := by decide
  mem := ⟨words 8 (by decide), _, _, rfl⟩
  memory :=
    { addr := 4096
      nonnull := page_pos
      aligned := by decide
      fits := by decide
      applicable := rfl }
  panics := panics

/-- Two slots were taken, and filled in the other order. -/
def twoPinned : State (eightWords fun _ => false) where
  index := 48
  top := some ⟨4104, wordSlot⟩
  memory := writeEntry (writeEntry Objects.empty 4128 ⟨wordSlot, none, some 2⟩) 4104
    ⟨wordSlot, some ⟨4128, wordSlot⟩, some 1⟩
  slots := []
  alive := true
  log := [.pinned ⟨4128, wordSlot⟩ 2, .pinned ⟨4104, wordSlot⟩ 1]

/-- The same two slots, before they are filled. -/
def twoSlots : State (eightWords fun _ => false) :=
  { new _ with index := 48, slots := [⟨4104, wordSlot⟩, ⟨4128, wordSlot⟩] }

theorem reachable_twoPinned : (machine _).Reachable twoPinned := by
  have h₀ : (machine (eightWords fun _ => false)).Reachable (new _) := .of_init rfl
  have h₁ : (machine _).Reachable
      { new (eightWords fun _ => false) with index := 24, slots := [⟨4104, wordSlot⟩] } :=
    h₀.tail (l := Op.slot wordSlot) ⟨rfl, Or.inl ⟨0, fun _ _ => rfl⟩⟩
  have h₂ : (machine _).Reachable twoSlots :=
    h₁.tail (l := Op.slot wordSlot) ⟨rfl, Or.inl ⟨0, fun _ _ => rfl⟩⟩
  have h₃ : (machine _).Reachable
      (pin { twoSlots with slots := [⟨4104, wordSlot⟩] } ⟨4128, wordSlot⟩ 2) :=
    h₂.tail (l := Op.pin 1 2) ⟨⟨rfl, by decide⟩, Or.inl ⟨0, fun _ _ => rfl⟩⟩
  exact h₃.tail (l := Op.pin 0 1) ⟨⟨rfl, by decide⟩, Or.inl ⟨0, fun _ _ => rfl⟩⟩

/-- Setting the stack drops the two values, last pinned first, and pins the new
one. -/
theorem lifo_set : ∃ τ h, Ends twoPinned (.set false 3) τ .returned ∧
    τ.log = [.pinned ⟨4128, wordSlot⟩ 2, .pinned ⟨4104, wordSlot⟩ 1,
      .dropped ⟨4104, wordSlot⟩ 1, .dropped ⟨4128, wordSlot⟩ 2, .reset, .pinned h 3] := by
  obtain ⟨-, -, hnext⟩ := lifo (fun _ => rfl) reachable_twoPinned
  obtain ⟨τ, hends, h, hτ⟩ := hnext (.set false 3) rfl
  exact ⟨τ, h, hends, hτ⟩

end ExitStack
end StaticAlloc
