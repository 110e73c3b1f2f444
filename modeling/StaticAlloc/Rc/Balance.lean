import StaticAlloc.Rc.Graph

/-!
# Every handle has an owner

A box knows how many handles it has, and not where they are.  `Sound` is what holds of a program at
every time: the handles that boxes have are those in the hands of the program, in its values, on
the stack, forgotten, and in the boxes themselves, each of them once; the boxes in which a
destructor runs are those whose end is on the stack; each value that was made is in one place, or it
was dropped or taken apart; and each piece of memory is in one box or free.

An act changes one box at most.  `Became` says what became of the box, one lemma for each
operation, and `Sound.become` is the step: with what the box had before added on both sides, the
books stay level.

`handles_counted` is the result.  The counters in the memory of a box are the numbers of its handles
wherever they are, whatever the graph looks like, and no handle points to memory that has another
use.
-/

namespace StaticAlloc
namespace Rc

open Toolkit

variable {w : ℕ} {I H : Type}

/-! ## What a box has -/

theorem span_of_cast {T U : Ty w} {v : UninitView T} {u : UninitView U} (h : v.cast U = .ok u) :
    u.span = v.span := by
  by_cases hfits : fits v.ptr v.len U.toLayout
  · obtain ⟨u', hu', hspan⟩ := UninitView.cast_ok hfits
    obtain rfl := Except.ok.inj (hu'.symm.trans h)
    exact hspan
  · exact absurd ((UninitView.cast_error hfits).symm.trans h) (by simp)

/-- What is read is stored. -/
theorem RcBox.read_ok {V : Type} {x : RcBox V} {v : V} (h : x.read = .ok v) :
    x.val = .stored v := by
  rw [read] at h
  split at h
  · obtain rfl := Except.ok.inj h
    assumption
  · exact absurd h (by simp)

/-- The handles with these names. -/
def roster (i : I) (rcs weaks : Finset H) : Multiset (Handle I H) :=
  rcs.val.map (Handle.mk .rc i) + weaks.val.map (Handle.mk .weak i)

/-- The names of the handles of one kind. -/
def World.names {B : Types w} {V : Type} (W : World B H V) : HandleKind → Finset H
  | .rc => W.rcs
  | .weak => W.weaks

theorem roster_nodup (i : I) (rcs weaks : Finset H) : (roster i rcs weaks).Nodup := by
  rw [roster, Multiset.nodup_add]
  refine ⟨rcs.nodup.map fun a c h => ?_, weaks.nodup.map fun a c h => ?_, ?_⟩
  · exact (Handle.mk.inj h).2.2
  · exact (Handle.mk.inj h).2.2
  · rw [Multiset.disjoint_left]
    rintro h hr hw
    obtain ⟨a, -, rfl⟩ := Multiset.mem_map.mp hr
    obtain ⟨c, -, hc⟩ := Multiset.mem_map.mp hw
    exact absurd (Handle.mk.inj hc).1 (by simp)

section Roster

variable [DecidableEq H] {i : I} {rcs weaks : Finset H} {n : H}

theorem roster_insert_rc (hn : n ∉ rcs) :
    roster i (insert n rcs) weaks = {⟨.rc, i, n⟩} + roster i rcs weaks := by
  rw [roster, Finset.insert_val_of_notMem hn, Multiset.map_cons, ← Multiset.singleton_add,
    add_assoc]
  rfl

theorem roster_insert_weak (hn : n ∉ weaks) :
    roster i rcs (insert n weaks) = {⟨.weak, i, n⟩} + roster i rcs weaks := by
  rw [roster, Finset.insert_val_of_notMem hn, Multiset.map_cons, ← Multiset.singleton_add,
    add_left_comm]
  rfl

theorem roster_erase_rc (hn : n ∈ rcs) :
    {⟨.rc, i, n⟩} + roster i (rcs.erase n) weaks = roster i rcs weaks := by
  rw [← roster_insert_rc (Finset.notMem_erase n rcs), Finset.insert_erase hn]

theorem roster_erase_weak (hn : n ∈ weaks) :
    {⟨.weak, i, n⟩} + roster i rcs (weaks.erase n) = roster i rcs weaks := by
  rw [← roster_insert_weak (Finset.notMem_erase n weaks), Finset.insert_erase hn]

end Roster

/-- The value that is stored. -/
def Slot.ids : Slot (Val I H) → Multiset ℕ
  | .stored v => {v.id}
  | .dropping _ | .gone => 0

/-- Whether a destructor runs. -/
def Slot.marks (i : I) : Slot (Val I H) → Multiset I
  | .dropping _ => {i}
  | .stored _ | .gone => 0

/-- The destructor whose end is on the stack. -/
def Task.marks : Task I H → Multiset I
  | .finish i => {i}
  | .drop _ => 0

namespace World

variable {B : Types w} {V : Type}

/-- The handles of a box. -/
def handles (i : I) (W : World B H V) : Multiset (Handle I H) := roster i W.rcs W.weaks

theorem mem_handles {i : I} {W : World B H V} {h : Handle I H} :
    h ∈ W.handles i ↔ h.box = i ∧ h.name ∈ W.names h.kind := by
  obtain ⟨kind, box, name⟩ := h
  cases kind <;> simp [handles, roster, names, eq_comm, and_comm]

theorem countP_handles [DecidableEq I] (i : I) (W : World B H V) (kind : HandleKind) :
    (W.handles i).countP (fun h => h.kind = kind ∧ h.box = i) = (W.names kind).card := by
  rw [handles, roster, Multiset.countP_add, Multiset.countP_map, Multiset.countP_map]
  cases kind <;> simp [names]

theorem countP_handles_of_ne [DecidableEq I] {i j : I} (hji : j ≠ i) (W : World B H V)
    (kind : HandleKind) : (W.handles j).countP (fun h => h.kind = kind ∧ h.box = i) = 0 := by
  rw [Multiset.countP_eq_zero]
  rintro h hh ⟨-, hbox⟩
  exact hji ((mem_handles.mp hh).1.symm.trans hbox)

/-- The memory of a box, until it is handed back. -/
def pieces (W : World B H V) : Multiset Span :=
  match W.returned with
  | none => {W.inner.span}
  | some _ => 0

/-- A box with a handle has its memory. -/
theorem Invariant.returned_none {W : World B H V} (hW : W.Invariant) {kind : HandleKind}
    {n : H} (h : n ∈ W.names kind) : W.returned = none := by
  cases kind with
  | rc => exact (hW.settled (Or.inl ⟨n, h⟩)).2.2
  | weak => exact (hW.settled (Or.inr ⟨n, h⟩)).2.2

/-! ## What becomes of a box -/

/-- The handles and the value of a box after an operation that leaves its memory to it. -/
structure Became (W W' : World B H V) (rcs weaks : Finset H) (val : Slot V) : Prop where
  rcs : W'.rcs = rcs
  weaks : W'.weaks = weaks
  val : W'.box.val = val
  span : W'.inner.span = W.inner.span
  returned : W'.returned = W.returned

theorem Became.pieces {W W' : World B H V} {rcs weaks : Finset H} {val : Slot V}
    (h : Became W W' rcs weaks val) : W'.pieces = W.pieces := by
  rw [World.pieces, World.pieces, h.returned, h.span]

variable [DecidableEq H] {b : Build} {W W' : World B H V} {r : Reply B V} {n new : H}

theorem became_clone (h : W.clone b new = .ok (W', r)) :
    r = .done ∧ Became W W' (insert new W.rcs) W.weaks W.box.val := by
  obtain ⟨box, hbox, h⟩ := of_bind_ok h
  obtain ⟨val, -, hbox⟩ := of_bind_ok hbox
  obtain rfl := Except.ok.inj hbox
  obtain ⟨rfl, rfl⟩ := ok_pair_inj h
  exact ⟨rfl, rfl, rfl, rfl, rfl, rfl⟩

theorem became_weakClone (h : W.weakClone b new = .ok (W', r)) :
    r = .done ∧ Became W W' W.rcs (insert new W.weaks) W.box.val := by
  obtain ⟨box, hbox, h⟩ := of_bind_ok h
  obtain ⟨val, -, hbox⟩ := of_bind_ok hbox
  obtain rfl := Except.ok.inj hbox
  obtain ⟨rfl, rfl⟩ := ok_pair_inj h
  exact ⟨rfl, rfl, rfl, rfl, rfl, rfl⟩

theorem became_downgrade (h : W.downgrade b new = .ok (W', r)) :
    r = .done ∧ Became W W' W.rcs (insert new W.weaks) W.box.val :=
  became_weakClone h

theorem became_weakDrop (h : W.weakDrop b n = .ok (W', r)) :
    W'.raw = W.raw ∧ Became W W' W.rcs (W.weaks.erase n) W.box.val := by
  obtain ⟨box, hbox, h⟩ := of_bind_ok h
  obtain ⟨val, -, hbox⟩ := of_bind_ok hbox
  obtain rfl := Except.ok.inj hbox
  obtain ⟨rfl, rfl⟩ := ok_pair_inj h
  exact ⟨rfl, rfl, rfl, rfl, rfl, rfl⟩

theorem became_upgrade (h : W.upgrade b new = .ok (W', r)) :
    r = .refused ∨ r = .done ∧ Became W W' (insert new W.rcs) W.weaks W.box.val := by
  rw [upgrade] at h
  split at h
  · exact Or.inl (ok_pair_inj h).2.symm
  · exact Or.inr (became_clone h)

omit [DecidableEq H] in
theorem became_dropEnd (h : W.dropEnd = .ok (W', r)) :
    W'.raw = W.raw ∧ Became W W' W.rcs W.weaks .gone := by
  rw [dropEnd] at h
  split at h
  · obtain ⟨rfl, rfl⟩ := ok_pair_inj h
    exact ⟨rfl, rfl, rfl, rfl, rfl, rfl⟩
  · exact absurd h (by simp)

omit [DecidableEq H] in
theorem became_getMut {v : V} (h : W.getMut v = .ok (W', r)) :
    r = .refused ∨ r = .done ∧ Became W W' W.rcs W.weaks (.stored v) := by
  rw [getMut] at h
  split at h
  · obtain ⟨u, -, h⟩ := of_bind_ok h
    obtain ⟨rfl, rfl⟩ := ok_pair_inj h
    exact Or.inr ⟨rfl, rfl, rfl, rfl, rfl, rfl⟩
  · exact Or.inl (ok_pair_inj h).2.symm

theorem became_tryUnwrap (h : W.tryUnwrap b n new = .ok (W', r)) :
    r = .refused ∨ ∃ v, W.box.val = .stored v ∧ r = .value v ∧
      Became W W' (W.rcs.erase n) (insert new W.weaks) .gone := by
  rw [tryUnwrap] at h
  split at h
  · exact Or.inl (ok_pair_inj h).2.symm
  · obtain ⟨box, hbox, h⟩ := of_bind_ok h
    obtain ⟨val, -, hbox⟩ := of_bind_ok hbox
    obtain rfl := Except.ok.inj hbox
    obtain ⟨v, hv, h⟩ := of_bind_ok h
    obtain ⟨rfl, rfl⟩ := ok_pair_inj h
    exact Or.inr ⟨v, RcBox.read_ok hv, rfl, rfl, rfl, rfl, rfl, rfl⟩

theorem became_intoRaw (h : W.intoRaw n = .ok (W', r)) :
    r = .refused ∨ ∃ init, r = .raw init ∧ Became W W' (W.rcs.erase n) W.weaks W.box.val := by
  rw [intoRaw] at h
  split at h
  · exact Or.inl (ok_pair_inj h).2.symm
  · obtain ⟨init, -, h⟩ := of_bind_ok h
    obtain ⟨rfl, rfl⟩ := ok_pair_inj h
    exact Or.inr ⟨init, rfl, rfl, rfl, rfl, rfl, rfl⟩

/-- The last `Rc` starts the destructor, the others leave the value as it is. -/
theorem became_drop (h : W.drop b n = .ok (W', r)) :
    W'.raw = W.raw ∧
      ((∃ v, W.box.val = .stored v ∧ Became W W' (W.rcs.erase n) W.weaks (.dropping v)) ∨
        Became W W' (W.rcs.erase n) W.weaks W.box.val) := by
  obtain ⟨box, hbox, h⟩ := of_bind_ok h
  obtain ⟨val, -, hbox⟩ := of_bind_ok hbox
  obtain rfl := Except.ok.inj hbox
  split at h
  · obtain ⟨box, hbox, h⟩ := of_bind_ok h
    obtain ⟨val', -, hbox⟩ := of_bind_ok hbox
    obtain rfl := Except.ok.inj hbox
    obtain ⟨v, hv, h⟩ := of_bind_ok h
    obtain ⟨rfl, rfl⟩ := ok_pair_inj h
    exact ⟨rfl, Or.inl ⟨v, RcBox.read_ok hv, rfl, rfl, rfl, rfl, rfl⟩⟩
  · obtain ⟨rfl, rfl⟩ := ok_pair_inj h
    exact ⟨rfl, Or.inr ⟨rfl, rfl, rfl, rfl, rfl⟩⟩

theorem became_fromRaw (hW : W.Invariant) {v : V} (h : W.fromRaw b v new = .ok (W', r)) :
    Became W W' (insert new W.rcs) W.weaks (.stored v) := by
  rw [fromRaw] at h
  split at h
  · exact absurd h (by simp)
  · rename_i init hinit
    obtain ⟨-, -, h⟩ := of_bind_ok h
    obtain ⟨inner, hinner, h⟩ := of_bind_ok h
    obtain ⟨rfl, rfl⟩ := ok_pair_inj h
    refine ⟨rfl, rfl, rfl, ?_, rfl⟩
    exact (span_of_cast (of_unwrapOk hinner)).trans (hW.raw_span init hinit)

/-- `Weak::try_unwrap` gives up the memory with the handle. -/
theorem became_weakTryUnwrap (h : W.weakTryUnwrap b n = .ok (W', r)) :
    r = .refused ∨ ∃ mem, r = .memory mem ∧ mem.span = W.inner.span ∧ W'.rcs = W.rcs ∧
      W'.weaks = W.weaks.erase n ∧ W'.box.val = W.box.val ∧ W'.returned = some mem := by
  rw [weakTryUnwrap] at h
  split at h
  · exact Or.inl (ok_pair_inj h).2.symm
  · obtain ⟨box, hbox, h⟩ := of_bind_ok h
    obtain ⟨val, -, hbox⟩ := of_bind_ok hbox
    obtain rfl := Except.ok.inj hbox
    obtain ⟨rfl, rfl⟩ := ok_pair_inj h
    exact Or.inr ⟨_, rfl, rfl, rfl, rfl, rfl, rfl⟩

end World

@[simp] theorem holdings_drops (v : Val I H) :
    holdings Task.handles (v.drops : Multiset (Task I H)) = v.handles := by
  rw [Val.drops, Val.handles]
  induction v.fields with
  | nil => rfl
  | cons h fields ih =>
    rw [List.map_cons, ← Multiset.cons_coe, holdings_cons, ih, ← Multiset.cons_coe]
    exact Multiset.singleton_add h _

@[simp] theorem marks_drops (v : Val I H) :
    holdings Task.marks (v.drops : Multiset (Task I H)) = 0 := by
  rw [Val.drops]
  induction v.fields with
  | nil => rfl
  | cons h fields ih =>
    rw [List.map_cons, ← Multiset.cons_coe, holdings_cons, ih]
    rfl

/-! ## The books of a program -/

theorem exists_rest {α : Type} [DecidableEq α] {a : α} {s : Multiset α} (ha : a ∈ s) :
    ∃ rest, s.erase a = rest ∧ s = {a} + rest :=
  ⟨_, rfl, by rw [Multiset.singleton_add, Multiset.cons_erase ha]⟩

theorem exists_rest_getElem {α : Type} {l : List α} {k : ℕ} {a : α} (h : l[k]? = some a) :
    (l : Multiset α) = {a} + (l.eraseIdx k : Multiset α) := by
  obtain ⟨hk, rfl⟩ := List.getElem?_eq_some_iff.mp h
  exact (Multiset.coe_eq_coe.mpr (List.getElem_cons_eraseIdx_perm hk)).symm

namespace Graph

variable {B : I → Types w} {σ τ : Graph B H} {i : I}

/-- **The invariant.**  Boxes count their handles, and what there is has one owner. -/
structure Sound (σ : Graph B H) (total : Multiset Span) : Prop where
  world : ∀ i ∈ σ.boxes, (σ.world i).Invariant
  idle : ∀ i ∈ σ.boxes, (σ.world i).returned ≠ none → (σ.world i).box.val = .gone
  /-- the handles of the boxes, and where they are -/
  handles : Level σ.boxes σ.world (fun _ W => W.box.val.handles) (fun i W => W.handles i)
    σ.outside 0
  /-- the values that were made, and where they are -/
  values : Level σ.boxes σ.world (fun _ W => W.box.val.ids) (fun _ _ => 0)
    ((σ.values : Multiset (Val I H)).map Val.id + σ.dropped + σ.apart) σ.made
  /-- the destructors that run, and their ends -/
  ends : Level σ.boxes σ.world (fun i W => W.box.val.marks i) (fun _ _ => 0)
    0 (holdings Task.marks (σ.stack : Multiset (Task I H)))
  /-- the memory -/
  memory : Level σ.boxes σ.world (fun _ W => W.pieces) (fun _ _ => 0)
    ((σ.free : Multiset (UninitView (Ty.unit w))).map UninitView.span) total

variable {total : Multiset Span}

/-- A program begins with memory and nothing else. -/
theorem sound_start (world : (i : I) → World (B i) H (Val I H))
    (free : List (UninitView (Ty.unit w))) :
    (start world free).Sound ((free : Multiset (UninitView (Ty.unit w))).map UninitView.span) where
  world i hi := absurd hi (Finset.notMem_empty i)
  idle i hi := absurd hi (Finset.notMem_empty i)
  handles := by simp [Level, outside, start]
  values := by simp [Level, start]
  ends := by simp [Level, start]
  memory := by simp [Level, start]

namespace Sound

variable (hσ : σ.Sound total)

include hσ

/-! ### What the owner of a handle relies on -/

/-- The handles of the boxes are those that are somewhere. -/
theorem handles_eq : σ.outside + σ.inside = ∑ i ∈ σ.boxes, (σ.world i).handles i := by
  have h := hσ.handles
  rw [Level, zero_add] at h
  exact h

/-- A handle that is anywhere is a handle of a box. -/
theorem of_handle {h : Handle I H} (hh : h ∈ σ.outside + σ.inside) :
    h.box ∈ σ.boxes ∧ h.name ∈ (σ.world h.box).names h.kind := by
  rw [hσ.handles_eq] at hh
  obtain ⟨i, hi, hmem⟩ := Multiset.mem_sum.mp hh
  obtain ⟨rfl, hname⟩ := World.mem_handles.mp hmem
  exact ⟨hi, hname⟩

/-- The end of a destructor is on the stack for a box in which one runs. -/
theorem of_finish (hi : .finish i ∈ σ.stack) :
    i ∈ σ.boxes ∧ ∃ v, (σ.world i).box.val = .dropping v := by
  have h := hσ.ends
  rw [Level, Finset.sum_const_zero, zero_add, add_zero] at h
  have hmem : i ∈ holdings Task.marks (σ.stack : Multiset (Task I H)) :=
    mem_holdings.mpr ⟨.finish i, hi, Multiset.mem_singleton_self i⟩
  rw [← h] at hmem
  obtain ⟨j, hj, hmark⟩ := Multiset.mem_sum.mp hmem
  cases hv : (σ.world j).box.val with
  | dropping v =>
    rw [hv] at hmark
    obtain rfl := Multiset.mem_singleton.mp hmark
    exact ⟨hj, v, hv⟩
  | stored v =>
    rw [hv] at hmark
    exact absurd hmark (Multiset.notMem_zero i)
  | gone =>
    rw [hv] at hmark
    exact absurd hmark (Multiset.notMem_zero i)

/-- What an `Rc` that is anywhere says of its box. -/
theorem rc_live {n : H} (hh : (⟨.rc, i, n⟩ : Handle I H) ∈ σ.outside + σ.inside) :
    i ∈ σ.boxes ∧ (σ.world i).Invariant ∧ n ∈ (σ.world i).rcs ∧
      (σ.world i).returned = none ∧ ∃ v, (σ.world i).box.val = .stored v := by
  obtain ⟨hi, hn⟩ := hσ.of_handle hh
  have hW := hσ.world i hi
  obtain ⟨v, hv, -⟩ := hW.stored_of_rc hn
  exact ⟨hi, hW, hn, (hW.settled (Or.inl ⟨n, hn⟩)).2.2, v, hv⟩

/-- What a `Weak` that is anywhere says of its box. -/
theorem weak_live {n : H} (hh : (⟨.weak, i, n⟩ : Handle I H) ∈ σ.outside + σ.inside) :
    i ∈ σ.boxes ∧ (σ.world i).Invariant ∧ n ∈ (σ.world i).weaks ∧
      (σ.world i).returned = none := by
  obtain ⟨hi, hn⟩ := hσ.of_handle hh
  have hW := hσ.world i hi
  exact ⟨hi, hW, hn, (hW.settled (Or.inr ⟨n, hn⟩)).2.2⟩

/-- Between `into_raw` and `from_raw` the value is in its box. -/
theorem raw_live (hi : i ∈ σ.boxes) (hraw : (σ.world i).raw ≠ none) :
    (σ.world i).rcs = ∅ ∧ (σ.world i).returned = none ∧
      ∃ v, (σ.world i).box.val = .stored v := by
  have hW := hσ.world i hi
  have hone := (hW.raw_unique hraw).1
  have hpending : (σ.world i).pending = 1 := if_pos (Option.isSome_iff_ne_none.mpr hraw)
  have hstrong := hW.strong_eq
  obtain ⟨v, hv, -⟩ := hW.val.stored (by omega)
  refine ⟨Finset.card_eq_zero.mp (by omega), ?_, v, hv⟩
  by_contra hret
  have hlast := hW.returned_last hret
  omega

omit hσ in
theorem mem_of_hands {h : Handle I H} (hh : h ∈ σ.hands) : h ∈ σ.outside + σ.inside := by
  simp only [outside, Multiset.mem_add]
  tauto

omit hσ in
theorem mem_of_stack {h : Handle I H} (hh : .drop h ∈ σ.stack) : h ∈ σ.outside + σ.inside := by
  have hmem : h ∈ holdings Task.handles (σ.stack : Multiset (Task I H)) :=
    mem_holdings.mpr ⟨.drop h, hh, Multiset.mem_singleton_self h⟩
  simp only [outside, Multiset.mem_add]
  tauto

/-! ### Steps -/

/-- Something outside of the boxes goes from one owner to another. -/
theorem move (hboxes : τ.boxes = σ.boxes) (hworld : τ.world = σ.world) (hfree : τ.free = σ.free)
    (hout : τ.outside = σ.outside)
    (hval : ((τ.values : Multiset (Val I H)).map Val.id + τ.dropped + τ.apart) + σ.made =
      τ.made + ((σ.values : Multiset (Val I H)).map Val.id + σ.dropped + σ.apart))
    (hmarks : holdings Task.marks (τ.stack : Multiset (Task I H)) =
      holdings Task.marks (σ.stack : Multiset (Task I H))) : τ.Sound total := by
  refine ⟨?_, ?_, ?_, ?_, ?_, ?_⟩
  · rw [hboxes, hworld]
    exact hσ.world
  · rw [hboxes, hworld]
    exact hσ.idle
  · rw [hboxes, hworld]
    exact hσ.handles.move (by rw [hout, add_comm])
  · rw [hboxes, hworld]
    exact hσ.values.move hval
  · rw [hboxes, hworld, hmarks]
    exact hσ.ends
  · rw [hboxes, hworld, hfree]
    exact hσ.memory

variable [DecidableEq I]

/-- One box changes, or is new. -/
theorem change {W : World (B i) H (Val I H)} (hW : W.Invariant)
    (hidle : W.returned ≠ none → W.box.val = .gone) (hboxes : τ.boxes = insert i σ.boxes)
    (hworld : τ.world = Function.update σ.world i W)
    (hout : τ.outside + W.box.val.handles +
        (if i ∈ σ.boxes then (σ.world i).handles i else 0) =
      W.handles i + (σ.outside + if i ∈ σ.boxes then (σ.world i).box.val.handles else 0))
    (hval : ((τ.values : Multiset (Val I H)).map Val.id + τ.dropped + τ.apart) + W.box.val.ids +
        σ.made =
      τ.made + (((σ.values : Multiset (Val I H)).map Val.id + σ.dropped + σ.apart) +
        if i ∈ σ.boxes then (σ.world i).box.val.ids else 0))
    (hends : W.box.val.marks i + holdings Task.marks (σ.stack : Multiset (Task I H)) =
      holdings Task.marks (τ.stack : Multiset (Task I H)) +
        if i ∈ σ.boxes then (σ.world i).box.val.marks i else 0)
    (hmem : (τ.free : Multiset (UninitView (Ty.unit w))).map UninitView.span + W.pieces =
      (σ.free : Multiset (UninitView (Ty.unit w))).map UninitView.span +
        if i ∈ σ.boxes then (σ.world i).pieces else 0) : τ.Sound total := by
  have hother : ∀ P : (j : I) → World (B j) H (Val I H) → Prop, P i W →
      (∀ j ∈ σ.boxes, P j (σ.world j)) → ∀ j ∈ τ.boxes, P j (τ.world j) := by
    intro P hP hall
    rw [hboxes, hworld]
    exact (Function.forall_update_iff σ.world (p := fun j W => j ∈ insert i σ.boxes → P j W)).mpr
      ⟨fun _ => hP, fun j hji hj => hall j (Finset.mem_of_mem_insert_of_ne hj hji)⟩
  refine ⟨?_, ?_, ?_, ?_, ?_, ?_⟩
  · exact hother (fun _ W => W.Invariant) hW hσ.world
  · exact hother (fun _ W => W.returned ≠ none → W.box.val = .gone) hidle hσ.idle
  all_goals rw [hboxes, hworld]
  · refine hσ.handles.update ?_
    rw [zero_add, zero_add]
    exact hout
  · refine hσ.values.update ?_
    rw [ite_self, add_zero, add_zero]
    exact hval
  · refine hσ.ends.update ?_
    rw [ite_self, add_zero, add_zero, zero_add, zero_add]
    exact hends
  · refine hσ.memory.update ?_
    rw [ite_self, add_zero, hmem, add_comm]

/-- One box changes, and keeps its memory. -/
theorem become {W : World (B i) H (Val I H)} {rcs weaks : Finset H} {val : Slot (Val I H)}
    (hi : i ∈ σ.boxes) (hret : (σ.world i).returned = none) (hW : W.Invariant)
    (hB : World.Became (σ.world i) W rcs weaks val) (hboxes : τ.boxes = σ.boxes)
    (hworld : τ.world = Function.update σ.world i W) (hfree : τ.free = σ.free)
    (hout : τ.outside + val.handles + roster i (σ.world i).rcs (σ.world i).weaks =
      roster i rcs weaks + (σ.outside + (σ.world i).box.val.handles))
    (hval : ((τ.values : Multiset (Val I H)).map Val.id + τ.dropped + τ.apart) + val.ids + σ.made =
      τ.made + (((σ.values : Multiset (Val I H)).map Val.id + σ.dropped + σ.apart) +
        (σ.world i).box.val.ids))
    (hends : val.marks i + holdings Task.marks (σ.stack : Multiset (Task I H)) =
      holdings Task.marks (τ.stack : Multiset (Task I H)) + (σ.world i).box.val.marks i) :
    τ.Sound total := by
  refine hσ.change (W := W) hW ?_ (hboxes.trans (Finset.insert_eq_of_mem hi).symm) hworld ?_ ?_ ?_
    ?_
  · intro hne
    exact absurd (hB.returned.trans hret) hne
  · rw [if_pos hi, if_pos hi, hB.val, World.handles, World.handles, hB.rcs, hB.weaks]
    exact hout
  · rw [if_pos hi, hB.val]
    exact hval
  · rw [if_pos hi, hB.val]
    exact hends
  · rw [if_pos hi, hfree, hB.pieces]

variable {W : World (B i) H (Val I H)} {rcs weaks : Finset H} {val : Slot (Val I H)}

/-- One box changes, and keeps its memory and its value. -/
theorem keep {hands : Multiset (Handle I H)} {stack : List (Task I H)} (hi : i ∈ σ.boxes)
    (hret : (σ.world i).returned = none) (hW : W.Invariant)
    (hB : World.Became (σ.world i) W rcs weaks (σ.world i).box.val)
    (hmarks : holdings Task.marks (stack : Multiset (Task I H)) =
      holdings Task.marks (σ.stack : Multiset (Task I H)))
    (hout : hands + holdings Task.handles (stack : Multiset (Task I H)) +
        roster i (σ.world i).rcs (σ.world i).weaks =
      roster i rcs weaks +
        (σ.hands + holdings Task.handles (σ.stack : Multiset (Task I H)))) :
    Sound { σ.setWorld i W with hands := hands, stack := stack } total := by
  refine hσ.become (W := W) hi hret hW hB rfl rfl rfl ?_ (add_comm _ _) ?_
  · have hvalue := congrArg (· + (holdings Val.handles (σ.values : Multiset (Val I H)) +
      σ.forgotten + (σ.world i).box.val.handles)) hout
    simp only [outside, setWorld]
    calc
      _ = _ := by abel
      _ = _ := hvalue
      _ = _ := by abel
  · show _ = holdings Task.marks (stack : Multiset (Task I H)) + _
    rw [hmarks, add_comm]

/-- The program gets a new handle of a box. -/
theorem gain {kind : HandleKind} {n : H} (hi : i ∈ σ.boxes)
    (hret : (σ.world i).returned = none) (hW : W.Invariant)
    (hB : World.Became (σ.world i) W rcs weaks (σ.world i).box.val)
    (hnew : roster i rcs weaks =
      {⟨kind, i, n⟩} + roster i (σ.world i).rcs (σ.world i).weaks) :
    Sound { σ.setWorld i W with hands := ⟨kind, i, n⟩ ::ₘ σ.hands } total := by
  refine hσ.keep hi hret hW hB rfl ?_
  simp only [setWorld, hnew, ← Multiset.singleton_add]
  abel

/-- A handle of the program is gone. -/
theorem lose [DecidableEq H] {kind : HandleKind} {n : H} (hh : ⟨kind, i, n⟩ ∈ σ.hands)
    (hi : i ∈ σ.boxes) (hret : (σ.world i).returned = none) (hW : W.Invariant)
    (hB : World.Became (σ.world i) W rcs weaks (σ.world i).box.val)
    (hold : {⟨kind, i, n⟩} + roster i rcs weaks =
      roster i (σ.world i).rcs (σ.world i).weaks) :
    Sound { σ.setWorld i W with hands := σ.hands.erase ⟨kind, i, n⟩ } total := by
  obtain ⟨rest, herase, hhands⟩ := exists_rest hh
  refine hσ.keep hi hret hW hB rfl ?_
  rw [herase, hhands, ← hold]
  simp only [setWorld]
  abel

/-- The value of a box moves out, and an `Rc` becomes a `Weak`. -/
theorem unwrap [DecidableEq H] {n new : H} {v : Val I H} (hh : ⟨.rc, i, n⟩ ∈ σ.hands)
    (hi : i ∈ σ.boxes) (hret : (σ.world i).returned = none) (hW : W.Invariant)
    (hB : World.Became (σ.world i) W ((σ.world i).rcs.erase n) (insert new (σ.world i).weaks) .gone)
    (hv : (σ.world i).box.val = .stored v) (hn : n ∈ (σ.world i).rcs)
    (hnew : new ∉ (σ.world i).weaks) :
    Sound { σ.setWorld i W with
      hands := ⟨.weak, i, new⟩ ::ₘ σ.hands.erase ⟨.rc, i, n⟩, values := v :: σ.values } total := by
  obtain ⟨rest, herase, hhands⟩ := exists_rest hh
  refine hσ.become (W := W) hi hret hW hB rfl rfl rfl ?_ ?_ ?_
  · rw [hv, ← roster_erase_rc hn, roster_insert_weak hnew]
    simp only [outside, setWorld, ← Multiset.cons_coe, holdings_cons, Slot.handles]
    rw [herase, hhands, ← Multiset.singleton_add]
    abel
  · rw [hv]
    simp only [setWorld, ← Multiset.cons_coe, Multiset.map_cons, Slot.ids]
    simp only [← Multiset.singleton_add]
    abel
  · rw [hv]
    exact add_comm _ _

/-- The memory of a box is handed back through its last handle. -/
theorem handBack [DecidableEq H] {n : H} {memory : UninitView (Ty.unit w)}
    (hh : ⟨.weak, i, n⟩ ∈ σ.hands) (hi : i ∈ σ.boxes) (hret : (σ.world i).returned = none)
    (hW : W.Invariant) (hspan : memory.span = (σ.world i).inner.span)
    (hrcs : W.rcs = (σ.world i).rcs) (hweaks : W.weaks = (σ.world i).weaks.erase n)
    (hval : W.box.val = (σ.world i).box.val) (hlast : W.returned = some memory)
    (hgone : (σ.world i).box.val = .gone) (hn : n ∈ (σ.world i).weaks) :
    Sound { σ.setWorld i W with
      hands := σ.hands.erase ⟨.weak, i, n⟩, free := memory :: σ.free } total := by
  obtain ⟨rest, herase, hhands⟩ := exists_rest hh
  refine hσ.change (W := W) hW (fun _ => hval.trans hgone) (Finset.insert_eq_of_mem hi).symm
    rfl ?_ ?_ ?_ ?_
  · rw [if_pos hi, if_pos hi, hval, World.handles, World.handles, hrcs, hweaks,
      ← roster_erase_weak hn]
    simp only [outside, setWorld]
    rw [herase, hhands]
    abel
  · rw [if_pos hi, hval]
    exact add_comm _ _
  · rw [if_pos hi, hval]
    exact add_comm _ _
  · rw [if_pos hi, World.pieces, World.pieces, hlast, hret]
    simp only [← Multiset.cons_coe, Multiset.map_cons, hspan]
    rw [← Multiset.singleton_add, add_zero, add_comm]

/-- A handle on the stack is gone. -/
theorem spend {kind : HandleKind} {n : H} {rest : List (Task I H)}
    (hs : σ.stack = .drop ⟨kind, i, n⟩ :: rest) (hi : i ∈ σ.boxes)
    (hret : (σ.world i).returned = none) (hW : W.Invariant)
    (hB : World.Became (σ.world i) W rcs weaks (σ.world i).box.val)
    (hold : {⟨kind, i, n⟩} + roster i rcs weaks =
      roster i (σ.world i).rcs (σ.world i).weaks) :
    Sound { σ.setWorld i W with stack := rest } total := by
  refine hσ.keep hi hret hW hB ?_ ?_
  · rw [hs, ← Multiset.cons_coe, holdings_cons]
    exact (zero_add _).symm
  · rw [← hold, hs, ← Multiset.cons_coe, holdings_cons]
    simp only [setWorld, Task.handles]
    abel

/-- The value of a box is replaced by one the program has, which then has the old one. -/
theorem swap {k : ℕ} {u v : Val I H} (hi : i ∈ σ.boxes)
    (hret : (σ.world i).returned = none) (hW : W.Invariant)
    (hB : World.Became (σ.world i) W (σ.world i).rcs (σ.world i).weaks (.stored v))
    (hu : (σ.world i).box.val = .stored u) (hk : σ.values[k]? = some v) :
    Sound { σ.setWorld i W with values := u :: σ.values.eraseIdx k } total := by
  have hvalues := exists_rest_getElem hk
  refine hσ.become (W := W) hi hret hW hB rfl rfl rfl ?_ ?_ ?_
  · rw [hu]
    simp only [outside, setWorld, hvalues, ← Multiset.cons_coe, holdings_cons, holdings_add,
      holdings_singleton, Slot.handles]
    abel
  · rw [hu]
    simp only [setWorld, hvalues, ← Multiset.cons_coe, Multiset.map_cons, Multiset.map_add,
      Multiset.map_singleton, Slot.ids]
    simp only [← Multiset.singleton_add]
    abel
  · rw [hu]
    exact add_comm _ _

end Sound

/-! ### The acts, one at a time -/

/-- An act is granted and leaves the books in order, or it is refused and changes nothing. -/
def Kept (σ : Graph B H) (total : Multiset Span) (x : Except Stop (Graph B H × Bool)) : Prop :=
  ∃ τ granted, x = .ok (τ, granted) ∧ τ.Sound total ∧ (granted = false → τ = σ)

theorem Kept.granted (hτ : τ.Sound total) : Kept σ total (.ok (τ, true)) :=
  ⟨τ, true, rfl, hτ, fun h => absurd h (by simp)⟩

theorem Kept.refused (hσ : σ.Sound total) : Kept σ total (.ok (σ, false)) :=
  ⟨σ, false, rfl, hσ, fun _ => rfl⟩

variable [DecidableEq I] [DecidableEq H] (b : Build) (hσ : σ.Sound total)

include hσ

theorem kept_make {id : ℕ} {fields : List (Handle I H)} (hen : σ.Enabled (.make id fields)) :
    Kept σ total (σ.exec b (.make id fields)) := by
  obtain ⟨rest, hrest⟩ := Multiset.le_iff_exists_add.mp hen
  refine .granted (hσ.move rfl rfl rfl ?_ ?_ rfl)
  · simp only [outside, hrest, add_tsub_cancel_left, ← Multiset.cons_coe, holdings_cons]
    rw [show Val.handles ⟨id, fields⟩ = (fields : Multiset (Handle I H)) from rfl]
    abel
  · simp only [← Multiset.cons_coe, Multiset.map_cons]
    simp only [← Multiset.singleton_add]
    abel

theorem kept_takeApart {k : ℕ} : Kept σ total (σ.exec b (.takeApart k)) := by
  rw [exec]
  cases hk : σ.values[k]? with
  | none => exact .refused hσ
  | some v =>
    refine .granted (hσ.move rfl rfl rfl ?_ ?_ rfl)
    · simp only [outside, exists_rest_getElem hk, holdings_add, holdings_singleton]
      rw [show (v.fields : Multiset (Handle I H)) = v.handles from rfl]
      abel
    · simp only [exists_rest_getElem hk, Multiset.map_add, Multiset.map_singleton,
        ← Multiset.singleton_add]
      abel

theorem kept_dropValue {k : ℕ} : Kept σ total (σ.exec b (.dropValue k)) := by
  rw [exec]
  cases hk : σ.values[k]? with
  | none => exact .refused hσ
  | some v =>
    refine .granted (hσ.move rfl rfl rfl ?_ ?_ ?_)
    · simp only [outside, exists_rest_getElem hk, ← Multiset.coe_add, holdings_add,
        holdings_singleton, holdings_drops]
      abel
    · simp only [exists_rest_getElem hk, Multiset.map_add, Multiset.map_singleton,
        ← Multiset.singleton_add]
      abel
    · simp only [← Multiset.coe_add, holdings_add, marks_drops, zero_add]

theorem kept_drop {h : Handle I H} (hen : σ.Enabled (.drop h)) :
    Kept σ total (σ.exec b (.drop h)) := by
  obtain ⟨rest, herase, hhands⟩ := exists_rest (show h ∈ σ.hands from hen)
  refine .granted (hσ.move rfl rfl rfl ?_ (add_comm _ _) ?_)
  · simp only [outside, ← Multiset.cons_coe, holdings_cons]
    rw [herase, hhands]
    show _ + _ + _ + ({h} + _) = _
    abel
  · simp only [← Multiset.cons_coe, holdings_cons]
    exact zero_add _

theorem kept_forget {h : Handle I H} (hen : σ.Enabled (.forget h)) :
    Kept σ total (σ.exec b (.forget h)) := by
  obtain ⟨rest, herase, hhands⟩ := exists_rest (show h ∈ σ.hands from hen)
  refine .granted (hσ.move rfl rfl rfl ?_ (add_comm _ _) rfl)
  simp only [outside, ← Multiset.singleton_add]
  rw [herase, hhands]
  abel

theorem kept_rescue {h : Handle I H} (hen : σ.Enabled (.rescue h)) :
    Kept σ total (σ.exec b (.rescue h)) := by
  have hstack : (σ.stack : Multiset (Task I H)) =
      {.drop h} + (σ.stack.erase (.drop h) : Multiset (Task I H)) := by
    rw [← Multiset.coe_erase, Multiset.singleton_add, Multiset.cons_erase]
    exact hen
  refine .granted (hσ.move rfl rfl rfl ?_ (add_comm _ _) ?_)
  · simp only [outside, hstack, holdings_add, holdings_singleton, ← Multiset.singleton_add]
    show _ = _ + _ + _ + ({h} + _)
    abel
  · rw [hstack, holdings_add, holdings_singleton]
    exact (zero_add _).symm

theorem kept_fromRaw {i : I} {new : H} (hen : σ.Enabled (.fromRaw i new)) :
    Kept σ total (σ.exec b (.fromRaw i new)) := by
  obtain ⟨hi, hraw⟩ := hen
  obtain ⟨hrcs, hret, v, hv⟩ := hσ.raw_live hi hraw
  have hread : (σ.world i).box.read = .ok v := by rw [RcBox.read, hv]
  have hop : (σ.world i).Enabled (.fromRaw v new) := hraw
  obtain ⟨W, r, hexec, heff⟩ := World.exec_effect b (hσ.world i hi) hop
  have hB := World.became_fromRaw (hσ.world i hi) hexec
  rw [exec, hread, ok_bind, hexec, ok_bind]
  refine .granted (hσ.gain hi hret heff.invariant (hv ▸ hB) (roster_insert_rc ?_))
  rw [hrcs]
  exact Finset.notMem_empty new

theorem kept_getMut {h : Handle I H} {k : ℕ} (hen : σ.Enabled (.getMut h k)) :
    Kept σ total (σ.exec b (.getMut h k)) := by
  obtain ⟨hh, hkind, -⟩ := hen
  obtain ⟨kind, i, n⟩ := h
  obtain rfl : kind = .rc := hkind
  obtain ⟨hi, hW, hn, hret, u, hu⟩ := hσ.rc_live (Sound.mem_of_hands hh)
  have hread : (σ.world i).box.read = .ok u := by rw [RcBox.read, hu]
  rw [exec]
  cases hk : σ.values[k]? with
  | none => exact .refused hσ
  | some v =>
    have hop : (σ.world i).Enabled (.getMut n v) := hn
    obtain ⟨W, r, hexec, heff⟩ := World.exec_effect b hW hop
    show Kept σ total ((σ.world i).exec b (.getMut n v) >>= _)
    rw [hexec, ok_bind]
    rcases World.became_getMut hexec with rfl | ⟨rfl, hB⟩
    · exact .refused hσ
    · show Kept σ total ((σ.world i).box.read >>= _)
      rw [hread, ok_bind]
      exact .granted (hσ.swap hi hret heff.invariant hB hu hk)

theorem kept_replace {i : I} {k : ℕ} (hen : σ.Enabled (.replace i k)) :
    Kept σ total (σ.exec b (.replace i k)) := by
  obtain ⟨-, hwhere⟩ := hen
  obtain ⟨hi, hret, u, hu⟩ : i ∈ σ.boxes ∧ (σ.world i).returned = none ∧
      ∃ u, (σ.world i).box.val = .stored u := by
    rcases hwhere with ⟨n, hn⟩ | ⟨hi, hraw⟩
    · obtain ⟨hi, -, -, hret, hu⟩ := hσ.rc_live hn
      exact ⟨hi, hret, hu⟩
    · exact ⟨hi, (hσ.raw_live hi hraw).2⟩
  have hread : (σ.world i).box.read = .ok u := by rw [RcBox.read, hu]
  have hW := hσ.world i hi
  rw [exec]
  cases hk : σ.values[k]? with
  | none => exact .refused hσ
  | some v =>
    show Kept σ total ((σ.world i).box.read >>= _)
    rw [hread, ok_bind]
    refine .granted (hσ.swap hi hret ?_ ⟨rfl, rfl, rfl, rfl, rfl⟩ hu hk)
    have hval := hW.val
    rw [hu] at hval
    exact ⟨hW.strong_eq, hW.weak_eq, hval, hW.raw_unique, hW.raw_span, hW.returned_last⟩

theorem kept_new {i : I} {m k : ℕ} {h : H} (hen : σ.Enabled (.new i m k h)) :
    Kept σ total (σ.exec b (.new i m k h)) := by
  obtain ⟨hi, hlen, memory, hm, hfits⟩ := hen
  have hk : σ.values[k]? = some (σ.values[k]) := List.getElem?_eq_getElem hlen
  generalize σ.values[k] = v at hk
  obtain ⟨inner, hinner, hspan⟩ := UninitView.cast_ok hfits
  have hnew : Rc.new (B i) v memory h =
      .ok ⟨inner, ⟨.stored v, 1, 1⟩, {h}, ∅, none, none, []⟩ := by
    rw [Rc.new, assert_true hfits]
    simp only [ok_bind, hinner, unwrapOk_ok]
  rw [exec, hm, hk]
  show Kept σ total (Rc.new (B i) v memory h >>= _)
  rw [hnew, ok_bind]
  have hvalues := exists_rest_getElem hk
  have hmemory := exists_rest_getElem hm
  refine .granted (hσ.change (i := i) (new_invariant hnew).1 (fun hne => absurd rfl hne) rfl rfl
    ?_ ?_ ?_ ?_)
  · rw [if_neg hi, if_neg hi, add_zero, add_zero]
    simp only [outside, setWorld, hvalues, holdings_add, holdings_singleton,
      ← Multiset.singleton_add]
    show _ + v.handles = {_} + 0 + _
    abel
  · rw [if_neg hi]
    simp only [setWorld, hvalues, Multiset.map_add, Multiset.map_singleton]
    show _ + {v.id} + _ = _
    abel
  · rw [if_neg hi, add_zero]
    exact zero_add _
  · rw [if_neg hi, add_zero]
    simp only [hmemory, Multiset.map_add, Multiset.map_singleton]
    show _ + {inner.span} = _
    rw [hspan, add_comm]

/-- What the running call does next. -/
inductive Worked (σ : Graph B H) : Graph B H → Prop where
  /-- a handle is dropped, and its box keeps what it has -/
  | spent {kind : HandleKind} {i : I} {n : H} {rest : List (Task I H)}
      {W : World (B i) H (Val I H)} {rcs weaks : Finset H}
      (hs : σ.stack = .drop ⟨kind, i, n⟩ :: rest) (hi : i ∈ σ.boxes)
      (hret : (σ.world i).returned = none) (hW : W.Invariant)
      (hB : World.Became (σ.world i) W rcs weaks (σ.world i).box.val)
      (hraw : W.raw = (σ.world i).raw)
      (hold : {⟨kind, i, n⟩} + roster i rcs weaks =
        roster i (σ.world i).rcs (σ.world i).weaks) :
      Worked σ { σ.setWorld i W with stack := rest }
  /-- the last `Rc` of a box is dropped, and the destructor of the value starts -/
  | started {i : I} {n : H} {rest : List (Task I H)} {W : World (B i) H (Val I H)} {v : Val I H}
      (hs : σ.stack = .drop ⟨.rc, i, n⟩ :: rest) (hi : i ∈ σ.boxes)
      (hret : (σ.world i).returned = none) (hW : W.Invariant) (hn : n ∈ (σ.world i).rcs)
      (hv : (σ.world i).box.val = .stored v)
      (hB : World.Became (σ.world i) W ((σ.world i).rcs.erase n) (σ.world i).weaks (.dropping v))
      (hraw : W.raw = (σ.world i).raw) :
      Worked σ { σ.setWorld i W with
        stack := v.drops ++ .finish i :: rest, dropped := v.id ::ₘ σ.dropped }
  /-- the destructor of a value returns -/
  | ended {i : I} {rest : List (Task I H)} {W : World (B i) H (Val I H)} {v : Val I H}
      (hs : σ.stack = .finish i :: rest) (hi : i ∈ σ.boxes)
      (hret : (σ.world i).returned = none) (hW : W.Invariant)
      (hv : (σ.world i).box.val = .dropping v)
      (hB : World.Became (σ.world i) W (σ.world i).rcs (σ.world i).weaks .gone)
      (hraw : W.raw = (σ.world i).raw) :
      Worked σ { σ.setWorld i W with stack := rest }

omit b in
theorem Worked.sound {τ : Graph B H} (h : σ.Worked τ) : τ.Sound total := by
  cases h with
  | spent hs hi hret hW hB hraw hold => exact hσ.spend hs hi hret hW hB hold
  | @started i n rest W v hs hi hret hW hn hv hB hraw =>
    refine hσ.become hi hret hW hB rfl rfl rfl ?_ ?_ ?_
    · rw [hv, ← roster_erase_rc hn]
      simp only [outside, setWorld, hs, ← Multiset.coe_add, ← Multiset.cons_coe, holdings_cons,
        holdings_add, holdings_drops, Slot.handles, Task.handles]
      abel
    · rw [hv]
      simp only [setWorld, Slot.ids, ← Multiset.singleton_add]
      abel
    · rw [hv, hs]
      simp only [← Multiset.coe_add, ← Multiset.cons_coe, holdings_cons, holdings_add,
        marks_drops, Slot.marks, Task.marks]
      abel
  | ended hs hi hret hW hv hB hraw =>
    refine hσ.become hi hret hW hB rfl rfl rfl ?_ ?_ ?_
    · rw [hv]
      simp only [outside, setWorld, hs, ← Multiset.cons_coe, holdings_cons, Slot.handles,
        Task.handles]
      abel
    · rw [hv]
      exact add_comm _ _
    · rw [hv, hs]
      simp only [← Multiset.cons_coe, holdings_cons, Slot.marks, Task.marks]
      abel

/-- The running call goes on, as far as it can. -/
theorem work_worked (hen : σ.Enabled .work) : ∃ τ, σ.work b = .ok (τ, true) ∧ σ.Worked τ := by
  have hstack : σ.stack ≠ [] := hen
  rw [work]
  match hs : σ.stack with
  | [] => exact absurd hs hstack
  | .drop ⟨.rc, i, n⟩ :: rest =>
    obtain ⟨hi, hW, hn, hret, v, hv⟩ := hσ.rc_live
      (Sound.mem_of_stack (by rw [hs]; exact List.mem_cons_self))
    have hop : (σ.world i).Enabled (.drop n) := hn
    obtain ⟨W, r, hexec, heff⟩ := World.exec_effect b hW hop
    simp only [hexec, ok_bind]
    obtain ⟨hraw, ⟨u, hu, hB⟩ | hB⟩ := World.became_drop hexec
    · obtain rfl : v = u := Slot.stored.inj (hv.symm.trans hu)
      simp only [hB.val]
      exact ⟨_, rfl, .started hs hi hret heff.invariant hn hv hB hraw⟩
    · simp only [hB.val, hv]
      exact ⟨_, rfl, .spent hs hi hret heff.invariant hB hraw (roster_erase_rc hn)⟩
  | .drop ⟨.weak, i, n⟩ :: rest =>
    obtain ⟨hi, hW, hn, hret⟩ := hσ.weak_live
      (Sound.mem_of_stack (by rw [hs]; exact List.mem_cons_self))
    have hop : (σ.world i).Enabled (.weakDrop n) := hn
    obtain ⟨W, r, hexec, heff⟩ := World.exec_effect b hW hop
    obtain ⟨hraw, hB⟩ := World.became_weakDrop hexec
    simp only [hexec, ok_bind]
    exact ⟨_, rfl, .spent hs hi hret heff.invariant hB hraw (roster_erase_weak hn)⟩
  | .finish i :: rest =>
    obtain ⟨hi, v, hv⟩ := hσ.of_finish (i := i) (by rw [hs]; exact List.mem_cons_self)
    have hret : (σ.world i).returned = none := by
      by_contra hne
      have hgone := hσ.idle i hi hne
      rw [hv] at hgone
      exact absurd hgone (by simp)
    have hop : (σ.world i).Enabled .dropEnd := ⟨v, hv⟩
    obtain ⟨W, r, hexec, heff⟩ := World.exec_effect b (hσ.world i hi) hop
    obtain ⟨hraw, hB⟩ := World.became_dropEnd hexec
    simp only [hexec, ok_bind]
    exact ⟨_, rfl, .ended hs hi hret heff.invariant hv hB hraw⟩

theorem kept_work (hen : σ.Enabled .work) : Kept σ total (σ.exec b .work) := by
  obtain ⟨τ, hexec, hτ⟩ := work_worked b hσ hen
  show Kept σ total (σ.work b)
  rw [hexec]
  exact .granted (hτ.sound hσ)

omit hσ [DecidableEq I] [DecidableEq H] in
/-- A call on a handle of its kind is an operation that the box allows. -/
theorem enabled_op {i : I} {W : World (B i) H (Val I H)} {n : H} {c : Call H}
    (hn : n ∈ W.names c.kind) (hfresh : c.Fresh W) : W.Enabled (c.op n) := by
  cases c with
  | clone new | downgrade new | weakClone new | upgrade new => exact ⟨hn, hfresh⟩
  | tryUnwrap new => exact ⟨hn, hfresh⟩
  | intoRaw | weakTryUnwrap => exact hn

omit hσ [DecidableEq I] [DecidableEq H] in
/-- Nothing is in the memory of a box without `Rc`s if no destructor runs. -/
theorem gone_of_last {i : I} {W : World (B i) H (Val I H)} (hW : W.Invariant) {n : H}
    (hn : n ∈ W.weaks) (hrcs : W.rcs = ∅) (hdropping : ¬ ∃ v, W.box.val = .dropping v) :
    W.box.val = .gone := by
  have hzero := hW.strong_of_weak hn
  rw [hrcs, Finset.card_empty] at hzero
  have hval := hW.val
  cases hv : W.box.val with
  | stored v =>
    rw [hv] at hval
    exact absurd hval.1 (by omega)
  | dropping v => exact absurd ⟨v, hv⟩ hdropping
  | gone => rfl

theorem kept_call {h : Handle I H} {c : Call H} (hen : σ.Enabled (.call h c)) :
    Kept σ total (σ.exec b (.call h c)) := by
  obtain ⟨hh, htake, hkind, hfresh, hout⟩ := hen
  obtain ⟨kind, i, n⟩ := h
  obtain rfl : kind = c.kind := hkind
  obtain ⟨hi, hname⟩ := hσ.of_handle hh
  have hW : (σ.world i).Invariant := hσ.world i hi
  have hret : (σ.world i).returned = none := hW.returned_none hname
  have hen : (σ.world i).Enabled (c.op n) := enabled_op hname hfresh
  obtain ⟨W, r, hexec, heff⟩ := World.exec_effect b hW hen
  have hW' := heff.invariant
  show Kept σ total ((σ.world i).exec b (c.op n) >>= _)
  rw [hexec, ok_bind]
  cases c with
  | clone new =>
    obtain ⟨rfl, hB⟩ := World.became_clone hexec
    exact .granted (hσ.gain hi hret hW' hB (roster_insert_rc hfresh.1))
  | upgrade new =>
    rcases World.became_upgrade hexec with rfl | ⟨rfl, hB⟩
    · exact .refused hσ
    · exact .granted (hσ.gain hi hret hW' hB (roster_insert_rc hfresh.1))
  | downgrade new =>
    obtain ⟨rfl, hB⟩ := World.became_downgrade hexec
    exact .granted (hσ.gain hi hret hW' hB (roster_insert_weak hfresh.1))
  | weakClone new =>
    obtain ⟨rfl, hB⟩ := World.became_weakClone hexec
    exact .granted (hσ.gain hi hret hW' hB (roster_insert_weak hfresh.1))
  | tryUnwrap new =>
    rcases World.became_tryUnwrap hexec with rfl | ⟨v, hv, rfl, hB⟩
    · exact .refused hσ
    · exact .granted (hσ.unwrap (htake trivial) hi hret hW' hB hv hname hfresh)
  | intoRaw =>
    rcases World.became_intoRaw hexec with rfl | ⟨init, rfl, hB⟩
    · exact .refused hσ
    · exact .granted (hσ.lose (htake trivial) hi hret hW' hB (roster_erase_rc hname))
  | weakTryUnwrap =>
    rcases World.became_weakTryUnwrap hexec with
      rfl | ⟨memory, rfl, hspan, hrcs, hweaks, hval, hlast⟩
    · exact .refused hσ
    · obtain ⟨hnone, hsingle⟩ := not_not.mp fun hg => absurd (heff.refused_iff.mpr hg) (by simp)
      exact .granted (hσ.handBack (htake trivial) hi hret hW' hspan hrcs hweaks hval hlast
        (gone_of_last hW hname hnone (hout n rfl hsingle)) hname)

/-- **The step lemma.** -/
theorem kept_exec {a : Act I H} (hen : σ.Enabled a) : Kept σ total (σ.exec b a) := by
  cases a with
  | make id fields => exact kept_make b hσ hen
  | takeApart k => exact kept_takeApart b hσ
  | dropValue k => exact kept_dropValue b hσ
  | new i m k h => exact kept_new b hσ hen
  | call h c => exact kept_call b hσ hen
  | getMut h k => exact kept_getMut b hσ hen
  | fromRaw i new => exact kept_fromRaw b hσ hen
  | replace i k => exact kept_replace b hσ hen
  | drop h => exact kept_drop b hσ hen
  | forget h => exact kept_forget b hσ hen
  | rescue h => exact kept_rescue b hσ hen
  | work => exact kept_work b hσ hen

omit hσ in
/-- **The run lemma.** -/
theorem reachable_sound {b : Build} {free : List (UninitView (Ty.unit w))}
    (h : (machine B H b free).Reachable σ) :
    σ.Sound ((free : Multiset (UninitView (Ty.unit w))).map UninitView.span) := by
  refine Machine.Reachable.invariant
    (I := fun σ => σ.Sound ((free : Multiset (UninitView (Ty.unit w))).map UninitView.span)) ?_ ?_ h
  · rintro σ ⟨world, rfl⟩
    exact sound_start world free
  · rintro σ l σ' - hσ ⟨hen, hexec⟩
    obtain ⟨τ, granted, hexec', hτ, -⟩ := kept_exec b hσ hen
    rw [hexec] at hexec'
    obtain ⟨rfl, -⟩ := ok_pair_inj hexec'
    exact hτ

/-- How many handles of a box there are, wherever they are. -/
def count (σ : Graph B H) (kind : HandleKind) (i : I) : ℕ :=
  (σ.outside + σ.inside).countP fun h => h.kind = kind ∧ h.box = i

omit [DecidableEq H] in
theorem Sound.count_eq {i : I} (hi : i ∈ σ.boxes) (kind : HandleKind) :
    σ.count kind i = ((σ.world i).names kind).card := by
  rw [count, hσ.handles_eq, ← Multiset.coe_countPAddMonoidHom, map_sum,
    Finset.sum_eq_single_of_mem i hi]
  · exact World.countP_handles i (σ.world i) kind
  · exact fun j _ hji => World.countP_handles_of_ne hji (σ.world j) kind

/-- No handle is in two places. -/
theorem Sound.nodup : (σ.outside + σ.inside).Nodup := by
  rw [hσ.handles_eq, Multiset.nodup_iff_count_le_one]
  intro h
  rw [Multiset.count_sum']
  have hone : Multiset.count h ((σ.world h.box).handles h.box) ≤ 1 :=
    Multiset.nodup_iff_count_le_one.mp (roster_nodup _ _ _) h
  have hother : ∀ j ∈ σ.boxes, j ≠ h.box → Multiset.count h ((σ.world j).handles j) = 0 :=
    fun j _ hj => Multiset.count_eq_zero.mpr fun hmem => hj (World.mem_handles.mp hmem).1.symm
  by_cases hbox : h.box ∈ σ.boxes
  · rw [Finset.sum_eq_single_of_mem h.box hbox hother]
    exact hone
  · rw [Finset.sum_eq_zero fun j hj => hother j hj fun heq => hbox (heq ▸ hj)]
    exact Nat.zero_le 1

omit hσ in
/-- **The handles are counted wherever they are.**  The values in `Rc` boxes may own handles of
other boxes and of their own, and the destructor of a value may do what the program can do.  At
every time, in every program with any number of boxes, if no box ever has `usize::MAX` handles or
more, where those that were forgotten count as well (`World.Room` of every call that makes one):
the two counters in the memory of a box are the numbers of its handles, of all that the program has,
that values own, that are about to be dropped, and that were forgotten, with one more in the counter
of `Rc`s while the caller has the raw value, and one more in that of `Weak`s while the value is
there; no handle is in two places; each points to a box whose memory was not handed back, and an
`Rc` to a box whose value is there;
each value that was made is in one place or was dropped or taken apart, once;
the memory the program began with is in boxes or free, no piece of it twice;
and whatever the program may do succeeds, or is refused and changes nothing. -/
theorem handles_counted (B : I → Types w) (b : Build) (free : List (UninitView (Ty.unit w)))
    {σ : Graph B H} (h : (machine B H b free).Reachable σ) :
    (∀ i ∈ σ.boxes,
      (σ.world i).box.strong = σ.count .rc i + (if (σ.world i).raw.isSome then 1 else 0) ∧
      (σ.world i).box.weak = σ.count .weak i + if 0 < (σ.world i).box.strong then 1 else 0) ∧
    (σ.outside + σ.inside).Nodup ∧
    (∀ h ∈ σ.outside + σ.inside, h.box ∈ σ.boxes ∧ (σ.world h.box).returned = none ∧
      (h.kind = .rc → ∃ v, (σ.world h.box).box.val = .stored v)) ∧
    (σ.values : Multiset (Val I H)).map Val.id + σ.dropped + σ.apart +
      ∑ i ∈ σ.boxes, (σ.world i).box.val.ids = σ.made ∧
    (σ.free : Multiset (UninitView (Ty.unit w))).map UninitView.span +
      ∑ i ∈ σ.boxes, (σ.world i).pieces =
        (free : Multiset (UninitView (Ty.unit w))).map UninitView.span ∧
    ∀ a, σ.Enabled a →
      ∃ τ granted, σ.exec b a = .ok (τ, granted) ∧ (granted = false → τ = σ) := by
  have hσ := reachable_sound h
  refine ⟨fun i hi => ?_, hσ.nodup, fun h hh => ?_, ?_, ?_, fun a hen => ?_⟩
  · have hW := hσ.world i hi
    rw [hσ.count_eq hi, hσ.count_eq hi]
    exact ⟨hW.strong_eq, hW.weak_eq⟩
  · obtain ⟨hi, hn⟩ := hσ.of_handle hh
    have hW := hσ.world _ hi
    refine ⟨hi, hW.returned_none hn, fun hrc => ?_⟩
    rw [hrc] at hn
    obtain ⟨v, hv, -⟩ := hW.stored_of_rc hn
    exact ⟨v, hv⟩
  · have hvalues := hσ.values
    rw [Level, Finset.sum_const_zero, add_zero] at hvalues
    exact hvalues
  · have hmemory := hσ.memory
    rw [Level, Finset.sum_const_zero, add_zero] at hmemory
    exact hmemory
  · obtain ⟨τ, granted, hexec, -, hsame⟩ := kept_exec b hσ hen
    exact ⟨τ, granted, hexec, hsame⟩

end Graph

/-! ## A box whose value owns another box -/

theorem twoWords.size_lt : 32 < 2 ^ 64 := by decide

theorem twoWords.other_pos : 0 < 8192 := by decide

/-- Two pieces of memory, and no boxes. -/
def twoWords.start : Graph (fun _ : ℕ => twoWords) ℕ :=
  Graph.start (fun _ => ⟨twoWords.fresh.inner, ⟨.gone, 0, 0⟩, ∅, ∅, none, none, []⟩)
    [UninitView.fromMemory 4096 32 page_pos twoWords.size_lt,
      UninitView.fromMemory 8192 32 twoWords.other_pos twoWords.size_lt]

/-- A program that does this. -/
def twoWords.after (acts : List (Act ℕ ℕ)) : Graph (fun _ : ℕ => twoWords) ℕ :=
  acts.foldl (fun σ a => match σ.exec .debug a with | .ok (τ, _) => τ | .error _ => σ)
    twoWords.start

/-- One more act, which is enabled, and so succeeds. -/
theorem twoWords.reachable_snoc {acts : List (Act ℕ ℕ)} {a : Act ℕ ℕ}
    (h : (Graph.machine (fun _ : ℕ => twoWords) ℕ .debug twoWords.start.free).Reachable
      (twoWords.after acts)) (hen : (twoWords.after acts).Enabled a) :
    (Graph.machine (fun _ : ℕ => twoWords) ℕ .debug twoWords.start.free).Reachable
      (twoWords.after (acts ++ [a])) := by
  obtain ⟨τ, granted, hexec, -⟩ := Graph.kept_exec .debug (Graph.reachable_sound h) hen
  have hafter : twoWords.after (acts ++ [a]) = τ := by
    rw [after, List.foldl_append]
    show (match (twoWords.after acts).exec .debug a with | .ok (τ, _) => τ | .error _ => _) = τ
    rw [hexec]
  rw [hafter]
  exact h.tail (l := (a, granted)) ⟨hen, hexec⟩

/-- The value in box `1` is made of the `Rc` of box `0`. -/
def twoWords.nested : List (Act ℕ ℕ) :=
  [.make 0 [], .new 0 0 0 0, .make 1 [⟨.rc, 0, 0⟩], .new 1 0 0 0]

theorem twoWords.reachable_nested :
    (Graph.machine (fun _ : ℕ => twoWords) ℕ .debug twoWords.start.free).Reachable
      (twoWords.after twoWords.nested) := by
  have h₀ : (Graph.machine (fun _ : ℕ => twoWords) ℕ .debug twoWords.start.free).Reachable
      (twoWords.after []) := .of_init ⟨_, rfl⟩
  have h₁ := reachable_snoc (a := .make 0 []) h₀ (Multiset.zero_le _)
  have h₂ := reachable_snoc (a := .new 0 0 0 0) h₁
    ⟨Finset.notMem_empty 0, by decide, _, rfl, by decide⟩
  have h₃ := reachable_snoc (a := .make 1 [⟨.rc, 0, 0⟩]) h₂ le_rfl
  exact reachable_snoc (a := .new 1 0 0 0) h₃ ⟨by decide, by decide, _, rfl, by decide⟩

/-- The handle that is in box `1` is counted in box `0`. -/
theorem handles_counted_nested :
    (twoWords.after twoWords.nested).hands = {⟨.rc, 1, 0⟩} ∧
      ((twoWords.after twoWords.nested).world 0).box.strong =
        (twoWords.after twoWords.nested).count .rc 0 + 0 := by
  obtain ⟨hcount, -⟩ := Graph.handles_counted _ .debug _ twoWords.reachable_nested
  exact ⟨rfl, (hcount 0 (by decide)).1⟩

end Rc
end StaticAlloc
