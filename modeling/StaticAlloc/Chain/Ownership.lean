import StaticAlloc.Chain.Model

/-!
# Every link has one owner

`Owns σ L` says that the heap is a family of lists (`Threaded`), one for each chain:
following the pointers from the root of chain `i` leads through exactly the links of
`L i`, no link is on two of these lists, and no other link is on the heap.  With the
ledgers this is all of memory safety: what is on a list is on the heap, what is not on
a list was freed, and as often as it was allocated.

The destructors are summed up by `Freed`: they free the links of a list and change
nothing else (`linkLoop_ok`, `boxDrop_ok`, `chainLoop_ok`).  Each of the four
operations then has one lemma that says how the lists change; on the lists, `chain` is
a drop of its argument followed by a push of the first link (`Owns.relink`).
-/

namespace StaticAlloc
namespace Chain

open Toolkit
open Bump (placement)

variable {w : ℕ} {T : Target w} {I : Type}

/-- The successor of a link, and the level of its arena. -/
def read (σ : State T I) (p : LinkPtr T) : Option (Option (LinkPtr T) × ℕ) :=
  (σ.links p).map fun l => (l.next, l.index)

/-- The links on a list. -/
abbrev keys (l : List (LinkPtr T × ℕ)) : List (LinkPtr T) := l.map Prod.fst

section Links

variable {σ τ υ : State T I} {p q : LinkPtr T} {next : Option (LinkPtr T)} {n : ℕ}
  {ps qs : List (LinkPtr T)} {l : List (LinkPtr T × ℕ)}

theorem links_of_read (h : read σ p = some (next, n)) : σ.links p = some ⟨next, n⟩ := by
  obtain ⟨⟨next', n'⟩, hl, hpair⟩ := Option.map_eq_some_iff.mp h
  obtain ⟨rfl, rfl⟩ := Prod.mk.inj hpair
  exact hl

theorem read_of_links (h : σ.links p = some ⟨next, n⟩) : read σ p = some (next, n) := by
  rw [read, h]
  rfl

@[simp] theorem setLink_links_self {k : Link T} : (σ.setLink p k).links p = some k :=
  Function.update_self _ _ _

theorem setLink_links_of_ne {k : Link T} (h : q ≠ p) : (σ.setLink p k).links q = σ.links q :=
  Function.update_of_ne h _ _

theorem read_setLink_of_ne {k : Link T} (h : q ≠ p) : read (σ.setLink p k) q = read σ q := by
  rw [read, setLink_links_of_ne h, read]

/-- A list is not changed by a write to a link that is not on it. -/
theorem linked_setLink {k : Link T} {head : Option (LinkPtr T)} (h : Linked (read σ) head l)
    (hp : p ∉ keys l) : Linked (read (σ.setLink p k)) head l := by
  refine h.frame fun q m link hmem hread => ?_
  have hne : q ≠ p := by
    rintro rfl
    exact hp (List.mem_map_of_mem (f := Prod.fst) hmem)
  rw [read_setLink_of_ne hne]
  exact hread

/-! ## Freeing -/

/-- From the first state to the second exactly the links listed were freed. -/
structure Freed (σ τ : State T I) (ps : List (LinkPtr T)) : Prop where
  links : ∀ q, τ.links q = if q ∈ ps then none else σ.links q
  freed : τ.freed = σ.freed + ps
  roots : τ.roots = σ.roots
  allocated : τ.allocated = σ.allocated

theorem Freed.refl : Freed σ σ [] where
  links q := by rw [if_neg List.not_mem_nil]
  freed := by rw [Multiset.coe_nil, Multiset.add_zero]
  roots := rfl
  allocated := rfl

theorem Freed.single : Freed σ (σ.free p) [p] where
  links q := by
    by_cases h : q = p
    · rw [if_pos (List.mem_singleton.mpr h), h]
      exact Function.update_self _ _ _
    · rw [if_neg (mt List.mem_singleton.mp h)]
      exact Function.update_of_ne h _ _
  freed := by
    show p ::ₘ σ.freed = σ.freed + ([p] : List (LinkPtr T))
    rw [Multiset.coe_singleton, Multiset.add_comm, Multiset.singleton_add]
  roots := rfl
  allocated := rfl

theorem Freed.trans (h : Freed σ τ ps) (h' : Freed τ υ qs) : Freed σ υ (ps ++ qs) where
  links q := by
    rw [h'.links, h.links]
    by_cases hq : q ∈ qs
    · rw [if_pos hq, if_pos (List.mem_append_right _ hq)]
    · by_cases hp : q ∈ ps
      · rw [if_neg hq, if_pos hp, if_pos (List.mem_append_left _ hp)]
      · have hnot : q ∉ ps ++ qs := fun hmem => (List.mem_append.mp hmem).elim hp hq
        rw [if_neg hq, if_neg hp, if_neg hnot]
  freed := by rw [h'.freed, h.freed, ← Multiset.coe_add, Multiset.add_assoc]
  roots := h'.roots.trans h.roots
  allocated := h'.allocated.trans h.allocated

theorem Freed.perm (h : Freed σ τ ps) (hperm : ps.Perm qs) : Freed σ τ qs where
  links q := by
    rw [h.links]
    simp only [hperm.mem_iff]
  freed := by rw [h.freed, Multiset.coe_eq_coe.mpr hperm]
  roots := h.roots
  allocated := h.allocated

/-- What was written to a link that was freed later is gone. -/
theorem Freed.of_setLink {k : Link T} (h : Freed (σ.setLink p k) τ ps) (hp : p ∈ ps) :
    Freed σ τ ps where
  links q := by
    rw [h.links]
    by_cases hq : q ∈ ps
    · rw [if_pos hq, if_pos hq]
    · have hne : q ≠ p := fun heq => hq (heq ▸ hp)
      rw [if_neg hq, if_neg hq, setLink_links_of_ne hne]
  freed := h.freed
  roots := h.roots
  allocated := h.allocated

/-- Links that were not freed read as before. -/
theorem Freed.read_eq (h : Freed σ τ ps) (hp : p ∉ ps) : read τ p = read σ p := by
  rw [read, h.links, if_neg hp, read]

theorem Freed.read_eq_none (h : Freed σ τ ps) (hp : p ∈ ps) : read τ p = none := by
  rw [read, h.links, if_pos hp]
  rfl

theorem Freed.linked (h : Freed σ τ ps) {head : Option (LinkPtr T)}
    (hl : Linked (read σ) head l) (hdisj : ∀ p ∈ keys l, p ∉ ps) : Linked (read τ) head l :=
  hl.frame fun k _ _ hmem hread =>
    (h.read_eq (hdisj k (List.mem_map_of_mem hmem))).trans hread

/-! ## The destructors -/

theorem takeNext_eq (h : read σ p = some (next, n)) :
    takeNext σ p = .ok (σ.setLink p ⟨none, n⟩, next) := by
  rw [takeNext, links_of_read h]

/-- A box whose link has no successor any more: its destructor finds nothing, and the
link is freed. -/
theorem boxDropBy_detached
    {loop : State T I → Option (LinkPtr T) → Except Stop (Option (State T I))}
    (hloop : ∀ σ, loop σ none = .ok (some σ)) :
    boxDropBy loop (σ.setLink p ⟨none, n⟩) p = .ok (some (σ.free p)) := by
  have hlink : (σ.setLink p ⟨none, n⟩).links p = some ⟨none, n⟩ := setLink_links_self
  have hfree : ((σ.setLink p ⟨none, n⟩).setLink p ⟨none, n⟩).free p = σ.free p := by
    simp only [State.free, State.setLink, Function.update_idem]
  rw [boxDropBy, takeNext_eq (read_of_links hlink)]
  simp only [ok_bind, hloop, dealloc, setLink_links_self, hfree]
  rfl

theorem linkLoop_none {fuel : ℕ} : linkLoop fuel σ none = .ok (some σ) := by
  cases fuel with
  | zero => rfl
  | succ fuel => rfl

theorem chainLoop_none {fuel : ℕ} : chainLoop fuel σ none = .ok (some σ) := by
  cases fuel with
  | zero => rfl
  | succ fuel => rfl

/-- One turn of either loop: the first link is freed, and the rest of the list is
as it was. -/
theorem turn (hread : read σ p = some (next, n)) (hrest : Linked (read σ) next l)
    (hp : p ∉ keys l) :
    takeNext σ p = .ok (σ.setLink p ⟨none, n⟩, next) ∧
      (∀ fuel, boxDropBy (linkLoop fuel) (σ.setLink p ⟨none, n⟩) p = .ok (some (σ.free p))) ∧
      Linked (read (σ.free p)) next l := by
  refine ⟨takeNext_eq hread, fun fuel => boxDropBy_detached fun _ => linkLoop_none, ?_⟩
  refine Freed.single.linked hrest fun k hk hmem => ?_
  rw [List.mem_singleton.mp hmem] at hk
  exact hp hk

/-- **`Drop for Link`.**  The loop frees every link of its list, once. -/
theorem linkLoop_ok (h : Linked (read σ) next l) :
    ∃ τ, Freed σ τ (keys l) ∧ ∀ fuel, l.length ≤ fuel → linkLoop fuel σ next = .ok (some τ) := by
  induction l generalizing σ next with
  | nil =>
    cases h
    exact ⟨σ, Freed.refl, fun fuel _ => linkLoop_none⟩
  | cons kv l ih =>
    have hnodup := List.nodup_cons.mp h.nodup
    cases h with
    | @cons p n next' l hread hrest =>
    obtain ⟨htake, hdrop, hrest'⟩ := turn hread hrest hnodup.1
    obtain ⟨τ, hfreed, hτ⟩ := ih hrest'
    refine ⟨τ, Freed.single.trans hfreed, fun fuel hfuel => ?_⟩
    obtain ⟨fuel, rfl⟩ := Nat.exists_eq_add_of_le' (Nat.le_of_add_left_le hfuel : 1 ≤ fuel)
    rw [linkLoop, htake]
    simp only [ok_bind, hdrop, hτ fuel (Nat.le_of_succ_le_succ hfuel)]

/-- Dropping a box frees its link and every link behind it. -/
theorem boxDrop_ok (h : Linked (read σ) (some p) ((p, n) :: l)) :
    ∃ τ, Freed σ τ (keys ((p, n) :: l)) ∧
      ∀ fuel, l.length ≤ fuel → boxDropBy (linkLoop fuel) σ p = .ok (some τ) := by
  have hp := (List.nodup_cons.mp h.nodup).1
  obtain ⟨-, next, hread, hrest⟩ := h.of_cons
  have hdetached : Linked (read (σ.setLink p ⟨none, n⟩)) next l := linked_setLink hrest hp
  obtain ⟨τ, hfreed, hτ⟩ := linkLoop_ok hdetached
  have hlink : τ.links p = some ⟨none, n⟩ := by
    rw [hfreed.links, if_neg hp, setLink_links_self]
  have hall : Freed (σ.setLink p ⟨none, n⟩) (τ.free p) (keys l ++ [p]) :=
    hfreed.trans Freed.single
  refine ⟨τ.free p, (hall.of_setLink (by simp)).perm (List.perm_append_singleton _ _),
    fun fuel hfuel => ?_⟩
  rw [boxDropBy, takeNext_eq hread]
  simp only [ok_bind, hτ fuel hfuel, dealloc, hlink]
  rfl

/-- **`Drop for Chain`.**  So does the loop of the other destructor. -/
theorem chainLoop_ok (h : Linked (read σ) next l) :
    ∃ τ, Freed σ τ (keys l) ∧
      ∀ fuel, l.length ≤ fuel → chainLoop fuel σ next = .ok (some τ) := by
  induction l generalizing σ next with
  | nil =>
    cases h
    exact ⟨σ, Freed.refl, fun fuel _ => chainLoop_none⟩
  | cons kv l ih =>
    have hnodup := List.nodup_cons.mp h.nodup
    cases h with
    | @cons p n next' l hread hrest =>
    obtain ⟨htake, hdrop, hrest'⟩ := turn hread hrest hnodup.1
    obtain ⟨τ, hfreed, hτ⟩ := ih hrest'
    refine ⟨τ, Freed.single.trans hfreed, fun fuel hfuel => ?_⟩
    obtain ⟨fuel, rfl⟩ := Nat.exists_eq_add_of_le' (Nat.le_of_add_left_le hfuel : 1 ≤ fuel)
    rw [chainLoop, htake]
    simp only [ok_bind, hdrop, hτ fuel (Nat.le_of_succ_le_succ hfuel)]

/-- **`set_next`.**  Every link behind the one whose successor is replaced is freed. -/
theorem setNext_ok (hread : read σ p = some (next, n)) (hrest : Linked (read σ) next l)
    (hp : p ∉ keys l) (next' : Option (LinkPtr T)) :
    ∃ τ, Freed (σ.setLink p ⟨next', n⟩) τ (keys l) ∧
      ∀ fuel, l.length ≤ fuel → setNext fuel σ p next' = .ok (some τ) := by
  have hrest' : Linked (read (σ.setLink p ⟨next', n⟩)) next l := linked_setLink hrest hp
  cases next with
  | none =>
    obtain rfl := hrest.of_none
    refine ⟨_, Freed.refl, fun fuel _ => ?_⟩
    rw [setNext, links_of_read hread]
  | some old =>
    obtain ⟨m, link, rest, -, rfl, -⟩ := hrest.of_some
    obtain ⟨τ, hfreed, hτ⟩ := boxDrop_ok hrest'
    refine ⟨τ, hfreed, fun fuel hfuel => ?_⟩
    rw [setNext, links_of_read hread]
    exact hτ fuel (Nat.le_of_succ_le hfuel)

end Links

/-! ## The books -/

/-- No arena is fuller than it can be. -/
def LevelsFit (σ : State T I) : Prop := ∀ p l, σ.links p = some l → l.index ≤ p.capacity

/-- A link was freed as often as it was allocated, but for the time it is on the
heap. -/
def Balanced (σ : State T I) : Prop :=
  ∀ p, σ.allocated.count p = σ.freed.count p + (σ.links p).isSome.toNat

section Books

variable {σ τ : State T I} {p : LinkPtr T} {k : Link T} {ps : List (LinkPtr T)}

theorem LevelsFit.setLink (h : LevelsFit σ) (hk : k.index ≤ p.capacity) :
    LevelsFit (σ.setLink p k) := by
  intro q l hl
  by_cases hq : q = p
  · rw [hq, setLink_links_self] at hl
    rw [hq, ← Option.some.inj hl]
    exact hk
  · rw [setLink_links_of_ne hq] at hl
    exact h q l hl

theorem LevelsFit.freed (h : LevelsFit σ) (hfreed : Freed σ τ ps) : LevelsFit τ := by
  intro p l hl
  rw [hfreed.links] at hl
  split at hl
  · exact absurd hl (by simp)
  · exact h p l hl

/-- A link on the heap may be overwritten. -/
theorem Balanced.setLink (h : Balanced σ) (hp : σ.links p ≠ none) :
    Balanced (σ.setLink p k) := by
  intro q
  refine (h q).trans (congrArg (σ.freed.count q + ·) ?_)
  by_cases hq : q = p
  · rw [hq, setLink_links_self, Option.isSome_iff_ne_none.mpr hp]
    rfl
  · rw [setLink_links_of_ne hq]

/-- A link that was not on the heap may be allocated. -/
theorem Balanced.alloc (h : Balanced σ) (hp : σ.links p = none) :
    Balanced { σ.setLink p k with allocated := p ::ₘ σ.allocated } := by
  intro q
  show (p ::ₘ σ.allocated).count q =
    σ.freed.count q + ((σ.setLink p k).links q).isSome.toNat
  by_cases hq : q = p
  · rw [hq, Multiset.count_cons_self, h p, hp, setLink_links_self]
    rfl
  · rw [Multiset.count_cons_of_ne hq, h q, setLink_links_of_ne hq]

/-- Links that are on the heap may be freed, each once. -/
theorem Balanced.freed (h : Balanced σ) (hfreed : Freed σ τ ps) (hnodup : ps.Nodup)
    (hlive : ∀ p ∈ ps, σ.links p ≠ none) : Balanced τ := by
  intro p
  rw [hfreed.allocated, hfreed.freed, hfreed.links, Multiset.count_add, Multiset.coe_count, h p]
  by_cases hp : p ∈ ps
  · have hsome : (σ.links p).isSome = true := Option.isSome_iff_ne_none.mpr (hlive p hp)
    rw [if_pos hp, List.count_eq_one_of_mem hnodup hp, hsome]
    rfl
  · rw [if_neg hp, List.count_eq_zero_of_not_mem hp, Nat.add_zero]

end Books

/-! ## The invariant -/

/-- The heap is the lists of the chains, and nothing else; the list of chain `i` is
`L i`. -/
structure Owns (σ : State T I) (L : I → List (LinkPtr T × ℕ)) : Prop
    extends Threaded (read σ) σ.root L where
  levels : LevelsFit σ
  balanced : Balanced σ

section Invariant

variable {σ τ : State T I} {L : I → List (LinkPtr T × ℕ)} {i j : I} {p : LinkPtr T} {n : ℕ}
  {ps : List (LinkPtr T)}

/-- A link on a list is on the heap, with the level listed. -/
theorem Owns.links (h : Owns σ L) (hp : (p, n) ∈ L i) : ∃ next, σ.links p = some ⟨next, n⟩ := by
  obtain ⟨next, hread⟩ := (h.linked i).read_of_mem hp
  exact ⟨next, links_of_read hread⟩

theorem Owns.links_ne_none (h : Owns σ L) (hp : p ∈ keys (L i)) : σ.links p ≠ none := by
  obtain ⟨⟨p, n⟩, hmem, rfl⟩ := List.mem_map.mp hp
  obtain ⟨next, hlink⟩ := h.links hmem
  simp [hlink]

theorem owns_empty : Owns (State.empty T I) fun _ => [] where
  linked _ := .nil
  single _ _ _ hp := absurd hp List.not_mem_nil
  owned _ _ _ hread := absurd hread (by simp [read, State.empty])
  levels _ _ hl := absurd hl (by simp [State.empty])
  balanced _ := rfl

/-- No link is left over when every chain is gone. -/
theorem Owns.freed_eq (h : Owns σ L) (hdead : ∀ i, σ.roots i = none) :
    σ.freed = σ.allocated := by
  have hnone : ∀ p, σ.links p = none := by
    intro p
    cases hl : σ.links p with
    | none => rfl
    | some l =>
      obtain ⟨i, hi⟩ := h.owned p _ _ (read_of_links hl)
      have hroot : σ.root i = none := by rw [State.root, hdead]; rfl
      have hnil : L i = [] := (hroot ▸ h.linked i).of_none
      rw [hnil] at hi
      exact absurd hi List.not_mem_nil
  refine Multiset.ext.mpr fun p => ?_
  rw [h.balanced p, hnone]
  rfl

/-- The level of the first link fits into its capacity. -/
theorem Owns.remainingCapacity {b : Build} (h : Owns σ L) (i : I) :
    ∃ n, remainingCapacity b σ i = .ok n ∧
      ∀ p l, σ.root i = some p → σ.links p = some l → n + l.index = p.capacity := by
  rw [Chain.remainingCapacity]
  cases hroot : σ.root i with
  | none => exact ⟨0, rfl, fun p l hp => absurd hp (by simp)⟩
  | some p =>
    have hlinked := h.linked i
    rw [hroot] at hlinked
    obtain ⟨n, next, rest, hread, -, -⟩ := hlinked.of_some
    have hlink := links_of_read hread
    have hle : n ≤ capacity σ i := by
      rw [capacity, hroot]
      exact h.levels p _ hlink
    refine ⟨capacity σ i - n, ?_, ?_⟩
    · simp only [hlink, subUsize_of_le hle]
    · intro q l hq hl
      obtain rfl := Option.some.inj hq
      obtain rfl := Option.some.inj (hlink.symm.trans hl)
      rw [capacity, hroot] at hle ⊢
      exact Nat.sub_add_cancel hle

/-- A link takes up memory. -/
theorem LinkPtr.block_pos (p : LinkPtr T) : 0 < p.block.size := by
  have hlaid := p.laidOut
  rw [linkLayout] at hlaid
  obtain ⟨bump, -, hlink⟩ := Option.bind_eq_some_iff.mp hlaid
  obtain ⟨hle, -, hsize, -, -⟩ := Layout.extend_some hlink
  have hpos := T.linkCell_pos
  show 0 < p.layout.size
  omega

/-- A fresh block is not on the heap yet. -/
theorem Fresh.links_eq_none (h : Fresh σ p) : σ.links p = none := by
  cases hl : σ.links p with
  | none => rfl
  | some l =>
    have hpos := p.block_pos
    have hapart := h p l hl
    unfold Span.Apart Span.stop at hapart
    omega

variable [DecidableEq I]

@[simp] theorem root_setRoot_self {r : Option (LinkPtr T)} : (σ.setRoot i r).root i = r := by
  show (Function.update σ.roots i (some r) i).getD none = r
  rw [Function.update_self]
  rfl

theorem root_setRoot_of_ne {r : Option (LinkPtr T)} (h : j ≠ i) :
    (σ.setRoot i r).root j = σ.root j := by
  show (Function.update σ.roots i (some r) j).getD none = σ.root j
  rw [Function.update_of_ne h]
  rfl

@[simp] theorem root_forget_self : (σ.forget i).root i = none := by
  show (Function.update σ.roots i none i).getD none = none
  rw [Function.update_self]
  rfl

theorem root_forget_of_ne (h : j ≠ i) : (σ.forget i).root j = σ.root j := by
  show (Function.update σ.roots i none j).getD none = σ.root j
  rw [Function.update_of_ne h]
  rfl

/-- **Dropping a chain** frees the links of its list. -/
theorem drop_ok (h : Owns σ L) (i : I) :
    ∃ τ, (∀ fuel, (L i).length ≤ fuel → drop fuel σ i = .ok (some τ)) ∧
      Freed (σ.forget i) τ (keys (L i)) ∧ Owns τ (Function.update L i []) := by
  have hlinked : Linked (read (σ.setRoot i none)) (σ.root i) (L i) := h.linked i
  obtain ⟨τ, hfreed, hτ⟩ := chainLoop_ok hlinked
  have hfreed' : Freed (σ.forget i) (τ.forget i) (keys (L i)) := by
    refine ⟨hfreed.links, hfreed.freed, ?_, hfreed.allocated⟩
    show Function.update τ.roots i none = Function.update σ.roots i none
    rw [hfreed.roots]
    exact Function.update_idem _ _ _
  have hroots : ∀ k, (τ.forget i).root k = (σ.forget i).root k := fun k => by
    rw [State.root, hfreed'.roots, State.root]
  refine ⟨τ.forget i, fun fuel hfuel => ?_, hfreed', ?_, ?_, ?_⟩
  · rw [drop, hτ fuel hfuel]
    rfl
  · refine h.clear ((hroots i).trans root_forget_self) (fun j hj => ?_)
      (fun p hp => hfreed'.read_eq_none hp) fun p hp => hfreed'.read_eq hp
    exact (hroots j).trans (root_forget_of_ne hj)
  · exact LevelsFit.freed (σ := σ.forget i) h.levels hfreed'
  · exact Balanced.freed (σ := σ.forget i) h.balanced hfreed' (h.linked i).nodup fun p hp =>
      h.links_ne_none hp

/-- The first link of chain `j` in front of chain `i`, and chain `j` gone; the links
behind the first are on no list. -/
def State.relink (σ : State T I) (p : LinkPtr T) (n : ℕ) (i j : I) : State T I :=
  ((σ.setLink p ⟨σ.root i, n⟩).setRoot i (some p)).forget j

theorem root_relink_self (hne : j ≠ i) : (σ.relink p n i j).root i = some p :=
  (root_forget_of_ne (Ne.symm hne)).trans root_setRoot_self

theorem root_relink_of_ne {k : I} (hi : k ≠ i) :
    (σ.relink p n i j).root k = (σ.forget j).root k := by
  by_cases hj : k = j
  · rw [hj, State.relink, root_forget_self, root_forget_self]
  · rw [State.relink, root_forget_of_ne hj, root_forget_of_ne hj]
    exact root_setRoot_of_ne hi

/-- `chain` relinks, and frees what is on no list any more. -/
theorem chain_relinks {rest : List (LinkPtr T × ℕ)} (hne : j ≠ i)
    (hlinked : Linked (read σ) (σ.root j) ((p, n) :: rest)) :
    ∃ τ, (∀ fuel, rest.length ≤ fuel → chain fuel σ i j = .ok (some τ)) ∧
      Freed (σ.relink p n i j) τ (keys rest) := by
  have hp : p ∉ keys rest := (List.nodup_cons.mp hlinked.nodup).1
  obtain ⟨hroot, next, hread, hrest⟩ := hlinked.of_cons
  obtain ⟨τ, hfreed, hτ⟩ := setNext_ok (σ := σ.setRoot i none) hread hrest hp (σ.root i)
  have hroot' : τ.root j = some p := by
    rw [State.root, hfreed.roots]
    exact (root_setRoot_of_ne hne).trans hroot
  refine ⟨(((τ.setRoot j none).setRoot i (some p)).setRoot j none).forget j,
    fun fuel hfuel => ?_, hfreed.links, hfreed.freed, ?_, hfreed.allocated⟩
  · rw [chain]
    simp only [root_setRoot_of_ne hne, hroot, hτ fuel hfuel, ok_bind, hroot', drop,
      root_setRoot_self, chainLoop_none]
    rfl
  · show Function.update (Function.update (Function.update (Function.update τ.roots j _) i _)
      j _) j none = Function.update (Function.update σ.roots i _) j none
    have hroots : τ.roots = Function.update σ.roots i (some none) := hfreed.roots
    rw [hroots, Function.update_idem, Function.update_comm hne, Function.update_idem,
      Function.update_idem]

/-- Off the list of the argument the heap is as it was. -/
theorem links_of_relink {rest : List (LinkPtr T × ℕ)}
    (hfreed : Freed (σ.relink p n i j) τ (keys rest)) {q : LinkPtr T}
    (hq : q ∉ keys ((p, n) :: rest)) : τ.links q = σ.links q := by
  have hnot : q ≠ p ∧ q ∉ keys rest := by simpa using hq
  rw [hfreed.links, if_neg hnot.2]
  exact setLink_links_of_ne hnot.1

/-- The first link leads on to the other chain. -/
theorem read_of_relink {rest : List (LinkPtr T × ℕ)} (hp : p ∉ keys rest)
    (hfreed : Freed (σ.relink p n i j) τ (keys rest)) : read τ p = some (σ.root i, n) := by
  refine read_of_links ?_
  rw [hfreed.links, if_neg hp]
  exact setLink_links_self

/-- **Chaining** keeps the invariant: the list of the argument goes away, and its first
link comes back in front of the other list. -/
theorem Owns.relink (h : Owns σ L) (hne : j ≠ i) {rest : List (LinkPtr T × ℕ)}
    (hj : L j = (p, n) :: rest) (hfreed : Freed (σ.relink p n i j) τ (keys rest)) :
    Owns τ (Function.update (Function.update L j []) i ((p, n) :: L i)) := by
  have hnodup := hj ▸ (h.linked j).nodup
  have hp : p ∉ keys rest := (List.nodup_cons.mp hnodup).1
  have hpj : p ∈ keys (L j) := by simp [hj]
  have hroots : ∀ k, τ.root k = (σ.relink p n i j).root k := fun k => by
    rw [State.root, hfreed.roots, State.root]
  refine ⟨?_, ?_, ?_⟩
  · have hcleared : Threaded (fun q => if q ∈ keys (L j) then none else read σ q)
        (σ.forget j).root (Function.update L j []) :=
      h.clear root_forget_self (fun k hk => root_forget_of_ne hk) (fun q hq => if_pos hq)
        fun q hq => if_neg hq
    have hi : Function.update L j [] i = L i := Function.update_of_ne (Ne.symm hne) _ _
    rw [← hi]
    refine hcleared.push (if_pos hpj) ((hroots i).trans (root_relink_self hne))
      (fun k hk => (hroots k).trans (root_relink_of_ne hk)) ?_ fun q hq => ?_
    · rw [root_forget_of_ne (Ne.symm hne)]
      exact read_of_relink hp hfreed
    · by_cases hqj : q ∈ keys (L j)
      · rw [hj] at hqj
        rw [if_pos (hj ▸ hqj), hfreed.read_eq_none (List.mem_of_ne_of_mem hq hqj)]
      · rw [if_neg hqj, read, links_of_relink hfreed (hj ▸ hqj), read]
  · obtain ⟨next, hlink⟩ := h.links (i := j) (hj ▸ List.mem_cons_self)
    have hfits : n ≤ p.capacity := h.levels p _ hlink
    exact LevelsFit.freed (σ := σ.relink p n i j)
      (h.levels.setLink (k := ⟨σ.root i, n⟩) hfits) hfreed
  · refine Balanced.freed (σ := σ.relink p n i j) (h.balanced.setLink (h.links_ne_none hpj)) hfreed
      (List.nodup_cons.mp hnodup).2 fun q hq => ?_
    have hqp : q ≠ p := fun heq => hp (heq ▸ hq)
    have hqj : q ∈ keys (L j) := hj ▸ List.mem_cons_of_mem _ hq
    have hkeep : (σ.relink p n i j).links q = σ.links q := setLink_links_of_ne hqp
    rw [hkeep]
    exact h.links_ne_none hqj

/-- What `chain` makes of the lists: the first link of the argument goes in front, and
the links behind it are freed. -/
structure Chained (σ τ : State T I) (L : I → List (LinkPtr T × ℕ)) (i j : I) : Prop where
  linked : Linked (read τ) (τ.root i) ((L j).take 1 ++ L i)
  freed : τ.freed = σ.freed + (keys ((L j).drop 1) : Multiset (LinkPtr T))
  consumed : τ.roots j = none
  /-- What is still on the heap is as full as it was. -/
  levels : ∀ p l, τ.links p = some l → ∃ l', σ.links p = some l' ∧ l'.index = l.index

/-- Chaining with a chain that has no link only drops that chain. -/
theorem chain_nil (hi : σ.roots i ≠ none) (hne : j ≠ i) (hroot : σ.root j = none) {fuel : ℕ} :
    chain fuel σ i j = drop fuel σ j := by
  have hback : (σ.setRoot i none).setRoot i (σ.root i) = σ := by
    obtain ⟨r, hr⟩ := Option.ne_none_iff_exists'.mp hi
    have hrooti : some (σ.root i) = σ.roots i := by
      rw [State.root, hr]
      rfl
    simp only [State.setRoot, Function.update_idem, hrooti, Function.update_eq_self]
  rw [chain]
  simp only [root_setRoot_of_ne hne, hroot, hback]

/-- What relinking makes of the lists. -/
theorem Owns.chained (h : Owns σ L) (hne : j ≠ i) {rest : List (LinkPtr T × ℕ)}
    (hj : L j = (p, n) :: rest) (hfreed : Freed (σ.relink p n i j) τ (keys rest)) :
    Chained σ τ L i j := by
  have hp : p ∉ keys rest := by
    have hnodup := (h.linked j).nodup
    rw [hj] at hnodup
    exact (List.nodup_cons.mp hnodup).1
  refine ⟨?_, ?_, ?_, ?_⟩
  · have hlinked := (h.relink hne hj hfreed).linked i
    rw [Function.update_self] at hlinked
    rw [hj]
    exact hlinked
  · rw [hfreed.freed, hj]
    rfl
  · rw [hfreed.roots]
    exact Function.update_self _ _ _
  · intro q l hl
    by_cases hq : q ∈ keys ((p, n) :: rest)
    · rcases List.mem_cons.mp hq with rfl | hq
      · obtain ⟨next, hlink⟩ := h.links (i := j) (hj ▸ List.mem_cons_self)
        have hread := read_of_links hl
        rw [read_of_relink hp hfreed] at hread
        exact ⟨_, hlink, (Prod.mk.inj (Option.some.inj hread)).2⟩
      · rw [hfreed.links, if_pos hq] at hl
        exact absurd hl (by simp)
    · rw [links_of_relink hfreed hq] at hl
      exact ⟨l, hl, rfl⟩

/-- **`chain`.**  The first link of the argument goes in front, the others are freed. -/
theorem chain_ok (h : Owns σ L) (hi : σ.roots i ≠ none) (hne : j ≠ i) :
    ∃ τ, (∀ fuel, (L j).length ≤ fuel → chain fuel σ i j = .ok (some τ)) ∧ Chained σ τ L i j ∧
      Owns τ (Function.update (Function.update L j []) i ((L j).take 1 ++ L i)) := by
  cases hj : L j with
  | nil =>
    have hroot : σ.root j = none := by
      cases hr : σ.root j with
      | none => rfl
      | some p =>
        have hlinked := h.linked j
        rw [hr, hj] at hlinked
        cases hlinked
    obtain ⟨τ, hτ, hfreed, howns⟩ := drop_ok h j
    have hlists : Function.update (Function.update L j []) i (([] : List _).take 1 ++ L i) =
        Function.update L j [] := by
      have hLi : ([] : List _).take 1 ++ L i = Function.update L j [] i :=
        (Function.update_of_ne (Ne.symm hne) _ _).symm
      rw [hLi, Function.update_eq_self]
    rw [hj] at hτ hfreed
    refine ⟨τ, fun fuel hfuel => ?_, ⟨?_, ?_, ?_, ?_⟩, by rwa [hlists]⟩
    · rw [chain_nil hi hne hroot]
      exact hτ fuel hfuel
    · have hlinked := howns.linked i
      rw [Function.update_of_ne (Ne.symm hne)] at hlinked
      rw [hj]
      exact hlinked
    · rw [hfreed.freed, hj]
      rfl
    · rw [hfreed.roots]
      exact Function.update_self _ _ _
    · intro p l hl
      have hkeep := hfreed.links p
      rw [if_neg (by simp)] at hkeep
      exact ⟨l, hkeep.symm.trans hl, rfl⟩
  | cons kv rest =>
    obtain ⟨p, n⟩ := kv
    obtain ⟨τ, hτ, hfreed⟩ := chain_relinks hne (hj ▸ h.linked j)
    exact ⟨τ, fun fuel hfuel => hτ fuel (Nat.le_of_succ_le hfuel), h.chained hne hj hfreed,
      h.relink hne hj hfreed⟩

/-! ## The other operations -/

/-- **`Chain::new`** makes a list of one link, or fails and changes nothing. -/
theorem new_owns (h : Owns σ L) (hdead : σ.roots i = none) {size : ℕ} {grant : Option (LinkPtr T)}
    (hgrant : ∀ p ∈ grant, Fresh σ p) : ∃ L', Owns (new σ i size grant).1 L' := by
  rw [new, linkAlloc]
  cases linkLayout T size with
  | none => exact ⟨L, h⟩
  | some layout =>
    cases grant with
    | none => exact ⟨L, h⟩
    | some p =>
      have hp := (hgrant p rfl).links_eq_none
      have hroot : σ.root i = none := by rw [State.root, hdead]; rfl
      refine ⟨Function.update L i ((p, 0) :: L i), ?_, ?_, Balanced.alloc h.balanced hp⟩
      · refine h.push (by rw [read, hp]; rfl) root_setRoot_self
          (fun j hj => root_setRoot_of_ne hj) ?_ fun q hq => ?_
        · rw [hroot]
          exact read_of_links setLink_links_self
        · exact read_setLink_of_ne (σ := σ) hq
      · exact LevelsFit.setLink (σ := σ) h.levels (Nat.zero_le _)

/-- The level of the first link may move inside its capacity. -/
theorem Owns.setIndex (h : Owns σ L) {rest : List (LinkPtr T × ℕ)} {next : Option (LinkPtr T)}
    {m : ℕ} (hi : L i = (p, n) :: rest) (hread : read σ p = some (next, n))
    (hm : m ≤ p.capacity) :
    Owns (σ.setLink p ⟨next, m⟩) (Function.update L i ((p, m) :: rest)) := by
  have hp : σ.links p ≠ none := by simp [links_of_read hread]
  refine ⟨?_, h.levels.setLink hm, h.balanced.setLink hp⟩
  exact h.setFront hi hread (read_of_links setLink_links_self) fun q hq =>
    read_setLink_of_ne hq

/-- **`bump_box`** only moves the level of the first link, or panics at a type without
a size. -/
theorem bumpBox_owns {b : Build} (h : Owns σ L) (i : I) (V : Ty w) :
    (∃ τ r, bumpBox b σ i V = .ok (τ, r) ∧ ∃ L', Owns τ L') ∨
      V.size = 0 ∧ bumpBox b σ i V = .error (.panic "layout.size() > 0") := by
  have hlinked := h.linked i
  cases hroot : σ.root i with
  | none => exact .inl ⟨σ, .error .exhausted, by rw [bumpBox, hroot], L, h⟩
  | some p =>
    rw [hroot] at hlinked
    obtain ⟨n, next, rest, hread, hi, hrest⟩ := hlinked.of_some
    have hlink := links_of_read hread
    have hle : n ≤ p.storage.len := h.levels p _ hlink
    rcases Nat.eq_zero_or_pos V.size with hsize | hsize
    · refine .inr ⟨hsize, ?_⟩
      simp only [bumpBox, hroot, hlink, Unsync.bumpBox_of_size_eq_zero hsize, error_bind]
    · left
      obtain ⟨m, r, hbump, hm⟩ := Unsync.bumpBox_le (b := b) hsize hle
      refine ⟨_, r, ?_, _, h.setIndex hi hread hm⟩
      simp only [bumpBox, hroot, hlink, hbump, ok_bind]
      rfl

/-- **Every operation** ends, with an owner for every link, or is a `bump_box` that
panics. -/
theorem exec_owns {b : Build} (h : Owns σ L) {op : Op T I} (hop : Enabled σ op) :
    (∃ τ, Ends b σ op τ ∧ ∃ L', Owns τ L') ∨
      (∃ i V, op = .bumpBox i V ∧ V.size = 0) ∧ Panics b σ op := by
  cases op with
  | new i size grant =>
    exact .inl ⟨_, ⟨0, fun _ _ => rfl⟩, new_owns h hop.1 fun p hp => (hop.2 p hp).2⟩
  | bumpBox i V =>
    rcases bumpBox_owns (b := b) h i V with ⟨τ, r, heq, howns⟩ | ⟨hsize, hpanic⟩
    · refine .inl ⟨τ, ⟨0, fun fuel _ => ?_⟩, howns⟩
      rw [exec, heq]
      rfl
    · refine .inr ⟨⟨i, V, rfl, hsize⟩, "layout.size() > 0", fun fuel => ?_⟩
      rw [exec, hpanic]
      rfl
  | chain i new =>
    obtain ⟨hi, -, hne⟩ := hop
    obtain ⟨τ, hτ, -, howns⟩ := chain_ok h hi (Ne.symm hne)
    exact .inl ⟨τ, ⟨_, hτ⟩, _, howns⟩
  | drop i =>
    obtain ⟨τ, hτ, -, howns⟩ := drop_ok h i
    exact .inl ⟨τ, ⟨_, hτ⟩, _, howns⟩

/-! ## Runs -/

/-- What an operation ends in does not depend on the fuel. -/
theorem Ends.unique {b : Build} {op : Op T I} {τ' : State T I} (h : Ends b σ op τ)
    (h' : Ends b σ op τ') : τ = τ' := by
  obtain ⟨n, hn⟩ := h
  obtain ⟨m, hm⟩ := h'
  have heq := (hn (max n m) (le_max_left _ _)).symm.trans (hm (max n m) (le_max_right _ _))
  exact Option.some.inj (Except.ok.inj heq)

theorem Ends.not_panics {b : Build} {op : Op T I} (h : Ends b σ op τ) : ¬Panics b σ op := by
  rintro ⟨msg, hmsg⟩
  obtain ⟨n, hn⟩ := h
  exact absurd ((hn n le_rfl).symm.trans (hmsg n)) (by simp)

/-- **Every link has an owner** in every reachable state. -/
theorem reachable_owns {b : Build} (h : (machine b T I).Reachable σ) : ∃ L, Owns σ L := by
  refine h.invariant (I := fun σ => ∃ L, Owns σ L) (fun σ h₀ => ?_) fun σ op τ _ hI hstep => ?_
  · obtain rfl := h₀
    exact ⟨_, owns_empty⟩
  · obtain ⟨L, howns⟩ := hI
    obtain ⟨hop, hends | ⟨-, rfl⟩⟩ := hstep
    · rcases exec_owns (b := b) howns hop with ⟨τ', hends', howns'⟩ | ⟨-, hpanics⟩
      · rw [hends.unique hends']
        exact howns'
      · exact absurd hpanics hends.not_panics
    · exact ⟨L, howns⟩

/-- **Ownership.**  In every state a run over any number of chains can reach, the
links of every chain form a finite list without repetition, no link is on two lists,
and every link of a list is on the heap.  Every operation then ends in such a state or
stops at the assertion of `bump_box`: no link is used or freed after it was freed.
When all chains are gone every link has been freed as often as it was allocated.
`drop` frees the links of its chain; `chain` puts the first link of its argument in
front and frees the others. -/
theorem ownership {b : Build} (h : (machine b T I).Reachable σ) :
    ∃ L, Owns σ L ∧ (∀ i, (keys (L i)).Nodup) ∧
      (∀ i, ∀ p ∈ keys (L i), σ.links p ≠ none) ∧
      ((∀ i, σ.roots i = none) → σ.freed = σ.allocated) ∧
      (∀ i, ∃ n, Chain.remainingCapacity b σ i = .ok n ∧
        ∀ p l, σ.root i = some p → σ.links p = some l → n + l.index = p.capacity) ∧
      (∀ op, Enabled σ op → (∃ τ, Ends b σ op τ) ∨
        (∃ i V, op = .bumpBox i V ∧ V.size = 0) ∧ Panics b σ op) ∧
      (∀ i, ∃ τ, Ends b σ (.drop i) τ ∧ Freed (σ.forget i) τ (keys (L i))) ∧
      ∀ i j, Enabled σ (.chain i j) → ∃ τ, Ends b σ (.chain i j) τ ∧ Chained σ τ L i j := by
  obtain ⟨L, howns⟩ := reachable_owns h
  refine ⟨L, howns, fun i => (howns.linked i).nodup, fun i p hp => howns.links_ne_none hp,
    howns.freed_eq, howns.remainingCapacity, fun op hop => ?_, fun i => ?_, fun i j hop => ?_⟩
  · exact (exec_owns howns hop).imp_left fun ⟨τ, hends, _⟩ => ⟨τ, hends⟩
  · obtain ⟨τ, hτ, hfreed, -⟩ := drop_ok howns i
    exact ⟨τ, ⟨_, hτ⟩, hfreed⟩
  · obtain ⟨τ, hτ, hchained, -⟩ := chain_ok howns hop.1 (Ne.symm hop.2.2)
    exact ⟨τ, ⟨_, hτ⟩, hchained⟩

end Invariant

/-! ## Two chains -/

/-- A target of 64-bit words. -/
def sixtyFour : Target 64 where
  header := Ty.word
  linkCell := Ty.twoWords
  linkCell_pos := Ty.twoWords_pos

/-- A link of an arena of 64 bytes. -/
def linkAt (addr : ℕ) (nonnull : 0 < addr) (fits : addr + 88 ≤ 2 ^ 64) : LinkPtr sixtyFour where
  addr := addr
  capacity := 64
  layout := ⟨88, 8, Layout.isPowerOfTwo_eight, by decide⟩
  bumpOffset := 16
  laidOut := by decide
  nonnull := nonnull
  fits := fits

/-- The two links. -/
def first : LinkPtr sixtyFour := linkAt 4096 page_pos (by decide)

def second : LinkPtr sixtyFour := linkAt 8192 (by decide) (by decide)

/-- Two chains of one link each. -/
def twoChains : State sixtyFour ℕ :=
  (new (new (State.empty sixtyFour ℕ) 0 64 (some first)).1 1 64 (some second)).1

theorem reachable_twoChains {b : Build} : (machine b sixtyFour ℕ).Reachable twoChains := by
  have h₀ : (machine b sixtyFour ℕ).Reachable (State.empty sixtyFour ℕ) := .of_init rfl
  have h₁ : (machine b sixtyFour ℕ).Reachable
      (new (State.empty sixtyFour ℕ) 0 64 (some first)).1 := by
    refine h₀.tail (l := .new 0 64 (some first)) ⟨⟨rfl, ?_⟩, .inl ⟨0, fun _ _ => rfl⟩⟩
    rintro p ⟨⟩
    exact ⟨rfl, fun q l hl => absurd hl (by simp [State.empty])⟩
  refine h₁.tail (l := .new 1 64 (some second)) ⟨⟨rfl, ?_⟩, .inl ⟨0, fun _ _ => rfl⟩⟩
  rintro p ⟨⟩
  refine ⟨rfl, fun q l hl => ?_⟩
  have hq : q = first := by
    by_contra hne
    exact absurd ((Function.update_of_ne hne _ _).symm.trans hl) (by simp [State.empty])
  rw [hq]
  exact .inr (by decide)

/-- Chaining them leaves the second link in front of the first. -/
theorem ownership_twoChains : ∃ τ, Ends .debug twoChains (.chain 0 1) τ ∧
    Linked (read τ) (τ.root 0) [(second, 0), (first, 0)] ∧ τ.freed = 0 := by
  obtain ⟨L, howns, -, -, -, -, -, -, hchain⟩ := ownership (b := .debug) reachable_twoChains
  obtain ⟨τ, hends, hchained⟩ := hchain 0 1 ⟨by decide, by decide, by decide⟩
  have h₀ : L 0 = [(first, 0)] := (howns.linked 0).unique (.cons rfl .nil)
  have h₁ : L 1 = [(second, 0)] := (howns.linked 1).unique (.cons rfl .nil)
  refine ⟨τ, hends, ?_, ?_⟩
  · have hlinked := hchained.linked
    rw [h₀, h₁] at hlinked
    exact hlinked
  · rw [hchained.freed, h₁]
    rfl

end Chain
end StaticAlloc
