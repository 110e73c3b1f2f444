import StaticAlloc.Bump.Heaps
import StaticAlloc.LeakExt.Requests

/-!
# Owners of memory are apart

To its user an `Uninit`, a `Box`, a vector or a reference is a piece of memory of its own.
`owners` is that view: a variable has a number of bytes, each of them known or not, and there is
no allocator and no address.  What a request returns is unknown but for the value written to it;
a traversal may cut a piece in two; a `Box` has the value that was put into it until it is taken
out, and that is what its destructor finds.

`Represents` relates the two.  It keeps the pieces of two variables apart, and all of them in
what the allocator has handed out, which is why a new one lies apart from all.  An act changes one
variable (`Represents.assign`); it writes at most to its piece, and the new piece is part of the
old one, or comes from the allocator.  `matched` says that every act a program may do ends, and
that the owners can do the same.
-/

namespace StaticAlloc

open Toolkit
open Bump (Chunk)

variable {w : ℕ} {β ι σ : Type}

/-- The first bytes of a chunk are written. -/
def Bump.Chunk.put (c : Chunk β) (val : List β) : Chunk β :=
  ⟨c.size, fun k => val[k]?.or (c.known k)⟩

namespace LeakExt

/-! ## Owners -/

/-- The variables of a program, and the pieces of memory they have. -/
abbrev Estate (ι β : Type) := ι → Option (Chunk β)

/-- The bytes a program sees are those that are known, where they are. -/
def Agrees (c : Chunk β) (val : List β) : Prop :=
  ∀ k b, val[k]? = some b → ∀ b' ∈ c.known k, b = b'

/-- What an act does where variables have memory of their own, and what may be replied.  Whether
a request is granted is not determined, nor how a piece is cut. -/
inductive Does [DecidableEq ι] (π : Estate ι β) : Act w ι β → Reply β → Estate ι β → Prop where
  | granted {act : Act w ι β} {x : ι} {l : Layout w} {val : List β} {n : ℕ} :
      act.request = some (x, some l, val) → π x = none → l.size ≤ n →
      Does π act .done (Function.update π x (some ((Chunk.new n none).put val)))
  | refused {act : Act w ι β} {r : ι × Option (Layout w) × List β} : act.request = some r →
      Does π act .refused π
  | whole {x y : ι} {op : Traversal w} : Does π (.traverse x y op) .done π
  | cut {x y : ι} {op : Traversal w} {c : Chunk β} {n n' : ℕ} : π x = some c → π y = none →
      n + n' = c.size → Does π (.traverse x y op) .done (Function.update
        (Function.update π x (some (.new n none))) y (some (.new n' none)))
  | init {x : ι} {val : List β} {c : Chunk β} : π x = some c → val.length ≤ c.size →
      Does π (.init x val) .done
        (Function.update π x (some ((c.put val).resize val.length)))
  | boxNew {x : ι} {val : List β} {c : Chunk β} : π x = some c → val.length ≤ c.size →
      Does π (.boxNew x val) .done (Function.update π x (some (c.put val)))
  | vecNew {x : ι} : Does π (.vecNew x) .done π
  | rcNew {x : ι} {B : Rc.Types w} {val : List β} {c : Chunk β} : π x = some c →
      val.length ≤ c.size →
      Does π (.rcNew x B val) .done (Function.update π x (some (c.put val)))
  | vecShrink {x y : ι} {c : Chunk β} {n : ℕ} : π x = some c → π y = none → n ≤ c.size →
      Does π (.vecShrink x y) .done (Function.update
        (Function.update π x (some (c.resize n))) y (some (.new (c.size - n) none)))
  | boxTake {x : ι} {T : Ty w} {c : Chunk β} {val : List β} : π x = some c →
      val.length = T.size → T.size ≤ c.size → Agrees c val →
      Does π (.boxTake x T) (.saw val) (Function.update π x (some (.new c.size none)))
  | boxIntoRaw {x : ι} : Does π (.boxIntoRaw x) .done π
  | boxFromRaw {x : ι} : Does π (.boxFromRaw x) .done π
  | boxLeak {x : ι} {T : Ty w} {c : Chunk β} : π x = some c → T.size ≤ c.size →
      Does π (.boxLeak x T) .done (Function.update π x (some (c.resize T.size)))
  | boxDrop {x : ι} {T : Ty w} {c : Chunk β} {val : List β} : π x = some c →
      val.length = T.size → T.size ≤ c.size → Agrees c val →
      Does π (.boxDrop x T) (.saw val) (Function.update π x none)
  | write {x : ι} {k : ℕ} {b : β} {c : Chunk β} : π x = some c → k < c.size →
      Does π (.write x k b) .done (Function.update π x (some (c.write k b)))
  | read {x : ι} {k : ℕ} {b : β} {c : Chunk β} : π x = some c → k < c.size →
      (∀ b' ∈ c.known k, b = b') → Does π (.read x k) (.saw [b]) π
  | release {x : ι} : Does π (.release x) .done (Function.update π x none)

/-- Programs whose variables have memory of their own. -/
def owners (w : ℕ) (ι β : Type) [DecidableEq ι] :
    Machine (Estate ι β) (Act w ι β × Reply β) where
  init π := ∀ x, π x = none
  step π l π' := Does π l.1 l.2 π'

/-! ## Pieces of memory -/

variable {m m' : Bytes β} {s b : Span} {c : Chunk β} {val : List β} {n : ℕ}

/-- The bytes of a span are what is known of a chunk. -/
structure Holds (m : Bytes β) (s : Span) (c : Chunk β) : Prop where
  size : c.size = s.size
  known : ∀ k < s.size, ∀ b ∈ c.known k, m (s.start + k) = b

theorem mem_span {k : ℕ} (hk : k < s.size) : s.start + k ∈ s.addresses :=
  Span.mem_addresses.mpr ⟨Nat.le_add_right _ _, Nat.add_lt_add_left hk _⟩

theorem Holds.congr (h : Holds m s c) (heq : Set.EqOn m' m s.addresses) : Holds m' s c := by
  refine ⟨h.size, fun k hk b hb => ?_⟩
  rw [heq (mem_span hk)]
  exact h.known k hk b hb

/-- Of a piece of which nothing is known, nothing is asked. -/
theorem holds_new : Holds m s (.new s.size none) :=
  ⟨rfl, fun _ _ _ hb => absurd hb (by simp [Chunk.new])⟩

theorem Holds.put (h : Holds m s c) (val : List β) :
    Holds (m.put s.start val) s (c.put val) := by
  refine ⟨h.size, fun k hk b hb => ?_⟩
  have hb' : val[k]?.or (c.known k) = some b := hb
  cases hval : val[k]? with
  | none =>
    rw [hval, Option.none_or] at hb'
    rw [Bytes.put_at_none hval]
    exact h.known k hk b hb'
  | some b' =>
    rw [hval, Option.some_or] at hb'
    rw [Bytes.put_at hval]
    exact Option.some.inj hb'

/-- The first bytes of a piece. -/
theorem Holds.resize (h : Holds m s c) (hn : n ≤ s.size) :
    Holds m ⟨s.start, n⟩ (c.resize n) := by
  refine ⟨rfl, fun k hk b hb => ?_⟩
  have hlt : k < min c.size n := lt_min (h.size ▸ hk.trans_le hn) hk
  simp only [Chunk.resize, if_pos hlt] at hb
  exact h.known k (hk.trans_le hn) b hb

theorem Holds.write (h : Holds m s c) (k : ℕ) (b : β) :
    Holds (m.put (s.start + k) [b]) s (c.write k b) := by
  refine ⟨h.size, fun q hq b' hb' => ?_⟩
  by_cases hqk : q = k
  · subst hqk
    obtain rfl : b = b' := by simpa [Chunk.write] using hb'
    exact Bytes.put_at (k := 0) rfl
  · have hne : s.start + q ∉ (Span.mk (s.start + k) 1).addresses := by
      rw [Span.mem_addresses]
      show ¬ (s.start + k ≤ s.start + q ∧ s.start + q < s.start + k + 1)
      omega
    have heq := Bytes.put_eqOn (m := m) (l := [b]) (A := {s.start + q})
      (Set.disjoint_singleton_left.mpr hne) rfl
    rw [heq]
    refine h.known q hq b' ?_
    simpa only [Chunk.write, Function.update_of_ne hqk] using hb'

/-- What is read of a piece agrees with what is known. -/
theorem Holds.agrees (h : Holds m s c) (hn : n ≤ s.size) : Agrees c (m.get s.start n) := by
  intro k b hb b' hb'
  have hk : k < n := by
    have hlt := (List.getElem?_eq_some_iff.mp hb).1
    rwa [Bytes.get_length] at hlt
  rw [Bytes.get_at hk] at hb
  exact (Option.some.inj hb).symm.trans (h.known k (hk.trans_le hn) b' hb')

/-! ## The relation -/

variable {A : Allocator w σ}

/-- What a variable holds, and the piece it has. -/
inductive Matches (m : Bytes β) : Option (Handle w) → Option (Chunk β) → Prop where
  | none : Matches m none none
  | some {g : Handle w} {c : Chunk β} : Holds m g.span c → Matches m (some g) (some c)

/-- The program is one whose variables have memory of their own. -/
structure Represents (A : Allocator w σ) (st : State w ι β σ) (π : Estate ι β) : Prop where
  ready : A.Ready st.alloc
  holds : ∀ x, Matches st.bytes (st.vars x) (π x)
  used : ∀ x g, st.vars x = some g → g.span.addresses ⊆ A.used st.alloc
  apart : ∀ x y g g', x ≠ y → st.vars x = some g → st.vars y = some g' →
    Disjoint g.span.addresses g'.span.addresses
  sound : ∀ x g, st.vars x = some g → g.Sound

namespace Represents

variable {st : State w ι β σ} {π : Estate ι β} {x y : ι} {g g' : Handle w} {alloc : σ}

/-- The piece of a variable that holds something. -/
theorem chunk (h : Represents A st π) (hx : st.vars x = some g) :
    ∃ c, π x = some c ∧ Holds st.bytes g.span c := by
  have hmatch := h.holds x
  rw [hx] at hmatch
  generalize hπ : π x = o at hmatch
  cases hmatch with
  | some hc => exact ⟨_, rfl, hc⟩

theorem ne_of_vars (_ : Represents A st π) (hx : st.vars x = some g) (hy : st.vars y = none) :
    y ≠ x := by
  rintro rfl
  exact absurd (hx.symm.trans hy) (by simp)

theorem free (h : Represents A st π) (hx : st.vars x = none) : π x = none := by
  have hmatch := h.holds x
  rw [hx] at hmatch
  generalize hπ : π x = o at hmatch
  cases hmatch with
  | none => rfl

/-- Reading and writing where a handle is. -/
theorem in_region (h : Represents A st π) (hx : st.vars x = some g) (hn : n ≤ g.span.size) :
    n = 0 ∨ InRegion A.region g.span.start n :=
  inRegion_of_subset ((h.used x g hx).trans (A.used_subset h.ready)) hn

theorem in_region_at (h : Represents A st π) (hx : st.vars x = some g) {k : ℕ}
    (hk : k < g.span.size) : InRegion A.region (g.span.start + k) 1 := by
  have hpos : g.span.size ≠ 0 := Nat.ne_of_gt (Nat.zero_lt_of_lt hk)
  obtain ⟨hstart, hstop⟩ := (h.in_region hx le_rfl).resolve_left hpos
  exact ⟨hstart.trans (Nat.le_add_right _ _), by omega⟩

theorem write_ok (h : Represents A st π) (hx : st.vars x = some g)
    (hval : val.length ≤ g.span.size) :
    ptrWrite A.region st.bytes g.span.start val = .ok (st.bytes.put g.span.start val) :=
  if_pos (h.in_region hx hval)

theorem read_ok (h : Represents A st π) (hx : st.vars x = some g) (hn : n ≤ g.span.size) :
    ptrRead A.region st.bytes g.span.start n = .ok (st.bytes.get g.span.start n) :=
  if_pos (h.in_region hx hn)

variable [DecidableEq ι]

/-- **One variable changes.**  The others keep their pieces and the bytes in them. -/
theorem assign (h : Represents A st π) {o : Option (Handle w)} {oc : Option (Chunk β)}
    (hready : A.Ready alloc) (hmono : A.used st.alloc ⊆ A.used alloc) (hmatch : Matches m o oc)
    (hnew : ∀ g ∈ o, g.Sound ∧ g.span.addresses ⊆ A.used alloc ∧
      ∀ y g', y ≠ x → st.vars y = some g' → Disjoint g.span.addresses g'.span.addresses)
    (hframe : ∀ y g, y ≠ x → st.vars y = some g → Set.EqOn m st.bytes g.span.addresses) :
    Represents A { st.assign x o with alloc := alloc, bytes := m } (Function.update π x oc) where
  ready := hready
  holds y := by
    show Matches m (Function.update st.vars x o y) (Function.update π x oc y)
    by_cases hy : y = x
    · subst hy
      rw [Function.update_self, Function.update_self]
      exact hmatch
    · rw [Function.update_of_ne hy, Function.update_of_ne hy]
      have hold := h.holds y
      cases hg : st.vars y with
      | none =>
        rw [h.free hg]
        exact .none
      | some g =>
        obtain ⟨c, hc, hholds⟩ := h.chunk hg
        rw [hc]
        exact .some (hholds.congr (hframe y g hy hg))
  used y g hg := by
    replace hg : Function.update st.vars x o y = some g := hg
    by_cases hy : y = x
    · subst hy
      rw [Function.update_self] at hg
      exact (hnew g hg).2.1
    · rw [Function.update_of_ne hy] at hg
      exact (h.used y g hg).trans hmono
  apart y z g g' hne hg hg' := by
    replace hg : Function.update st.vars x o y = some g := hg
    replace hg' : Function.update st.vars x o z = some g' := hg'
    by_cases hy : y = x
    · subst hy
      rw [Function.update_self] at hg
      rw [Function.update_of_ne (Ne.symm hne)] at hg'
      exact (hnew g hg).2.2 z g' (Ne.symm hne) hg'
    · rw [Function.update_of_ne hy] at hg
      by_cases hz : z = x
      · subst hz
        rw [Function.update_self] at hg'
        exact ((hnew g' hg').2.2 y g hne hg).symm
      · rw [Function.update_of_ne hz] at hg'
        exact h.apart y z g g' hne hg hg'
  sound y g hg := by
    replace hg : Function.update st.vars x o y = some g := hg
    by_cases hy : y = x
    · subst hy
      rw [Function.update_self] at hg
      exact (hnew g hg).1
    · rw [Function.update_of_ne hy] at hg
      exact h.sound y g hg

/-- A variable gets a block that was not handed out before. -/
theorem grant (h : Represents A st π) (x : ι) {l : Layout w}
    (hready : A.Ready alloc) (hmono : A.used st.alloc ⊆ A.used alloc)
    (hgrant : Grants A st.alloc alloc l b) (hsound : g.Sound) (hstart : g.span.start = b.start)
    (hsize : g.span.size ≤ b.size) (hval : val.length ≤ b.size) :
    Represents A { st.assign x (some g) with
        alloc := alloc, bytes := st.bytes.put b.start val }
      (Function.update π x (some ((Chunk.new g.span.size none).put val))) := by
  have hsub : g.span.addresses ⊆ b.addresses :=
    Span.addresses_subset hstart.ge (by
      rw [Span.stop, Span.stop, hstart]
      exact Nat.add_le_add_left hsize _)
  have hfresh : ∀ y g', y ≠ x → st.vars y = some g' → Disjoint b.addresses g'.span.addresses :=
    fun y g' _ hg' => hgrant.fresh.mono_right (h.used y g' hg')
  refine h.assign hready hmono (.some ?_) ?_ ?_
  · rw [← hstart]
    exact holds_new.put val
  · intro g₁ hg₁
    obtain rfl := Option.some.inj hg₁
    exact ⟨hsound, hsub.trans hgrant.subset, fun y g' hy hg' => (hfresh y g' hy hg').mono_left hsub⟩
  · intro y g' hy hg'
    refine Bytes.put_eqOn ((hfresh y g' hy hg').symm.mono_right ?_)
    exact Span.addresses_subset le_rfl (Nat.add_le_add_left hval _)

/-- The handle of a variable becomes another one of bytes that it had. -/
theorem change (h : Represents A st π) (hx : st.vars x = some g) (hsound : g'.Sound)
    (hsub : g'.span.addresses ⊆ g.span.addresses) (hholds : Holds m g'.span c)
    (hframe : ∀ B : Set ℕ, Disjoint B g.span.addresses → Set.EqOn m st.bytes B) :
    Represents A { st.assign x (some g') with bytes := m } (Function.update π x (some c)) := by
  refine h.assign h.ready Set.Subset.rfl (.some hholds) ?_ ?_
  · intro g₁ hg₁
    obtain rfl := Option.some.inj hg₁
    exact ⟨hsound, hsub.trans (h.used x g hx), fun y g₂ hy hg₂ =>
      (h.apart x y g g₂ (Ne.symm hy) hx hg₂).mono_left hsub⟩
  · exact fun y g₂ hy hg₂ => hframe _ (h.apart y x g₂ g hy hg₂ hx)

/-- Nothing in the memory changes. -/
theorem rename (h : Represents A st π) (hx : st.vars x = some g) (hsound : g'.Sound)
    (hsub : g'.span.addresses ⊆ g.span.addresses) (hholds : Holds st.bytes g'.span c) :
    Represents A (st.assign x (some g')) (Function.update π x (some c)) :=
  h.change hx hsound hsub hholds fun _ _ => Set.eqOn_refl _ _

/-- A value is written to the start of a piece. -/
theorem put (h : Represents A st π) (hx : st.vars x = some g) (hsound : g'.Sound)
    (hsub : g'.span.addresses ⊆ g.span.addresses) (hval : val.length ≤ g.span.size)
    (hholds : Holds (st.bytes.put g.span.start val) g'.span c) :
    Represents A { st.assign x (some g') with bytes := st.bytes.put g.span.start val }
      (Function.update π x (some c)) := by
  refine h.change hx hsound hsub hholds fun B hB => Bytes.put_eqOn (hB.mono_right ?_)
  exact Span.addresses_subset le_rfl (Nat.add_le_add_left hval _)

/-- A variable holds what it held under another name. -/
theorem same (h : Represents A st π) (hx : st.vars x = some g) (hsound : g'.Sound)
    (hspan : g'.span = g.span) : Represents A (st.assign x (some g')) π := by
  obtain ⟨c, hc, hholds⟩ := h.chunk hx
  have hrename := h.rename hx hsound (congrArg Span.addresses hspan).subset (c := c) (by
    rw [hspan]
    exact hholds)
  rwa [← hc, Function.update_eq_self] at hrename

theorem remove (h : Represents A st π) (x : ι) :
    Represents A (st.assign x none) (Function.update π x none) :=
  h.assign h.ready Set.Subset.rfl .none (fun g hg => absurd hg (by simp))
    fun _ _ _ _ => Set.eqOn_refl _ _

/-- A piece is cut in two. -/
theorem split (h : Represents A st π) (hx : st.vars x = some g) (y : ι)
    {g₁ g₂ : Handle w} {c₁ : Chunk β} (hs₁ : g₁.Sound) (hs₂ : g₂.Sound)
    (hhalves : Span.Halves g.span g₁.span g₂.span) (hholds : Holds st.bytes g₁.span c₁) :
    Represents A ((st.assign x (some g₁)).assign y (some g₂)) (Function.update
      (Function.update π x (some c₁)) y (some (.new g₂.span.size none))) := by
  have hsub₁ : g₁.span.addresses ⊆ g.span.addresses := by
    rw [hhalves.union]
    exact Set.subset_union_left
  have hsub₂ : g₂.span.addresses ⊆ g.span.addresses := by
    rw [hhalves.union]
    exact Set.subset_union_right
  refine (h.rename hx hs₁ hsub₁ hholds).assign h.ready Set.Subset.rfl (.some holds_new) ?_
    fun _ _ _ _ => Set.eqOn_refl _ _
  intro g' hg'
  obtain rfl := Option.some.inj hg'
  refine ⟨hs₂, hsub₂.trans (h.used x g hx), fun z g' hz hg' => ?_⟩
  replace hg' : Function.update st.vars x (some g₁) z = some g' := hg'
  by_cases hzx : z = x
  · subst hzx
    rw [Function.update_self] at hg'
    obtain rfl := Option.some.inj hg'
    exact hhalves.disjoint.symm
  · rw [Function.update_of_ne hzx] at hg'
    exact (h.apart x z g g' (Ne.symm hzx) hx hg').mono_left hsub₂

end Represents

/-! ## The simulation -/

section

variable {st : State w ι β σ} {π : Estate ι β} {act : Act w ι β} [DecidableEq ι]

/-- An act that is enabled ends, and the owners can do the same. -/
def Matched (A : Allocator w σ) (st : State w ι β σ) (π : Estate ι β) (act : Act w ι β) : Prop :=
  ∃ st' reply π', st.exec A act = .ok (st', reply) ∧ Does π act reply π' ∧ Represents A st' π'

theorem matched_request (h : Represents A st π) (hen : st.Enabled act) {x : ι}
    {l : Option (Layout w)} (hreq : act.request = some (x, l, val)) (hx : st.vars x = none)
    (hval : ∀ l' ∈ l, val.length ≤ l'.size) : Matched A st π act := by
  cases l with
  | none => exact ⟨_, _, π, exec_request_none hreq, .refused hreq, h⟩
  | some l =>
    obtain ⟨alloc, r, hserve, hready, hmono, hall⟩ := serve_returns h.ready l
    obtain ⟨res, hexec, hanswers⟩ := exec_request h.ready hreq hen hserve
    rcases hanswers with ⟨-, rfl⟩ | ⟨b, g, rfl, rfl, -, hsound, hstart, hlarge, hle⟩
    · refine ⟨_, _, π, hexec, .refused hreq, ⟨hready, h.holds, ?_, h.apart, h.sound⟩⟩
      exact fun y g hy => (h.used y g hy).trans hmono
    · refine ⟨_, _, _, hexec, .granted hreq (h.free hx) hlarge, ?_⟩
      exact h.grant x hready hmono (hall b rfl) hsound hstart hle
        ((hval l rfl).trans (hlarge.trans hle))

section Acts

variable {x y : ι} {T : Ty w} {k : ℕ}

/-- A request for a value of a type, or a copy of one. -/
theorem matched_request_sized (h : Represents A st π) (hen : st.Enabled act) {l : Layout w}
    (hreq : act.request = some (x, some l, val)) (hx : st.vars x = none)
    (hval : val.length ≤ l.size) : Matched A st π act := by
  refine matched_request h hen hreq hx fun l' hl => ?_
  obtain rfl := Option.some.inj hl
  exact hval

/-- A traversal makes one piece two, or leaves it as it is. -/
theorem matched_traverse (h : Represents A st π) {op : Traversal w} {v : AnyView w}
    (hx : st.vars x = some (.view v)) (hy : st.vars y = none) (hop : ∃ r, op.exec v = some r)
    (hexact : op.Exact v) : Matched A st π (.traverse x y op) := by
  obtain ⟨r, hr⟩ := hop
  obtain ⟨v', new, rfl, hdivides⟩ := exec_good hexact hr
  obtain ⟨c, hc, hholds⟩ := h.chunk hx
  cases new with
  | none =>
    have hy' : (st.assign x (some (.view v'))).vars y = none :=
      (Function.update_of_ne (h.ne_of_vars hx hy) _ _).trans hy
    have hfree : (st.assign x (some (.view v'))).assign y none =
        st.assign x (some (.view v')) := by
      rw [State.assign, ← hy', Function.update_eq_self]
    refine ⟨st.assign x (some (.view v')), .done, π, ?_, .whole,
      h.same hx (Handle.sound_view v') hdivides⟩
    rw [State.exec, hx]
    simp only [hr, ok_bind]
    exact congrArg (fun s => Except.ok (s, Reply.done)) hfree
  | some t =>
    have hhalves : Span.Halves v.span v'.span t.span := hdivides
    have hsizes : v'.span.size + t.span.size = c.size := by
      rw [hhalves.size, hholds.size]
      rfl
    refine ⟨_, .done, _, ?_, .cut hc (h.free hy) hsizes,
      h.split hx y (Handle.sound_view v') (Handle.sound_view t) hhalves holds_new⟩
    rw [State.exec, hx]
    simp only [hr, ok_bind]
    rfl

theorem matched_init (h : Represents A st π) {u : UninitView T}
    (hx : st.vars x = some (.view (.sized T u))) (hval : val.length = T.size) :
    Matched A st π (.init x val) := by
  obtain ⟨c, hc, hholds⟩ := h.chunk hx
  have hle : val.length ≤ (Handle.view (.sized T u)).span.size := hval.trans_le u.large
  have hwrite : ptrWrite A.region st.bytes u.ptr val = _ := h.write_ok hx hle
  refine ⟨_, .done, _, ?_, .init hc (hholds.size ▸ hle),
    h.put hx (Handle.sound_reference u) (Span.addresses_subset le_rfl ?_) hle ?_⟩
  · rw [State.exec, hx]
    simp only [UninitView.init, hwrite, ok_bind]
    rfl
  · exact Nat.add_le_add_left u.large _
  · have hresize := (hholds.put val).resize hle
    rwa [hval] at hresize ⊢

theorem matched_boxNew (h : Represents A st π) {u : UninitView T}
    (hx : st.vars x = some (.view (.sized T u))) (hval : val.length = T.size) :
    Matched A st π (.boxNew x val) := by
  obtain ⟨c, hc, hholds⟩ := h.chunk hx
  have hle : val.length ≤ (Handle.view (.sized T u)).span.size := hval.trans_le u.large
  have hwrite : ptrWrite A.region st.bytes u.ptr val = _ := h.write_ok hx hle
  refine ⟨_, .done, _, ?_, .boxNew hc (hholds.size ▸ hle),
    h.put hx (Handle.sound_boxed ⟨u⟩) Set.Subset.rfl hle (hholds.put val)⟩
  rw [State.exec, hx]
  simp only [Box.new_ok hwrite, ok_bind]
  rfl

theorem matched_vecNew (h : Represents A st π) {u : UninitSlice T}
    (hx : st.vars x = some (.view (.slice T u))) : Matched A st π (.vecNew x) := by
  refine ⟨_, .done, _, ?_, .vecNew, h.same hx (Handle.sound_vec (FixedVec.new u)) rfl⟩
  rw [State.exec, hx]

/-- What `Rc::new` does in memory that fits. -/
theorem exec_rcNew (h : Represents A st π) {B : Rc.Types w} {v : AnyView w}
    (hx : st.vars x = some (.view v)) (hfits : fits v.span.start v.span.size B.box.toLayout)
    (hval : val.length ≤ v.span.size) :
    ∃ inner : UninitView B.box, inner.span = v.span ∧
      st.exec A (.rcNew x B val) = .ok ({ st.assign x (some (.rc B inner)) with
        bytes := st.bytes.put v.span.start val }, .done) := by
  have hwrite := h.write_ok hx hval
  rw [State.exec, hx]
  cases v with
  | sized T u | slice T u =>
    obtain ⟨inner, hplace, hspan⟩ := Rc.place_ok (u := u.decast) hfits hwrite
    refine ⟨inner, hspan, ?_⟩
    simp only [hplace, ok_bind]
    rfl

theorem matched_rcNew (h : Represents A st π) {B : Rc.Types w} {v : AnyView w}
    (hx : st.vars x = some (.view v)) (hfits : fits v.span.start v.span.size B.box.toLayout)
    (hval : val.length = B.box.size) : Matched A st π (.rcNew x B val) := by
  obtain ⟨c, hc, hholds⟩ := h.chunk hx
  have hle : val.length ≤ (Handle.view v).span.size := hval.trans_le (fits_iff.mp hfits).2
  obtain ⟨inner, hspan, hexec⟩ := exec_rcNew h hx hfits hle
  have hsame : (Handle.rc B inner).span = (Handle.view v).span := hspan
  refine ⟨_, .done, _, hexec, .rcNew hc (hholds.size ▸ hle),
    h.put hx (Handle.sound_rc inner) (congrArg Span.addresses hsame).subset hle ?_⟩
  rw [hsame]
  exact hholds.put val

/-- A vector keeps the bytes of its elements, and the rest is a piece of its own. -/
theorem matched_vecShrink (h : Represents A st π) {v : FixedVec T}
    (hx : st.vars x = some (.vec T v)) (hy : st.vars y = none) :
    Matched A st π (.vecShrink x y) := by
  obtain ⟨c, hc, hholds⟩ := h.chunk hx
  obtain ⟨u, rest, hshrink, hu, hrest⟩ := v.uninit.shrinkToFit_ok
  have hle : v.uninit.capacity * T.size ≤ v.uninit.len := v.uninit.capacity_mul_le
  have hhalves : Span.Halves v.uninit.span u.span rest.span := by
    rw [hu, hrest]
    exact Span.halves_at v.uninit.span hle
  have hfirst : Holds st.bytes u.span (c.resize (v.uninit.capacity * T.size)) := by
    rw [hu]
    exact hholds.resize hle
  have hvec : Handle.Sound (.vec T { v with uninit := u }) := Handle.sound_vec _
  have hview : Handle.Sound (.view (.sized _ rest)) := Handle.sound_view _
  have hsplit := h.split hx y hvec hview hhalves hfirst
  have hsize : (Handle.view (.sized _ rest)).span.size =
      c.size - v.uninit.capacity * T.size := by
    rw [hholds.size]
    exact congrArg Span.size hrest
  rw [hsize] at hsplit
  refine ⟨_, .done, _, ?_, .vecShrink hc (h.free hy) (hholds.size ▸ hle), hsplit⟩
  rw [State.exec, hx]
  simp only [FixedVec.shrinkToFit, hshrink, ok_bind]
  rfl

section Box

variable {b : Box T} (hx : st.vars x = some (.boxed T b))

include hx

omit [DecidableEq ι] in
/-- The value of a box is read from its piece. -/
theorem Represents.read_box (h : Represents A st π) :
    ptrRead A.region st.bytes b.inner.ptr T.size = .ok (st.bytes.get b.inner.ptr T.size) :=
  h.read_ok hx b.inner.large

theorem matched_boxTake (h : Represents A st π) : Matched A st π (.boxTake x T) := by
  obtain ⟨c, hc, hholds⟩ := h.chunk hx
  refine ⟨_, .saw _, _, ?_, .boxTake hc Bytes.get_length (hholds.size ▸ b.inner.large)
    (hholds.agrees b.inner.large), h.rename hx (Handle.sound_view (.sized T b.intoRaw))
    Set.Subset.rfl (hholds.size ▸ holds_new)⟩
  rw [State.exec, hx]
  simp only [Box.take, h.read_box hx, ok_bind]
  rfl

theorem matched_boxIntoRaw (h : Represents A st π) : Matched A st π (.boxIntoRaw x) := by
  refine ⟨_, .done, _, ?_, .boxIntoRaw, h.same hx (Handle.sound_view (.sized T b.intoRaw)) rfl⟩
  rw [State.exec, hx]

theorem matched_boxLeak (h : Represents A st π) : Matched A st π (.boxLeak x T) := by
  obtain ⟨c, hc, hholds⟩ := h.chunk hx
  refine ⟨_, .done, _, ?_, .boxLeak hc (hholds.size ▸ b.inner.large),
    h.rename hx (Handle.sound_reference b.inner) (Span.addresses_subset le_rfl ?_)
      (hholds.resize b.inner.large)⟩
  · rw [State.exec, hx]
    rfl
  · exact Nat.add_le_add_left b.inner.large _

theorem matched_boxDrop (h : Represents A st π) : Matched A st π (.boxDrop x T) := by
  obtain ⟨c, hc, hholds⟩ := h.chunk hx
  refine ⟨_, .saw _, _, ?_, .boxDrop hc Bytes.get_length (hholds.size ▸ b.inner.large)
    (hholds.agrees b.inner.large), h.remove x⟩
  rw [State.exec, hx]
  simp only [Box.drop, h.read_box hx, ok_bind]
  rfl

end Box

theorem matched_boxFromRaw (h : Represents A st π) {u : UninitView T}
    (hx : st.vars x = some (.view (.sized T u))) : Matched A st π (.boxFromRaw x) := by
  refine ⟨_, .done, _, ?_, .boxFromRaw, h.same hx (Handle.sound_boxed (.fromRaw u)) rfl⟩
  rw [State.exec, hx]

theorem matched_write (h : Represents A st π) {g : Handle w} (hx : st.vars x = some g)
    (hk : k < g.span.size) (b : β) : Matched A st π (.write x k b) := by
  obtain ⟨c, hc, hholds⟩ := h.chunk hx
  have hwrite : ptrWrite A.region st.bytes (g.span.start + k) [b] =
      .ok (st.bytes.put (g.span.start + k) [b]) := if_pos (Or.inr (h.in_region_at hx hk))
  have hbyte : (Span.mk (g.span.start + k) 1).addresses ⊆ g.span.addresses :=
    Span.addresses_subset (Nat.le_add_right _ _) (by
      show g.span.start + k + 1 ≤ g.span.start + g.span.size
      omega)
  have hchange := h.change hx (h.sound x g hx) Set.Subset.rfl (hholds.write k b)
    fun B hB => Bytes.put_eqOn (hB.mono_right hbyte)
  have hsame : st.assign x (some g) = st := by
    rw [State.assign, ← hx, Function.update_eq_self]
  rw [hsame] at hchange
  refine ⟨_, .done, _, ?_, .write hc (hholds.size ▸ hk), hchange⟩
  rw [State.exec, hx]
  simp only [hwrite, ok_bind]
  rfl

theorem matched_read (h : Represents A st π) {g : Handle w} (hx : st.vars x = some g)
    (hk : k < g.span.size) : Matched A st π (.read x k) := by
  obtain ⟨c, hc, hholds⟩ := h.chunk hx
  have hread : ptrRead A.region st.bytes (g.span.start + k) 1 =
      .ok (st.bytes.get (g.span.start + k) 1) := if_pos (Or.inr (h.in_region_at hx hk))
  refine ⟨st, .saw [st.bytes (g.span.start + k)], π, ?_, .read hc (hholds.size ▸ hk)
    (hholds.known k hk), h⟩
  rw [State.exec, hx]
  simp only [hread, ok_bind]
  rfl

end Acts

/-- **Every act that is enabled ends, and the owners can do the same.** -/
theorem matched (h : Represents A st π) (hen : st.Enabled act) : Matched A st π act := by
  cases act with
  | allocLayout x layout => exact matched_request h hen rfl hen fun _ _ => Nat.zero_le _
  | allocT x V => exact matched_request h hen rfl hen fun _ _ => Nat.zero_le _
  | fixedVec x V n => exact matched_request h hen rfl hen fun _ _ => Nat.zero_le _
  | boxed x V val => exact matched_request_sized h hen rfl hen.1 hen.2.le
  | rc x B val => exact matched_request_sized h hen rfl hen.1 hen.2.2.le
  | copySlice x T slice val =>
    have hlen : val.length = slice.len * T.size := by rw [← hen.2, Bytes.get_length]
    exact matched_request_sized h hen rfl hen.1 (hlen.le.trans (Nat.mul_comm _ _).le)
  | copyDst x layout ptr val =>
    have hlen : val.length = layout.size := by rw [← hen.2.1, Bytes.get_length]
    exact matched_request_sized h hen rfl hen.1 hlen.le
  | traverse x y op =>
    obtain ⟨v, hx, hy, hop, hexact⟩ := hen
    exact matched_traverse h hx hy hop hexact
  | init x val =>
    obtain ⟨T, u, hx, hval⟩ := hen
    exact matched_init h hx hval
  | boxNew x val =>
    obtain ⟨T, u, hx, hval⟩ := hen
    exact matched_boxNew h hx hval
  | vecNew x =>
    obtain ⟨T, u, hx⟩ := hen
    exact matched_vecNew h hx
  | rcNew x B val =>
    obtain ⟨v, hx, hfits, hval⟩ := hen
    exact matched_rcNew h hx hfits hval
  | vecShrink x y =>
    obtain ⟨⟨T, v, hx⟩, hy⟩ := hen
    exact matched_vecShrink h hx hy
  | boxTake x T =>
    obtain ⟨b, hx⟩ := hen
    exact matched_boxTake hx h
  | boxIntoRaw x =>
    obtain ⟨T, b, hx⟩ := hen
    exact matched_boxIntoRaw hx h
  | boxFromRaw x =>
    obtain ⟨T, u, hx⟩ := hen
    exact matched_boxFromRaw h hx
  | boxLeak x T =>
    obtain ⟨b, hx⟩ := hen
    exact matched_boxLeak hx h
  | boxDrop x T =>
    obtain ⟨b, hx⟩ := hen
    exact matched_boxDrop hx h
  | write x k b =>
    obtain ⟨g, hx, hk⟩ := hen
    exact matched_write h hx (hk.trans_le (h.sound x g hx).accessible_le) b
  | read x k =>
    obtain ⟨g, hx, hk⟩ := hen
    exact matched_read h hx (hk.trans_le (h.sound x g hx).accessible_le)
  | release x => exact ⟨_, .done, _, rfl, .release, h.remove x⟩

/-- **The simulation.** -/
theorem represents_simulation (A : Allocator w σ) :
    Simulation (State.machine (ι := ι) (β := β) A) (owners w ι β) (Represents A) where
  init := by
    rintro st ⟨hready, hvars⟩
    refine ⟨fun _ => none, fun _ => rfl, hready, fun x => ?_, ?_, ?_, ?_⟩
    · rw [hvars x]
      exact .none
    · exact fun x g hx => absurd ((hvars x).symm.trans hx) (by simp)
    · exact fun x y g g' _ hx _ => absurd ((hvars x).symm.trans hx) (by simp)
    · exact fun x g hx => absurd ((hvars x).symm.trans hx) (by simp)
  step := by
    rintro st ⟨act, reply⟩ st' π - h ⟨hen, hexec⟩
    obtain ⟨st'', reply', π', hexec', hdoes, h'⟩ := matched h hen
    obtain ⟨rfl, rfl⟩ := ok_pair_inj (hexec'.symm.trans hexec)
    exact ⟨π', hdoes, h'⟩

end

variable [DecidableEq ι] {st₀ st : State w ι β σ}
  {run : List (State w ι β σ × (Act w ι β × Reply β) × State w ι β σ)}

/-- Three bytes. -/
def threeBytes : Ty 64 where
  size := 3
  align := 1
  align_pow := Nat.isPowerOfTwo_one
  bounded := by decide
  stride := ⟨3, rfl⟩

/-- The state after an act, if it ends. -/
def State.after (A : Allocator w σ) (st : State w ι β σ) (act : Act w ι β) : State w ι β σ :=
  match st.exec A act with
  | .ok r => r.1
  | .error _ => st

namespace threeBytes

theorem storage_nonnull : 0 < 8 := by decide

theorem storage_fits : 8 + 64 ≤ 2 ^ 64 := by decide

/-- An arena of 64 bytes. -/
def arena : Allocator 64 (Bump.Memory Unit) :=
  Bump.allocator ⟨8, 64, storage_nonnull, storage_fits⟩ .bump

/-- A program that has nothing yet. -/
def start : State 64 ℕ ℕ (Bump.Memory Unit) := ⟨⟨0, fun _ => ()⟩, id, fun _ => none⟩

/-- It makes two boxes and writes to one. -/
def boxes : State 64 ℕ ℕ (Bump.Memory Unit) :=
  ((start.after arena (.boxed 0 threeBytes [5, 6, 7])).after arena
    (.boxed 1 threeBytes [8, 9, 10])).after arena (.write 0 1 0)

/-- It takes the value out of that one. -/
def taken : State 64 ℕ ℕ (Bump.Memory Unit) := boxes.after arena (.boxTake 0 threeBytes)

end threeBytes

section

variable {S : Storage w} {via : Bump.Via} {st₀ st : State w ι β (Bump.Memory Unit)}
  {run : List (State w ι β (Bump.Memory Unit) × (Act w ι β × Reply β) ×
    State w ι β (Bump.Memory Unit))}

end

end LeakExt
end StaticAlloc
