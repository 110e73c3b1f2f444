import StaticAlloc.FixedVec.Sessions

/-!
# Programs with vectors keep their books

A session does what books do (`Represents`): the shelf is the ledger, and an iterator is what it
has not yielded and the tail behind its range.  The memory says so as if the vector that is drained
still had its old length (`DrainedAs`), which is what the drop of the iterator needs to find.

While a vector is drained, others over the same memory are used.  Nobody borrows either of the two,
so that their views are apart, and a change within the view of one keeps the elements of the other,
also those that are behind its length (`Spares`, `IsDrained.spares`).  Every act has a lemma that
says what it changes, and the rest is spared.
-/

namespace StaticAlloc
namespace FixedVec

open Toolkit

variable {w : ℕ} {α I : Type} {E : Element w α}

/-! ## Changes within a view -/

section Keeping

variable {m m' : Cells α} {v v' : FixedVec E.ty} {b : Bounded α} {start stop : ℕ}

/-- Copying into a region keeps what is apart from it. -/
theorem keeps_copy {s src dst n : ℕ} {R : Span} (hs : s = 0 → src = dst) (h₁ : R.start ≤ dst)
    (h₂ : dst + n * s ≤ R.stop) : Keeps s m (m.copy s src dst n) R := by
  intro base xs hdisj hxs
  rcases Nat.eq_zero_or_pos s with hz | hpos
  · -- a copy onto itself
    obtain rfl := hs hz
    subst hz
    intro k x hk
    have hread := hxs k x hk
    rw [Cells.copy]
    split
    · exact hread
    · split
      · rwa [show src + (base + k * 0 - src) = base + k * 0 by omega]
      · rwa [if_neg (by omega)]
  · intro k x hk
    have hend := Cells.end_le (s := s) hk
    have hread := hxs k x hk
    have hsub := Span.addresses_subset (s := ⟨dst, n * s⟩) h₁ h₂
    have happart := Span.le_of_disjoint (hdisj.mono_right hsub)
    unfold Span.stop at happart
    simp only at happart
    rw [Cells.copy]
    split
    · exact hread
    · rename_i hn
      have hns : 0 < n * s := Nat.mul_pos (Nat.pos_of_ne_zero hn) hpos
      rw [if_neg (by omega), if_neg (by omega)]
      exact hread

/-- The loop of `fill` writes the items behind the vector. -/
theorem fillLoopUnwinding_writes {T : Ty w} (n : ℕ) {m : Cells α} {v : FixedVec T}
    (iter : Source (Polled α)) {m' : Cells α} {v' : FixedVec T} {items : List α} {panicked : Bool}
    (h : fillLoopUnwinding n m v iter = (m', v', items, panicked)) :
    m' = m.writeArray T.size v.endMutPtr items ∧
      v' = { v with length := v.length + items.length } := by
  induction n generalizing m v iter items with
  | zero =>
    obtain ⟨rfl, rfl, rfl, -⟩ := by simpa [fillLoopUnwinding] using h
    exact ⟨rfl, rfl⟩
  | succ n ih =>
    rw [fillLoopUnwinding] at h
    cases hnext : iter.next with
    | mk o rest =>
      rw [hnext] at h
      rcases o with _ | a | _
      · obtain ⟨rfl, rfl, rfl, -⟩ := by simpa using h
        exact ⟨rfl, rfl⟩
      · cases hloop : fillLoopUnwinding n (m.write T.size v.endMutPtr a)
          { v with length := v.length + 1 } rest with
        | mk m₁ r =>
          obtain ⟨v₁, items₁, p₁⟩ := r
          simp only [hloop] at h
          obtain ⟨rfl, rfl, rfl, rfl⟩ := by simpa using h
          obtain ⟨hm, hv⟩ := ih _ hloop
          have hend : FixedVec.endMutPtr { v with length := v.length + 1 } =
              v.endMutPtr + T.size := by
            rw [endMutPtr, endMutPtr, Nat.add_mul, Nat.one_mul, Nat.add_assoc]
          refine ⟨by rw [hm, hend]; rfl, ?_⟩
          rw [hv, List.length_cons]
          simp only [Nat.add_assoc, Nat.add_comm 1]
      · obtain ⟨rfl, rfl, rfl, -⟩ := by simpa using h
        exact ⟨rfl, rfl⟩

/-- What the drop of an iterator moves it moves within the view. -/
theorem Drain.drop_keeps {d : Drain E.ty} {l : List α} (h : Holds E m v b) (hle : start ≤ stop)
    (hstop : stop ≤ v.length) (hd : Drains v start stop d) (hl : d.Remaining E m l)
    {panics : α → Bool} {v₁ : FixedVec E.ty} {dropped : List α} {panicked : Bool}
    (hdrop : d.drop m panics v₁ = .ok (m', v', dropped, panicked)) :
    Keeps E.ty.size m m' v.uninit.span := by
  obtain ⟨d', hloop, hplace⟩ := Drain.forEachDrop_ok hl panics
  have hd' := hd.of_samePlace hplace
  rw [Drain.drop, hloop] at hdrop
  simp only [ok_bind] at hdrop
  split at hdrop
  · obtain ⟨rfl, -⟩ := ok_pair_inj hdrop
    exact Keeps.refl _ _ _
  · split at hdrop
    · obtain ⟨rfl, -⟩ := ok_pair_inj hdrop
      rw [hd'.elements, hd'.tail, hd'.tailLen]
      refine keeps_copy (fun hz => by rw [hz, Nat.mul_zero, Nat.mul_zero, Nat.add_zero])
        (Nat.le_add_right _ _) ?_
      have hmul := Holds.mul_le (v := v) (k := start + (v.length - stop))
        (le_trans (by omega) h.length_le)
      rw [Nat.add_mul] at hmul
      show v.uninit.ptr + start * E.ty.size + (v.length - stop) * E.ty.size ≤
        v.uninit.ptr + v.uninit.len
      omega
    · obtain ⟨rfl, -⟩ := ok_pair_inj hdrop
      exact Keeps.refl _ _ _

end Keeping

/-! ## What an iterator is -/

/-- The vector is what draining `b` from `start` up to `stop` makes of `v`, and the iterator has
`D` left. -/
structure DrainedAs (E : Element w α) (m : Cells α) (v₁ : FixedVec E.ty) (b₁ : Bounded α)
    (d : Drain E.ty) (D : Draining α) (v : FixedVec E.ty) (b : Bounded α) (start stop : ℕ) :
    Prop where
  le : start ≤ stop
  stop_le : stop ≤ v.length
  holds : Holds E m v b
  vec : v₁ = { v with length := start }
  list : b₁ = b.take start
  place : Drains v start stop d
  remaining : d.Remaining E m D.left
  tail : D.tail = b.items.drop stop

/-- The vector is being drained. -/
def IsDrained (E : Element w α) (m : Cells α) (v₁ : FixedVec E.ty) (b₁ : Bounded α)
    (d : Drain E.ty) (D : Draining α) : Prop :=
  ∃ v b start stop, DrainedAs E m v₁ b₁ d D v b start stop

section Iterators

variable {m m' : Cells α} {v v₁ : FixedVec E.ty} {b b₁ : Bounded α} {d : Drain E.ty}
  {D : Draining α} {start stop : ℕ}

/-- The elements that are left lie in the view. -/
theorem DrainedAs.left_subset (h : DrainedAs E m v₁ b₁ d D v b start stop) :
    Span.addresses ⟨d.elements + d.start * E.ty.size, D.left.length * E.ty.size⟩ ⊆
      v.uninit.span.addresses := by
  have hlen : d.end' - d.start = D.left.length := h.remaining.len
  have hends : d.start + D.left.length = d.end' := by
    have := d.start_le
    omega
  have hend : d.end' ≤ stop - start := h.place.tail ▸ d.end_le
  have hle := h.le
  have hmul := Holds.mul_le (v := v) (k := start + (d.start + D.left.length))
    (le_trans (by omega) (h.stop_le.trans h.holds.length_le))
  rw [Nat.add_mul, Nat.add_mul] at hmul
  rw [h.place.elements]
  refine Span.addresses_subset ?_ ?_
  · show v.uninit.ptr ≤ v.uninit.ptr + start * E.ty.size + d.start * E.ty.size
    omega
  · show v.uninit.ptr + start * E.ty.size + d.start * E.ty.size + D.left.length * E.ty.size ≤
      v.uninit.ptr + v.uninit.len
    omega

/-- **A change apart from the view** is not seen by an iterator. -/
theorem IsDrained.keeps (h : IsDrained E m v₁ b₁ d D) {R : Span} (hkeeps : Keeps E.ty.size m m' R)
    (hdisj : Disjoint v₁.uninit.span.addresses R.addresses) : IsDrained E m' v₁ b₁ d D := by
  obtain ⟨v, b, start, stop, hd⟩ := h
  have hview : v₁.uninit.span = v.uninit.span := by rw [hd.vec]
  rw [hview] at hdisj
  refine ⟨v, b, start, stop, hd.le, hd.stop_le, ⟨hd.holds.length, hd.holds.cap, ?_⟩, hd.vec,
    hd.list, hd.place, ⟨hd.remaining.len, ?_⟩, hd.tail⟩
  · refine hkeeps _ _ (hdisj.mono_left ?_) hd.holds.stores
    rw [← hd.holds.length]
    exact front_subset hd.holds
  · exact hkeeps _ _ (hdisj.mono_left hd.left_subset) hd.remaining.stores

/-- **A call on an iterator** is answered by what it has left. -/
theorem IsDrained.exec_ok (h : IsDrained E m v₁ b₁ d D) (c : Drain.Call) :
    ∃ d', d.exec m c = .ok (d', D.answer c) ∧ IsDrained E m v₁ b₁ d' (D.after c) := by
  obtain ⟨v, b, start, stop, hd⟩ := h
  have hwith : ∀ {d' : Drain E.ty} {l : List α}, d'.Remaining E m l → Drain.SamePlace d d' →
      IsDrained E m v₁ b₁ d' ⟨l, D.tail⟩ := fun hl hplace =>
    ⟨v, b, start, stop, hd.le, hd.stop_le, hd.holds, hd.vec, hd.list,
      hd.place.of_samePlace hplace, hl, hd.tail⟩
  have hrem := hd.remaining
  cases c with
  | next =>
    cases hl : D.left with
    | nil =>
      rw [hl] at hrem
      refine ⟨d, ?_, ?_⟩
      · rw [Drain.exec, Drain.next_empty hrem, Draining.answer, hl]
        rfl
      · rw [Draining.after, hl]
        exact hwith hrem (Drain.SamePlace.refl d)
    | cons a l =>
      rw [hl] at hrem
      obtain ⟨d', hnext, hrest, hplace⟩ := Drain.next_cons hrem
      refine ⟨d', ?_, ?_⟩
      · rw [Drain.exec, hnext, Draining.answer, hl]
        rfl
      · rw [Draining.after, hl]
        exact hwith hrest hplace
  | nextBack =>
    rcases List.eq_nil_or_concat D.left with hl | ⟨l, a, hl⟩
    · rw [hl] at hrem
      refine ⟨d, ?_, ?_⟩
      · rw [Drain.exec, Drain.nextBack_empty hrem, Draining.answer, hl]
        rfl
      · rw [Draining.after, hl]
        exact hwith hrem (Drain.SamePlace.refl d)
    · rw [List.concat_eq_append] at hl
      rw [hl] at hrem
      obtain ⟨d', hnext, hrest, hplace⟩ := Drain.nextBack_append hrem
      refine ⟨d', ?_, ?_⟩
      · rw [Drain.exec, hnext, Draining.answer, hl, List.getLast?_concat]
        rfl
      · rw [Draining.after, hl, List.dropLast_concat]
        exact hwith hrest hplace
  | asSlice =>
    refine ⟨d, ?_, v, b, start, stop, hd⟩
    rw [Drain.exec, hrem.asSlice_eq]
    rfl
  | len =>
    refine ⟨d, ?_, v, b, start, stop, hd⟩
    rw [Drain.exec, hrem.len]
    rfl

/-- **Dropping an iterator** drops what is left and gives the tail back, or a destructor panics. -/
theorem IsDrained.drop_ok (h : IsDrained E m v₁ b₁ d D) (panics : α → Bool) :
    (D.left.any panics = true ∧
      d.drop m panics v₁ = .ok (m, v₁, started panics D.left, true)) ∨
    (D.left.any panics = false ∧ ∃ m' v' b', d.drop m panics v₁ = .ok (m', v', D.left, false) ∧
      v'.uninit = v₁.uninit ∧ Holds E m' v' b' ∧ b'.items = b₁.items ++ D.tail ∧
      b'.cap = b₁.cap ∧ Keeps E.ty.size m m' v₁.uninit.span) := by
  obtain ⟨v, b, start, stop, hd⟩ := h
  have hvec := hd.vec
  have hlist := hd.list
  subst hvec hlist
  rcases Drain.drop_ok hd.holds hd.le hd.stop_le hd.place hd.remaining panics with
    hpanics | ⟨hany, m', v', hdrop, huninit, hholds⟩
  · exact .inl hpanics
  · refine .inr ⟨hany, m', v', _, hdrop, huninit, hholds, ?_, rfl, ?_⟩
    · rw [hd.tail]
      rfl
    · show Keeps E.ty.size m m' v.uninit.span
      exact Drain.drop_keeps hd.holds hd.le hd.stop_le hd.place hd.remaining hdrop

end Iterators

/-! ## The relation -/

/-- A session is these books. -/
structure Represents [DecidableEq I] (E : Element w α) (s : Session E.ty I α) (B : Books I α) :
    Prop where
  shelf : Refines E s.shelf B.ledger
  none_iff : ∀ i, s.drains i = none ↔ B.drains i = none
  drained : ∀ i d D, s.drains i = some d → B.drains i = some D →
    i ∈ s.shelf.live ∧ (∀ j ∈ s.shelf.live, i ∉ s.shelf.lenders j) ∧
      IsDrained E s.shelf.mem (s.shelf.vec i) (B.ledger.vec i) d D

/-- What a change of other vectors leaves as it was. -/
structure Spares [DecidableEq I] (σ σ' : Shelf E.ty I α) (t t' : Ledger I α) (i : I) : Prop where
  live : i ∈ σ'.live
  free : ∀ j ∈ σ'.live, i ∉ σ'.lenders j
  vec : σ'.vec i = σ.vec i
  list : t'.vec i = t.vec i
  keeps : ∃ R, Keeps E.ty.size σ.mem σ'.mem R ∧
    Disjoint (σ.vec i).uninit.span.addresses R.addresses

section Steps

variable [DecidableEq I] {s s' : Session E.ty I α} {B B' : Books I α} {σ σ' : Shelf E.ty I α}
  {t t' : Ledger I α} {i j : I}

/-- Two vectors that nobody borrows have views of their own. -/
theorem Refines.views_apart (h : Refines E σ t) (hi : i ∈ σ.live) (hj : j ∈ σ.live) (hij : i ≠ j)
    (hfi : ∀ k ∈ σ.live, i ∉ σ.lenders k) (hfj : ∀ k ∈ σ.live, j ∉ σ.lenders k) :
    Disjoint (σ.vec i).uninit.span.addresses (σ.vec j).uninit.span.addresses := by
  have hapart := h.apart i hi j hj hij
  rwa [Shelf.footprint, Shelf.footprint, if_neg (hfi j hj), if_neg (hfj i hi)] at hapart

/-- One vector changes within its view, and another one is drained. -/
theorem Refines.spares (h : Refines E σ t) (hi : i ∈ σ.live) (hj : j ∈ σ.live) (hij : j ≠ i)
    (hfi : ∀ k ∈ σ.live, i ∉ σ.lenders k) (hfj : ∀ k ∈ σ.live, j ∉ σ.lenders k)
    {v : FixedVec E.ty} {b : Bounded α} (hlive : σ'.live = σ.live)
    (hlenders : σ'.lenders = σ.lenders) (hvec : σ'.vec = Function.update σ.vec i v)
    (hlist : t'.vec = Function.update t.vec i b)
    (hkeeps : Keeps E.ty.size σ.mem σ'.mem (σ.vec i).uninit.span) : Spares σ σ' t t' j where
  live := hlive ▸ hj
  free := by
    rw [hlive, hlenders]
    exact hfj
  vec := by rw [hvec, Function.update_of_ne hij]
  list := by rw [hlist, Function.update_of_ne hij]
  keeps := ⟨_, hkeeps, h.views_apart hj hi hij hfj hfi⟩

namespace Represents

/-- The names of the books. -/
theorem enabled (h : Represents E s B) {act : Act I α} (hen : s.Enabled act) : B.Enabled act := by
  have hfree : ∀ {i}, s.Free i → B.Free i := by
    rintro i ⟨hi, hfree, hnone⟩
    rw [h.shelf.live] at hi hfree
    rw [h.shelf.lenders] at hfree
    exact ⟨hi, hfree, (h.none_iff i).mp hnone⟩
  cases act with
  | op op =>
    obtain ⟨⟨hi, hfree, hnew⟩, hnone⟩ := hen
    rw [h.shelf.live] at hi hfree hnew
    rw [h.shelf.lenders] at hfree
    exact ⟨⟨hi, hfree, hnew⟩, (h.none_iff _).mp hnone⟩
  | truncate i panics len => exact hfree hen
  | fill i iter => exact hfree hen
  | dropVec i panics => exact hfree hen
  | forgetVec i => exact hfree hen
  | drain i range => exact hfree hen
  | call i c | dropDrain i panics | forgetDrain i => exact mt (h.none_iff i).mpr hen

/-- The iterator of the books. -/
theorem draining (h : Represents E s B) {d : Drain E.ty} (hd : s.drains i = some d) :
    ∃ D, B.drains i = some D ∧ i ∈ s.shelf.live ∧
      (∀ j ∈ s.shelf.live, i ∉ s.shelf.lenders j) ∧
      IsDrained E s.shelf.mem (s.shelf.vec i) (B.ledger.vec i) d D := by
  cases hD : B.drains i with
  | none => exact absurd (hd.symm.trans ((h.none_iff i).mpr hD)) (by simp)
  | some D => exact ⟨D, rfl, h.drained i d D hd hD⟩

/-- A vector that is drained is there, and lends nothing. -/
theorem live_of_drains (h : Represents E s B) (hi : s.drains i ≠ none) :
    i ∈ s.shelf.live ∧ ∀ k ∈ s.shelf.live, i ∉ s.shelf.lenders k := by
  obtain ⟨d, hd⟩ := Option.ne_none_iff_exists'.mp hi
  obtain ⟨D, -, hlive, hfree, -⟩ := h.draining hd
  exact ⟨hlive, hfree⟩

/-- The vectors change, and those that are drained are spared. -/
theorem withShelf (h : Represents E s B) (hshelf : Refines E σ' t')
    (hspares : ∀ i, s.drains i ≠ none → Spares s.shelf σ' B.ledger t' i) :
    Represents E (s.withShelf σ') { B with ledger := t' } where
  shelf := hshelf
  none_iff := h.none_iff
  drained i d D hd hD := by
    have hs := hspares i fun hc => absurd (hd.symm.trans hc) (by simp)
    obtain ⟨-, -, hdrained⟩ := h.drained i d D hd hD
    obtain ⟨R, hkeeps, hdisj⟩ := hs.keeps
    refine ⟨hs.live, hs.free, ?_⟩
    show IsDrained E σ'.mem (σ'.vec i) (t'.vec i) d D
    rw [hs.vec, hs.list]
    exact hdrained.keeps hkeeps hdisj

/-- The iterator over one vector is another one, or gone. -/
theorem setDrain (h : Represents E s B) {o : Option (Drain E.ty)} {oD : Option (Draining α)}
    (hnone : o = none ↔ oD = none)
    (hsome : ∀ d D, o = some d → oD = some D → i ∈ s.shelf.live ∧
      (∀ j ∈ s.shelf.live, i ∉ s.shelf.lenders j) ∧
      IsDrained E s.shelf.mem (s.shelf.vec i) (B.ledger.vec i) d D) :
    Represents E (s.setDrain i o) { B with drains := Function.update B.drains i oD } where
  shelf := h.shelf
  none_iff j := by
    show Function.update s.drains i o j = none ↔ Function.update B.drains i oD j = none
    by_cases hj : j = i
    · rw [hj, Function.update_self, Function.update_self]
      exact hnone
    · rw [Function.update_of_ne hj, Function.update_of_ne hj]
      exact h.none_iff j
  drained j d D hd hD := by
    replace hd : Function.update s.drains i o j = some d := hd
    replace hD : Function.update B.drains i oD j = some D := hD
    by_cases hj : j = i
    · subst hj
      rw [Function.update_self] at hd hD
      exact hsome d D hd hD
    · rw [Function.update_of_ne hj] at hd hD
      exact h.drained j d D hd hD

end Represents

/-! ## What an operation leaves alone -/

/-- Lists that nobody borrows stay as they are, and nobody borrows them afterwards. -/
theorem Ledger.exec_frame (kind : Kind) {op : Op I α} (hen : t.Enabled op) (hj : j ∈ t.live)
    (hne : j ≠ op.target) (hfree : ∀ k ∈ t.live, j ∉ t.lenders k) :
    j ∈ (t.exec kind op).1.live ∧
      (∀ k ∈ (t.exec kind op).1.live, j ∉ (t.exec kind op).1.lenders k) ∧
      (t.exec kind op).1.vec j = t.vec j := by
  -- a list is cut in two, and the new one may borrow the old one
  have hadd : ∀ {b part : Bounded α} {new : I} {lenders : Finset I}, new ∉ t.live →
      j ∉ lenders → j ∈ (t.addVec op.target b new part lenders).live ∧
        (∀ k ∈ (t.addVec op.target b new part lenders).live,
          j ∉ (t.addVec op.target b new part lenders).lenders k) ∧
        (t.addVec op.target b new part lenders).vec j = t.vec j := by
    intro b part new lenders hnew hlenders
    have hjnew : j ≠ new := fun hc => hnew (hc ▸ hj)
    refine ⟨Finset.mem_insert_of_mem hj, fun k hk => ?_, ?_⟩
    · show j ∉ Function.update t.lenders new lenders k
      rcases Finset.mem_insert.mp hk with rfl | hk
      · rwa [Function.update_self]
      · have hknew : k ≠ new := fun hc => hnew (hc ▸ hk)
        rw [Function.update_of_ne hknew]
        exact hfree k hk
    · show Function.update (Function.update t.vec op.target b) new part j = t.vec j
      rw [Function.update_of_ne hjnew, Function.update_of_ne hne]
  cases op with
  | push i val =>
    rw [exec]
    cases (t.vec i).push val with
    | none => exact ⟨hj, hfree, rfl⟩
    | some b => exact ⟨hj, hfree, Function.update_of_ne hne _ _⟩
  | pop i =>
    rw [exec]
    cases (t.vec i).items.getLast? with
    | none => exact ⟨hj, hfree, rfl⟩
    | some val => exact ⟨hj, hfree, Function.update_of_ne hne _ _⟩
  | truncate i len | clear i | fill i iter => exact ⟨hj, hfree, Function.update_of_ne hne _ _⟩
  | extend i iter =>
    simp only [exec]
    cases (iter.pull ((t.vec i).cap - (t.vec i).items.length)).2.next.1 with
    | none => exact ⟨hj, hfree, Function.update_of_ne hne _ _⟩
    | some spill => exact ⟨hj, hfree, Function.update_of_ne hne _ _⟩
  | splitBorrowed i k new =>
    rw [exec]
    split
    · refine hadd (hen.2.2 new rfl) fun hc => ?_
      rcases Finset.mem_insert.mp hc with hc | hc
      · exact hne hc
      · exact hfree i hen.1 hc
    · exact ⟨hj, hfree, rfl⟩
  | splitAndShrinkTo i k new =>
    rw [exec]
    split
    · exact hadd (hen.2.2 new rfl) (hfree i hen.1)
    · exact ⟨hj, hfree, rfl⟩
  | shrinkToFit i => exact ⟨hj, hfree, rfl⟩
  | drop i =>
    exact ⟨Finset.mem_erase.mpr ⟨hne, hj⟩, fun k hk => hfree k (Finset.mem_of_mem_erase hk), rfl⟩

/-- The other vectors. -/
theorem Shelf.exec_vec {op : Op I α} (hne : j ≠ op.target)
    (hnew : ∀ new, op.makes = some new → j ≠ new) : (σ.exec op).1.vec j = σ.vec j := by
  cases op with
  | push i val =>
    rw [exec]
    rcases (σ.vec i).push σ.mem val with st | ⟨m, v, val' | -⟩
    · rfl
    · exact Function.update_of_ne hne _ _
    · exact Function.update_of_ne hne _ _
  | pop i =>
    rw [exec]
    rcases (σ.vec i).pop σ.mem with st | ⟨v, - | val⟩
    · rfl
    · exact Function.update_of_ne hne _ _
    · exact Function.update_of_ne hne _ _
  | truncate i len =>
    rw [exec]
    rcases (σ.vec i).truncate σ.mem (fun _ => false) len with st | ⟨v, dropped, p⟩
    · rfl
    · exact Function.update_of_ne hne _ _
  | clear i =>
    rw [exec]
    rcases (σ.vec i).clear σ.mem (fun _ => false) with st | ⟨v, dropped, p⟩
    · rfl
    · exact Function.update_of_ne hne _ _
  | fill i iter => exact Function.update_of_ne hne _ _
  | extend i iter =>
    rw [exec]
    rcases (σ.vec i).extend σ.mem iter with ⟨m, v, items, - | spill⟩
    · exact Function.update_of_ne hne _ _
    · exact Function.update_of_ne hne _ _
  | splitBorrowed i k new =>
    rw [exec]
    rcases (σ.vec i).splitBorrowed k with st | ⟨v, part⟩
    · rfl
    · show Function.update (Function.update σ.vec i v) new part j = σ.vec j
      rw [Function.update_of_ne (hnew new rfl)]
      exact Function.update_of_ne hne _ _
  | splitAndShrinkTo i k new =>
    rw [exec]
    rcases (σ.vec i).splitAndShrinkTo k with st | ⟨v, part⟩
    · rfl
    · show Function.update (Function.update σ.vec i v) new part j = σ.vec j
      rw [Function.update_of_ne (hnew new rfl)]
      exact Function.update_of_ne hne _ _
  | shrinkToFit i =>
    rw [exec]
    rcases (σ.vec i).shrinkToFit with st | ⟨v, rest⟩
    · rfl
    · exact Function.update_of_ne hne _ _
  | drop i =>
    rw [exec]
    rcases (σ.vec i).drop σ.mem with st | dropped
    · rfl
    · rfl

/-- An operation writes in the view of its vector only. -/
theorem Shelf.exec_keeps {op : Op I α}
    (hv : Holds E σ.mem (σ.vec op.target) (t.vec op.target)) :
    Keeps E.ty.size σ.mem (σ.exec op).1.mem (σ.vec op.target).uninit.span := by
  have hstart : (σ.vec op.target).uninit.span.start ≤ (σ.vec op.target).endMutPtr :=
    Nat.le_add_right _ _
  cases op with
  | push i val =>
    replace hv : Holds E σ.mem (σ.vec i) (t.vec i) := hv
    cases hpush : (t.vec i).push val with
    | none =>
      rw [exec_push_full hv hpush]
      exact Keeps.refl _ _ _
    | some b =>
      have hne : (t.vec i).items.length ≠ (t.vec i).cap := by
        intro hfull
        rw [Bounded.push_eq_none_iff.mpr hfull] at hpush
        exact absurd hpush (by simp)
      rw [exec_push_room hv hpush]
      have hend : (σ.vec i).endMutPtr + [val].length * E.ty.size ≤
          (σ.vec i).uninit.span.stop := by
        rw [List.length_singleton, Nat.one_mul]
        exact (push_room hv hne val).2
      exact keeps_writeArray hstart hend
  | pop i =>
    rw [exec]
    rcases (σ.vec i).pop σ.mem with st | ⟨v, - | val⟩ <;> exact Keeps.refl _ _ _
  | truncate i len =>
    rw [exec]
    rcases (σ.vec i).truncate σ.mem (fun _ => false) len with st | ⟨v, dropped, p⟩ <;>
      exact Keeps.refl _ _ _
  | clear i =>
    rw [exec]
    rcases (σ.vec i).clear σ.mem (fun _ => false) with st | ⟨v, dropped, p⟩ <;>
      exact Keeps.refl _ _ _
  | fill i iter =>
    replace hv : Holds E σ.mem (σ.vec i) (t.vec i) := hv
    rw [exec_fill hv]
    exact keeps_writeArray hstart (fill_room hv iter)
  | extend i iter =>
    replace hv : Holds E σ.mem (σ.vec i) (t.vec i) := hv
    rw [exec, extend, fill_eq hv]
    cases hspill : (iter.pull ((t.vec i).cap - (t.vec i).items.length)).2.next.1 with
    | none =>
      simp only [hspill]
      exact keeps_writeArray hstart (fill_room hv iter)
    | some spill =>
      simp only [hspill]
      exact keeps_writeArray hstart (fill_room hv iter)
  | splitBorrowed i k new =>
    rw [exec]
    rcases (σ.vec i).splitBorrowed k with st | ⟨v, part⟩ <;> exact Keeps.refl _ _ _
  | splitAndShrinkTo i k new =>
    rw [exec]
    rcases (σ.vec i).splitAndShrinkTo k with st | ⟨v, part⟩ <;> exact Keeps.refl _ _ _
  | shrinkToFit i =>
    rw [exec]
    rcases (σ.vec i).shrinkToFit with st | ⟨v, rest⟩ <;> exact Keeps.refl _ _ _
  | drop i =>
    rw [exec]
    rcases (σ.vec i).drop σ.mem with st | dropped <;> exact Keeps.refl _ _ _

/-- **The frame of an operation.** -/
theorem Refines.exec_spares (h : Refines E σ t) {op : Op I α} (hen : σ.Enabled op)
    (hj : j ∈ σ.live) (hne : j ≠ op.target) (hfree : ∀ k ∈ σ.live, j ∉ σ.lenders k) :
    Spares σ (σ.exec op).1 t (t.exec E.kind op).1 j := by
  obtain ⟨-, hrefines⟩ := exec_refines h hen
  have hen' : t.Enabled op := by
    obtain ⟨hi, hfree, hnew⟩ := hen
    rw [h.live] at hi hfree hnew
    rw [h.lenders] at hfree
    exact ⟨hi, hfree, hnew⟩
  obtain ⟨hlive, hlenders, hlist⟩ := Ledger.exec_frame E.kind hen' (h.live ▸ hj) hne
    (by rw [← h.live, ← h.lenders]; exact hfree)
  have hnew : ∀ new, op.makes = some new → j ≠ new := fun new hmakes hc =>
    hen.2.2 new hmakes (hc ▸ hj)
  refine ⟨hrefines.live ▸ hlive, ?_, Shelf.exec_vec hne hnew, hlist, _,
    Shelf.exec_keeps (h.holds _ hen.1), h.views_apart hj hen.1 hne hfree hen.2.1⟩
  rw [hrefines.live, hrefines.lenders]
  exact hlenders

/-! ## The acts -/

/-- With one panic, or none, all elements of a slice are dropped; the second panic aborts. -/
theorem dropSliceUnwinding_counts (T : Ty w) (panics : α → Bool) (items : List α)
    (unwinding : Bool) {m : Cells α} {p : ℕ} (h : m.Stores T.size p items) :
    (items.countP panics + unwinding.toNat ≤ 1 ∧
      dropSliceUnwinding T m panics unwinding p items.length =
        .ok (items, if items.any panics || unwinding then .unwinding else .returned)) ∨
    ∃ dropped rest, items = dropped ++ rest ∧ dropped.countP panics + unwinding.toNat = 2 ∧
      dropSliceUnwinding T m panics unwinding p items.length = .ok (dropped, .aborted) := by
  induction items generalizing p unwinding with
  | nil =>
    refine .inl ⟨?_, by cases unwinding <;> rfl⟩
    rw [List.countP_nil, Nat.zero_add]
    exact Bool.toNat_le unwinding
  | cons a items ih =>
    have happ : m.Stores T.size p ([a] ++ items) := h
    obtain ⟨hfirst, hrest⟩ := Cells.Stores.append_iff.mp happ
    rw [List.length_singleton, Nat.one_mul] at hrest
    have hread : readCell m p = .ok a := by
      have := hfirst.get (k := 0) Nat.one_pos
      rw [Nat.zero_mul, Nat.add_zero] at this
      rw [readCell, this]
      rfl
    rw [List.length_cons, dropSliceUnwinding, hread]
    simp only [ok_bind]
    by_cases hp : panics a = true
    · cases unwinding with
      | true =>
        -- the panic comes during an unwinding
        refine .inr ⟨[a], items, rfl, ?_, ?_⟩
        · rw [List.countP_cons_of_pos hp]
          rfl
        · rw [hp]
          rfl
      | false =>
        have hstep := ih true hrest
        simp only [hp, Bool.true_and, Bool.or_false, Bool.false_eq_true, if_false]
        rcases hstep with ⟨hcount, hloop⟩ | ⟨dropped, rest, hitems, hcount, hloop⟩
        · refine .inl ⟨?_, ?_⟩
          · rwa [List.countP_cons_of_pos hp]
          · rw [hloop, List.any_cons, hp, Bool.or_true]
            rfl
        · refine .inr ⟨a :: dropped, rest, by rw [hitems]; rfl, ?_, ?_⟩
          · rwa [List.countP_cons_of_pos hp]
          · rw [hloop]
            rfl
    · have hstep := ih unwinding hrest
      have hfalse : panics a = false := Bool.eq_false_iff.mpr hp
      simp only [hfalse, Bool.false_and, Bool.false_or, Bool.false_eq_true, if_false]
      rcases hstep with ⟨hcount, hloop⟩ | ⟨dropped, rest, hitems, hcount, hloop⟩
      · refine .inl ⟨?_, ?_⟩
        · rwa [List.countP_cons_of_neg hp]
        · rw [hloop, List.any_cons, hfalse, Bool.false_or]
          rfl
      · refine .inr ⟨a :: dropped, rest, by rw [hitems]; rfl, ?_, ?_⟩
        · rwa [List.countP_cons_of_neg hp]
        · rw [hloop]
          rfl

/-- The successor of an index panics or is there. -/
theorem addUsize_panics {build : Build} {x y : ℕ} {st : Stop}
    (h : addUsize build w x y = .error st) : ∃ msg, st = .panic msg := by
  by_cases hlt : x + y < 2 ^ w
  · rw [addUsize_of_lt hlt] at h
    exact absurd h (by simp)
  · cases build with
    | debug =>
      rw [addUsize, if_neg hlt] at h
      exact ⟨_, (Except.error.inj h).symm⟩
    | release =>
      rw [addUsize_release] at h
      exact absurd h (by simp)

theorem startBound_panics {build : Build} {r : Bound} {st : Stop}
    (h : startBound build w r = .error st) : ∃ msg, st = .panic msg := by
  cases r with
  | excluded n => exact addUsize_panics h
  | included n | unbounded => exact absurd h (by simp [startBound])

theorem endBound_panics {build : Build} {len : ℕ} {r : Bound} {st : Stop}
    (h : endBound build w len r = .error st) : ∃ msg, st = .panic msg := by
  cases r with
  | included n => exact addUsize_panics h
  | excluded n | unbounded => exact absurd h (by simp [endBound])

/-- Resolving a range, or a panic. -/
theorem drain_cases {m : Cells α} {v : FixedVec E.ty} {b : Bounded α} (h : Holds E m v b)
    (build : Build) (range : Bound × Bound) :
    (∃ start stop d, Resolved build w b.items.length range start stop ∧
      v.drain build range = .ok ({ v with length := start }, d) ∧
      IsDrained E m { v with length := start } (b.take start) d
        ⟨b.range start stop, b.items.drop stop⟩) ∨
    ((∀ start stop, ¬ Resolved build w b.items.length range start stop) ∧
      ∃ msg, v.drain build range = .error (.panic msg)) := by
  have hlen := h.length
  cases hstart : startBound build w range.1 with
  | error st =>
    refine .inr ⟨fun start stop hres => absurd (hstart.symm.trans hres.1) (by simp), ?_⟩
    obtain ⟨msg, rfl⟩ := startBound_panics hstart
    refine ⟨msg, ?_⟩
    rw [drain, hstart]
    rfl
  | ok start =>
    cases hstop : endBound build w v.length range.2 with
    | error st =>
      refine .inr ⟨fun a stop hres => ?_, ?_⟩
      · rw [← hlen] at hres
        exact absurd (hstop.symm.trans hres.2.1) (by simp)
      · obtain ⟨msg, rfl⟩ := endBound_panics hstop
        refine ⟨msg, ?_⟩
        rw [drain, hstart]
        simp only [ok_bind, hstop]
        rfl
    | ok stop =>
      have hends := drain_of_ends (v := v) hstart hstop
      rw [hends]
      by_cases hin : start ≤ stop ∧ stop ≤ v.length
      · obtain ⟨hle, hin⟩ := hin
        obtain ⟨d, hdrain, hplace, hl⟩ := drain_ok h build hle hin
        exact .inl ⟨start, stop, d, ⟨hstart, hlen ▸ hstop, hle, hlen ▸ hin⟩, hdrain,
          v, b, start, stop, hle, hin, h, rfl, rfl, hplace, hl, rfl⟩
      · refine .inr ⟨fun start' stop' hres => hin ?_, drain_outside v build hin⟩
        rw [← hlen] at hres
        obtain rfl := Except.ok.inj (hstart.symm.trans hres.1)
        obtain rfl := Except.ok.inj (hstop.symm.trans hres.2.1)
        exact hres.2.2

/-- What an act does with the vectors is what it does with the books. -/
def Accounted (E : Element w α) (build : Build) (s : Session E.ty I α) (B : Books I α)
    (act : Act I α) : Prop :=
  ∃ B', B.Does E.kind build w act (s.exec build act).2 B' ∧ Represents E (s.exec build act).1 B'

namespace Represents

variable {build : Build} {m' : Cells α} {v : FixedVec E.ty} {b : Bounded α}

/-- **A vector that is not drained changes within its view.** -/
theorem change (h : Represents E s B) (σ' : Shelf E.ty I α) (t' : Ledger I α)
    (hi : i ∈ s.shelf.live) (hfree : ∀ k ∈ s.shelf.live, i ∉ s.shelf.lenders k)
    (hdrain : s.drains i = none)
    (hσlive : σ'.live = s.shelf.live) (hσlenders : σ'.lenders = s.shelf.lenders)
    (hσvec : σ'.vec = Function.update s.shelf.vec i v) (htlive : t'.live = B.ledger.live)
    (htlenders : t'.lenders = B.ledger.lenders) (htvec : t'.vec = Function.update B.ledger.vec i b)
    (hrecords : Refines.SameRecords σ' t') (hholds : Holds E σ'.mem v b)
    (hkeeps : Keeps E.ty.size s.shelf.mem σ'.mem (s.shelf.vec i).uninit.span)
    (huninit : v.uninit = (s.shelf.vec i).uninit) :
    Represents E (s.withShelf σ') { B with ledger := t' } := by
  have hsub : v.uninit.span.addresses ⊆ (s.shelf.vec i).uninit.span.addresses := by rw [huninit]
  refine h.withShelf (h.shelf.update hi hfree hσlive hσlenders hσvec htlive htlenders htvec
    hrecords hholds hkeeps hsub) fun j hj => ?_
  have hji : j ≠ i := fun hc => hj (hc ▸ hdrain)
  obtain ⟨hjlive, hjfree⟩ := h.live_of_drains hj
  exact h.shelf.spares hi hjlive hji hfree hjfree hσlive hσlenders hσvec htvec hkeeps

/-- A vector that is not drained ends. -/
theorem endVec (h : Represents E s B) (hfree : s.Free i) (dropped : List α) (lost : Multiset α) :
    Represents E (s.endVec i dropped) ⟨{ B.ledger with
      live := B.ledger.live.erase i, dropped := B.ledger.dropped + dropped }, B.drains,
      B.lost + lost⟩ := by
  obtain ⟨hi, hfree, hdrain⟩ := hfree
  have hshelf : Refines E ({ s.shelf with live := s.shelf.live.erase i }.logDropped dropped)
      { B.ledger with
        live := B.ledger.live.erase i, dropped := B.ledger.dropped + dropped } :=
    h.shelf.drop hi hfree rfl rfl rfl rfl rfl rfl rfl
      ⟨h.shelf.entered, h.shelf.returned, congrArg (· + _) h.shelf.dropped⟩
  have hrest := h.withShelf hshelf fun j hj => by
    have hji : j ≠ i := fun hc => hj (hc ▸ hdrain)
    obtain ⟨hjlive, hjfree⟩ := h.live_of_drains hj
    exact ⟨Finset.mem_erase.mpr ⟨hji, hjlive⟩,
      fun k hk => hjfree k (Finset.mem_of_mem_erase hk), rfl, rfl, _, Keeps.refl _ _ _,
      h.shelf.views_apart hjlive hi hji hjfree hfree⟩
  exact ⟨hrest.shelf, hrest.none_iff, hrest.drained⟩

theorem op (h : Represents E s B) {op : Op I α} (hen : s.Enabled (.op op)) :
    Accounted E build s B (.op op) := by
  obtain ⟨hen, hdrain⟩ := hen
  obtain ⟨hreply, hrefines⟩ := exec_refines h.shelf hen
  refine ⟨{ B with ledger := (B.ledger.exec E.kind op).1 }, ?_, ?_⟩
  · show B.Does E.kind build w (.op op) (.reply (s.shelf.exec op).2) _
    rw [hreply]
    exact .op
  · refine h.withShelf hrefines fun j hj => ?_
    have hne : j ≠ op.target := fun hc => hj (hc ▸ hdrain)
    obtain ⟨hjlive, hjfree⟩ := h.live_of_drains hj
    exact h.shelf.exec_spares hen hjlive hne hjfree

theorem truncate (h : Represents E s B) (hen : s.Free i) (panics : α → Bool) (len : ℕ) :
    Accounted E build s B (.truncate i panics len) := by
  obtain ⟨hi, hfree, hdrain⟩ := hen
  have hv := h.shelf.holds i hi
  have htruncate := truncate_started hv panics len rfl
  have hexec : s.exec build (.truncate i panics len) = (s.withShelf ((s.shelf.setVec i
        { s.shelf.vec i with length := (s.shelf.vec i).length -
          (started panics ((B.list i).drop len).reverse).length }).logDropped
            (started panics ((B.list i).drop len).reverse)),
      .ofPanic (((B.list i).drop len).reverse.any panics)) := by
    rw [Session.exec, htruncate]
    rfl
  rw [Accounted, hexec]
  refine ⟨_, .truncate rfl rfl, ?_⟩
  refine h.change _ _ hi hfree hdrain rfl rfl rfl rfl rfl rfl
    ⟨h.shelf.entered, h.shelf.returned, congrArg (· + _) h.shelf.dropped⟩ ?_
    (Keeps.refl _ _ _) rfl
  have hlength : (B.list i).length = (s.shelf.vec i).length := hv.length.symm
  rw [hlength]
  exact hv.shorten (Nat.sub_le _ _)

theorem fill (h : Represents E s B) (hen : s.Free i) (iter : Source (Polled α)) :
    Accounted E build s B (.fill i iter) := by
  obtain ⟨hi, hfree, hdrain⟩ := hen
  have hv := h.shelf.holds i hi
  have hb := (B.ledger.vec i).bounded
  have hroom : (s.shelf.vec i).capacity - (s.shelf.vec i).length =
      (B.ledger.vec i).cap - (B.list i).length := by
    rw [hv.cap, hv.length]
    rfl
  obtain ⟨m', v', b', items, panicked, hloop, hholds, hitems, hcap, htakes⟩ :=
    fillLoop_sound ((s.shelf.vec i).capacity - (s.shelf.vec i).length) hv
      (by rw [hv.cap, hv.length]; omega) iter
  obtain ⟨hm, hv'⟩ := fillLoopUnwinding_writes _ iter hloop
  have hexec : s.exec build (.fill i iter) = (s.withShelf ({ s.shelf with
        mem := m', entered := s.shelf.entered + items }.setVec i v'), .ofPanic panicked) := by
    rw [Session.exec, fillUnwinding, hloop]
  rw [hroom] at htakes
  rw [Accounted, hexec]
  refine ⟨_, .fill htakes hitems hcap, ?_⟩
  refine h.change _ _ hi hfree hdrain rfl rfl rfl rfl rfl rfl
    ⟨congrArg (· + _) h.shelf.entered, h.shelf.returned, h.shelf.dropped⟩ hholds ?_ ?_
  · show Keeps E.ty.size s.shelf.mem m' _
    rw [hm]
    refine keeps_writeArray (Nat.le_add_right _ _) ?_
    have hlen := htakes.length
    rw [← hroom] at hlen
    have hle := hv.length_le
    have hmul := Holds.mul_le (v := s.shelf.vec i) (k := (s.shelf.vec i).length + items.length)
      (by omega)
    rw [Nat.add_mul] at hmul
    show (s.shelf.vec i).uninit.ptr + (s.shelf.vec i).length * E.ty.size +
      items.length * E.ty.size ≤ (s.shelf.vec i).uninit.ptr + (s.shelf.vec i).uninit.len
    omega
  · rw [hv']

theorem dropVec (h : Represents E s B) (hen : s.Free i) (panics : α → Bool) :
    Accounted E build s B (.dropVec i panics) := by
  have hv := h.shelf.holds i hen.1
  have hstored := hv.stores
  rcases dropSliceUnwinding_counts E.ty panics (B.list i) false hstored with
    ⟨hcount, hloop⟩ | ⟨dropped, rest, hitems, hcount, hloop⟩
  · have hdrop : (s.shelf.vec i).dropUnwinding s.shelf.mem panics false = .ok (B.list i,
        if (B.list i).any panics || false then .unwinding else .returned) := by
      rw [dropUnwinding, hv.length]
      exact hloop
    have hexec : s.exec build (.dropVec i panics) =
        (s.endVec i (B.list i), .ofPanic ((B.list i).any panics)) := by
      rw [Session.exec, hdrop]
      cases (B.list i).any panics with
      | true => rfl
      | false => rfl
    rw [Accounted, hexec]
    refine ⟨_, .dropVec hcount, ?_⟩
    have hend := h.endVec hen (B.list i) 0
    rwa [add_zero] at hend
  · have hdrop : (s.shelf.vec i).dropUnwinding s.shelf.mem panics false =
        .ok (dropped, .aborted) := by
      rw [dropUnwinding, hv.length]
      exact hloop
    have hexec : s.exec build (.dropVec i panics) =
        (⟨{ s.shelf with live := ∅ }.logDropped dropped, fun _ => none⟩, .aborted) := by
      rw [Session.exec, hdrop]
    rw [Accounted, hexec]
    refine ⟨_, .abort hitems hcount, ?_, fun j => iff_of_true rfl rfl,
      fun j d D hd => absurd hd (by simp)⟩
    exact ⟨rfl, h.shelf.lenders, h.shelf.entered, h.shelf.returned,
      congrArg (· + _) h.shelf.dropped, fun j hj => absurd hj (Finset.notMem_empty j),
      fun j hj => absurd hj (Finset.notMem_empty j), fun j hj => absurd hj (Finset.notMem_empty j)⟩

theorem forgetVec (h : Represents E s B) (hen : s.Free i) :
    Accounted E build s B (.forgetVec i) := by
  refine ⟨_, .forgetVec, ?_⟩
  have hend := h.endVec hen [] (B.list i : List α)
  rwa [Multiset.coe_nil, add_zero] at hend

theorem drain (h : Represents E s B) (hen : s.Free i) (range : Bound × Bound) :
    Accounted E build s B (.drain i range) := by
  obtain ⟨hi, hfree, hdrain⟩ := hen
  have hv := h.shelf.holds i hi
  rcases drain_cases hv build range with
    ⟨start, stop, d, hresolved, hcall, hdrained⟩ | ⟨hnone, msg, hcall⟩
  · have hexec : s.exec build (.drain i range) = ((s.withShelf (s.shelf.setVec i
          { s.shelf.vec i with length := start })).setDrain i (some d), .reply .done) := by
      rw [Session.exec, hcall]
    rw [Accounted, hexec]
    refine ⟨_, .drain hresolved, ?_⟩
    have hstart : start ≤ (s.shelf.vec i).length := by
      rw [hv.length]
      exact hresolved.2.2.1.trans hresolved.2.2.2
    have hcut := h.change (s.shelf.setVec i { s.shelf.vec i with length := start })
      (B.ledger.setVec i ((B.ledger.vec i).take start)) hi hfree hdrain rfl rfl rfl rfl rfl rfl
      ⟨h.shelf.entered, h.shelf.returned, h.shelf.dropped⟩ (hv.shorten hstart)
      (Keeps.refl _ _ _) rfl
    refine hcut.setDrain (iff_of_false (by simp) (by simp)) fun d' D' hd' hD' => ⟨hi, hfree, ?_⟩
    obtain rfl := Option.some.inj hd'
    obtain rfl := Option.some.inj hD'
    show IsDrained E s.shelf.mem (Function.update s.shelf.vec i _ i)
      (Function.update B.ledger.vec i _ i) d _
    rw [Function.update_self, Function.update_self]
    exact hdrained
  · have hexec : s.exec build (.drain i range) = (s, .reply (.stopped (.panic msg))) := by
      rw [Session.exec, hcall]
    rw [Accounted, hexec]
    exact ⟨B, .drainStops hnone, h⟩

theorem call (h : Represents E s B) (hen : s.drains i ≠ none) (c : Drain.Call) :
    Accounted E build s B (.call i c) := by
  cases hd : s.drains i with
  | none => exact absurd hd hen
  | some d =>
    obtain ⟨D, hD, hi, hfree, hdrained⟩ := h.draining hd
    obtain ⟨d', hcall, hafter⟩ := hdrained.exec_ok c
    have hexec : s.exec build (.call i c) = ((s.withShelf { s.shelf with
          returned := s.shelf.returned + (Drain.yielded [D.answer c] : List α) }).setDrain i
            (some d'), .called (D.answer c)) := by
      rw [Session.exec, hd]
      simp only [hcall]
    rw [Accounted, hexec]
    refine ⟨_, .call hD, ?_⟩
    have hreturned : Represents E (s.withShelf { s.shelf with
        returned := s.shelf.returned + (Drain.yielded [D.answer c] : List α) })
        { B with ledger := { B.ledger with
          returned := B.ledger.returned + (Drain.yielded [D.answer c] : List α) } } :=
      ⟨⟨h.shelf.live, h.shelf.lenders, h.shelf.entered, congrArg (· + _) h.shelf.returned,
        h.shelf.dropped, h.shelf.holds, h.shelf.lenders_live, h.shelf.apart⟩, h.none_iff,
        h.drained⟩
    refine hreturned.setDrain (iff_of_false (by simp) (by simp)) fun d₁ D₁ hd₁ hD₁ =>
      ⟨hi, hfree, ?_⟩
    obtain rfl := Option.some.inj hd₁
    obtain rfl := Option.some.inj hD₁
    exact hafter

/-- The iterator is gone. -/
theorem endDrain (h : Represents E s B) :
    Represents E (s.setDrain i none) { B with drains := Function.update B.drains i none } :=
  h.setDrain (iff_of_true rfl rfl) fun d D hd => absurd hd (by simp)

theorem dropDrain (h : Represents E s B) (hen : s.drains i ≠ none) (panics : α → Bool) :
    Accounted E build s B (.dropDrain i panics) := by
  cases hd : s.drains i with
  | none => exact absurd hd hen
  | some d =>
    obtain ⟨D, hD, hi, hfree, hdrained⟩ := h.draining hd
    have hnone : (s.setDrain i none).drains i = none := Function.update_self _ _ _
    rcases hdrained.drop_ok panics with
      ⟨hany, hdrop⟩ | ⟨hany, m', v', b', hdrop, huninit, hholds, hitems, hcap, hkeeps⟩
    · have hexec : s.exec build (.dropDrain i panics) =
          ((s.withShelf (({ s.shelf with mem := s.shelf.mem }.setVec i
            (s.shelf.vec i)).logDropped (started panics D.left))).setDrain i none, .panicked) := by
        rw [Session.exec, hd]
        simp only [hdrop]
        rfl
      obtain ⟨rest, hrest⟩ := started_isPrefix panics D.left
      rw [Accounted, hexec]
      refine ⟨_, .dropDrainPanics hD hany hrest.symm, ?_⟩
      have hlogged := h.endDrain.change (i := i)
        ((s.shelf.setVec i (s.shelf.vec i)).logDropped (started panics D.left))
        { B.ledger with dropped := B.ledger.dropped + started panics D.left }
        hi hfree hnone rfl rfl rfl rfl rfl
        (Function.update_eq_self i B.ledger.vec).symm
        ⟨h.shelf.entered, h.shelf.returned, congrArg (· + _) h.shelf.dropped⟩
        (h.shelf.holds i hi) (Keeps.refl _ _ _) rfl
      exact ⟨hlogged.shelf, hlogged.none_iff, hlogged.drained⟩
    · have hexec : s.exec build (.dropDrain i panics) =
          ((s.withShelf (({ s.shelf with mem := m' }.setVec i v').logDropped D.left)).setDrain i
            none, .reply .done) := by
        rw [Session.exec, hd]
        simp only [hdrop]
        rfl
      rw [Accounted, hexec]
      refine ⟨_, .dropDrain hD hany hitems hcap, ?_⟩
      exact h.endDrain.change (i := i) _ _ hi hfree hnone rfl rfl rfl rfl rfl rfl
        ⟨h.shelf.entered, h.shelf.returned, congrArg (· + _) h.shelf.dropped⟩ hholds hkeeps huninit

theorem forgetDrain (h : Represents E s B) (hen : s.drains i ≠ none) :
    Accounted E build s B (.forgetDrain i) := by
  cases hd : s.drains i with
  | none => exact absurd hd hen
  | some d =>
    obtain ⟨D, hD, -⟩ := h.draining hd
    have hend : Represents E (s.setDrain i none)
        { B with drains := Function.update B.drains i none } := h.endDrain
    exact ⟨_, .forgetDrain hD, hend.shelf, hend.none_iff, hend.drained⟩

end Represents

/-- **One act.** -/
theorem exec_accounted (h : Represents E s B) (build : Build) {act : Act I α}
    (hen : s.Enabled act) : Accounted E build s B act := by
  cases act with
  | op op => exact h.op hen
  | truncate i panics len => exact h.truncate hen panics len
  | fill i iter => exact h.fill hen iter
  | dropVec i panics => exact h.dropVec hen panics
  | forgetVec i => exact h.forgetVec hen
  | drain i range => exact h.drain hen range
  | call i c => exact h.call hen c
  | dropDrain i panics => exact h.dropDrain hen panics
  | forgetDrain i => exact h.forgetDrain hen

end Steps

/-! ## Programs -/

section Programs

variable [DecidableEq I]

/-- **Programs simulate their books.** -/
theorem session_simulation (E : Element w α) (build : Build) :
    Simulation (Session.machine build E.ty I α) (Books.machine E.kind build w I α)
      (Represents E) where
  init := by
    rintro s ⟨σ, hσ, rfl⟩
    obtain ⟨t, ht, hrefines⟩ := (simulation E).init σ hσ
    exact ⟨_, ⟨t, ht, rfl⟩, hrefines, fun i => iff_of_true rfl rfl,
      fun i d D hd => absurd hd (by simp)⟩
  step := by
    rintro s ⟨act, answer⟩ s' B - h ⟨hen, hexec⟩
    obtain ⟨B', hdoes, h'⟩ := exec_accounted h build hen
    rw [hexec] at hdoes h'
    exact ⟨B', ⟨h.enabled hen, hdoes⟩, h'⟩

namespace Books

variable {kind : Kind} {build : Build} {B : Books I α}

theorem reachable_conserved (h : (machine kind build w I α).Reachable B) : B.Conserved := by
  refine Machine.Reachable.invariant ?_ ?_ h
  · rintro B ⟨t, ht, rfl⟩
    have hconserved := Ledger.reachable_conserved (Machine.Reachable.of_init ht)
    refine ⟨fun i hi => absurd rfl hi, ?_⟩
    have hpending : t.live.sum (fun _ => (0 : Multiset α)) = 0 := Finset.sum_const_zero
    show t.entered = t.held + t.live.sum (fun _ => (0 : Multiset α)) + t.returned + t.dropped + 0
    rw [hpending, add_zero, add_zero]
    exact hconserved
  · rintro B l B' - hB ⟨hen, hdoes⟩
    exact hdoes.conserves hB hen

/-- Books stop in a panic only. -/
theorem Does.stops {B' : Books I α} {act : Act I α} {st : Stop}
    (h : B.Does kind build w act (.reply (.stopped st)) B') : ∃ msg, st = .panic msg := by
  generalize hanswer : (.reply (.stopped st) : Answer α) = answer at h
  cases h with
  | @op op =>
    rcases Refines.Ledger.stops (Answer.reply.inj hanswer).symm with rfl | rfl
    · exact ⟨_, rfl⟩
    · exact ⟨_, rfl⟩
  | @truncate i panics len l dropped hl hdropped =>
    cases hp : l.any panics with
    | true => exact absurd (hp ▸ hanswer) (by simp [Answer.ofPanic])
    | false => exact absurd (hp ▸ hanswer) (by simp [Answer.ofPanic])
  | @fill i iter items panicked b htakes hitems hcap =>
    cases panicked with
    | true => exact absurd hanswer (by simp [Answer.ofPanic])
    | false => exact absurd hanswer (by simp [Answer.ofPanic])
  | @dropVec i panics hcount =>
    cases hp : (B.list i).any panics with
    | true => exact absurd (hp ▸ hanswer) (by simp [Answer.ofPanic])
    | false => exact absurd (hp ▸ hanswer) (by simp [Answer.ofPanic])
  | @drainStops i range msg hnone => exact ⟨msg, Reply.stopped.inj (Answer.reply.inj hanswer)⟩
  | abort | forgetVec | drain | call | dropDrain | dropDrainPanics | forgetDrain =>
    exact absurd hanswer (by simp)

/-- What a run loses it loses in steps that leak. -/
theorem run_lost {B₀ : Books I α} {hist : List (Books I α × (Act I α × Answer α) × Books I α)}
    (h₀ : (machine kind build w I α).init B₀) (hrun : (machine kind build w I α).Run B₀ hist B)
    (hleaks : ∀ l ∈ hist.map (fun x => x.2.1), ¬ Leaks l) : B.lost = 0 := by
  obtain ⟨t, -, rfl⟩ := h₀
  refine Machine.Run.invariant (I := fun B => B.lost = 0) (P := fun _ l => ¬ Leaks l) ?_ rfl hrun
    fun x hx => hleaks _ (List.mem_map_of_mem hx)
  rintro B l B' hB hl ⟨-, hdoes⟩
  rw [hdoes.lost_eq hl, hB]

end Books

/-- The vectors and iterators of a program are as its books say. -/
structure AsBooked (E : Element w α) (build : Build) (s : Session E.ty I α) (B : Books I α) :
    Prop where
  live : s.shelf.live = B.ledger.live
  contents : ∀ i ∈ s.shelf.live, (s.shelf.vec i).contents s.shelf.mem = (B.list i).map some
  length_le : ∀ i ∈ s.shelf.live, (s.shelf.vec i).length ≤ (s.shelf.vec i).capacity
  drains_none : ∀ i, s.drains i = none ↔ B.drains i = none
  drains : ∀ i d, s.drains i = some d → ∃ D, B.drains i = some D ∧ i ∈ s.shelf.live ∧
    d.len = D.left.length ∧ d.asSlice s.shelf.mem = D.left.map some
  entered : s.shelf.entered = (s.shelf.live.sum fun i => (B.list i : Multiset α)) + B.pending +
    s.shelf.returned + s.shelf.dropped + B.lost
  next : ∀ act, s.Enabled act → ∃ B', B.Does E.kind build w act (s.exec build act).2 B'
  stops : ∀ act st, s.Enabled act → (s.exec build act).2 = .reply (.stopped st) →
    ∃ msg, st = .panic msg

theorem Represents.asBooked {s : Session E.ty I α} {B : Books I α} (h : Represents E s B)
    (build : Build) (hconserved : B.Conserved) : AsBooked E build s B where
  live := h.shelf.live
  contents i hi := (h.shelf.holds i hi).contents_eq
  length_le i hi := (h.shelf.holds i hi).length_le
  drains_none := h.none_iff
  drains i d hd := by
    obtain ⟨D, hD, hi, -, v, b, start, stop, hdrained⟩ := h.draining hd
    exact ⟨D, hD, hi, hdrained.remaining.len, hdrained.remaining.asSlice_eq⟩
  entered := by
    rw [h.shelf.entered, h.shelf.returned, h.shelf.dropped, h.shelf.live]
    exact hconserved.entered
  next act hen := by
    obtain ⟨B', hdoes, -⟩ := exec_accounted h build hen
    exact ⟨B', hdoes⟩
  stops act st hen hst := by
    obtain ⟨B', hdoes, -⟩ := exec_accounted h build hen
    rw [hst] at hdoes
    exact hdoes.stops

/-- **Programs with vectors keep their books.**  Vectors over one memory are used, split, truncated
and filled, drained while the others are used, dropped and forgotten, and iterators and destructors
panic when they like.  Whatever the program does, what it sees is what it would see of lists and of
the elements that iterators have left.  The cells of the vectors hold these lists, those of an
iterator what it has left, also after many other vectors were written to.  Every element that
entered is in one of them, was returned, was dropped or is lost, and it is one of these only; and
nothing is lost unless something is forgotten, a destructor panics while an iterator is dropped, or
the process aborts.  Nothing ever stops but in a panic. -/
theorem sessions_account (E : Element w α) (build : Build) {s₀ s : Session E.ty I α}
    {hist : List (Session E.ty I α × (Act I α × Answer α) × Session E.ty I α)}
    (h₀ : (Session.machine build E.ty I α).init s₀)
    (hrun : (Session.machine build E.ty I α).Run s₀ hist s) :
    ∃ B₀ B hist', (Books.machine E.kind build w I α).init B₀ ∧
      (Books.machine E.kind build w I α).Run B₀ hist' B ∧
      hist'.map (fun x => x.2.1) = hist.map (fun x => x.2.1) ∧ AsBooked E build s B ∧
      ((∀ x ∈ hist, ¬ Leaks x.2.1) → B.lost = 0) := by
  obtain ⟨B₀, hB₀, hR₀⟩ := (session_simulation E build).init s₀ h₀
  obtain ⟨B, hist', hrun', hlabels, hR⟩ :=
    (session_simulation E build).run (Machine.Reachable.of_init h₀) hR₀ hrun
  have hconserved := Books.reachable_conserved
    (hrun'.reachable (Machine.Reachable.of_init hB₀))
  refine ⟨B₀, B, hist', hB₀, hrun', hlabels, hR.asBooked build hconserved, fun hleaks => ?_⟩
  refine Books.run_lost hB₀ hrun' fun l hl => ?_
  rw [hlabels] at hl
  obtain ⟨x, hx, rfl⟩ := List.mem_map.mp hl
  exact hleaks x hx

/-- What becomes of a vector over seven bytes. -/
def halfWords.after (acts : List (Act ℕ ℕ)) : Session halfWords.ty ℕ ℕ :=
  acts.foldl (fun s act => (s.exec .release act).1) ⟨halfWords.start, fun _ => none⟩

/-- Two elements enter, and the first of them is drained. -/
def halfWords.drained : List (Act ℕ ℕ) :=
  [.op (.push 0 5), .op (.push 0 6), .drain 0 (.unbounded, .excluded 1), .call 0 .next]

/-- The iterator has yielded the one, and has the other one to give back. -/
theorem sessions_account_halfWords :
    ∃ B, AsBooked halfWords .release (halfWords.after halfWords.drained) B ∧ B.lost = 0 ∧
      (halfWords.after halfWords.drained).shelf.entered = {6, 5} ∧
      (halfWords.after halfWords.drained).shelf.returned = {5} ∧
      ((halfWords.after halfWords.drained).shelf.vec 0).contents
        (halfWords.after halfWords.drained).shelf.mem = [] := by
  have hpush : ∀ n new, (Op.push 0 n : Op ℕ ℕ).makes = some new → new ∉ ({0} : Finset ℕ) :=
    fun n new h => absurd h (by simp [Op.makes])
  have hrun : (Session.machine .release halfWords.ty ℕ ℕ).Run (halfWords.after []) [
      (halfWords.after [], (.op (.push 0 5), .reply .done), halfWords.after [.op (.push 0 5)]),
      (halfWords.after [.op (.push 0 5)], (.op (.push 0 6), .reply .done),
        halfWords.after [.op (.push 0 5), .op (.push 0 6)]),
      (halfWords.after [.op (.push 0 5), .op (.push 0 6)],
        (.drain 0 (.unbounded, .excluded 1), .reply .done),
        halfWords.after [.op (.push 0 5), .op (.push 0 6), .drain 0 (.unbounded, .excluded 1)]),
      (halfWords.after [.op (.push 0 5), .op (.push 0 6), .drain 0 (.unbounded, .excluded 1)],
        (.call 0 .next, .called (.item (some 5))), halfWords.after halfWords.drained)]
      (halfWords.after halfWords.drained) := by
    refine .head ⟨⟨⟨Finset.mem_singleton_self 0, fun j _ => Finset.notMem_empty 0, hpush 5⟩, rfl⟩,
      Prod.ext rfl rfl⟩ ?_
    refine .head ⟨⟨⟨Finset.mem_singleton_self 0, fun j _ => Finset.notMem_empty 0, hpush 6⟩, rfl⟩,
      Prod.ext rfl rfl⟩ ?_
    refine .head ⟨⟨Finset.mem_singleton_self 0, fun j _ => Finset.notMem_empty 0, rfl⟩,
      Prod.ext rfl rfl⟩ ?_
    exact .head ⟨Option.some_ne_none _, Prod.ext rfl rfl⟩ (.refl _)
  obtain ⟨-, B, -, -, -, -, hbooked, hlost⟩ :=
    sessions_account halfWords .release ⟨_, ⟨_, _, 0, rfl⟩, rfl⟩ hrun
  refine ⟨B, hbooked, hlost fun x hx => ?_, rfl, rfl, rfl⟩
  simp only [List.mem_cons, List.not_mem_nil, or_false] at hx
  rcases hx with rfl | rfl | rfl | rfl <;> exact id

end Programs

end FixedVec
end StaticAlloc
