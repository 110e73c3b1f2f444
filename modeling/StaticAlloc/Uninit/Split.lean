import StaticAlloc.Library.Runs
import StaticAlloc.Uninit.View

/-!
# Splitting a region into views

`split_at_byte` should cut the bytes of a view in two: the receiver keeps
`[p, p + at)` and the rest `[p + at, p + len)` is returned (`SplitLaw`).  It
computes the address of the rest in elements of `T` where it means bytes, so the
law holds exactly where the two agree (`SplitExact`): for types of size one, and
for the cut at `0`.  For untyped memory the rest is the receiver over again, and
for a type of two bytes or more it starts past the bytes it should start with.

All other traversals of a view either cut in bytes or go through `split_at_byte`,
so as long as each of those calls is exact, whatever is done to a region --- and
to the views obtained from it, in any order --- leaves a partition of it
(`run_partition`).  `exec_good` is the step: every call cuts the view it is
made on in two, or leaves its bytes alone.
-/

namespace StaticAlloc

open Toolkit

variable {w : ℕ}

/-! ## One call of `split_at_byte` -/

/-- What `split_at_byte(at)` should do. -/
structure SplitLaw {T : Ty w} (v : UninitView T) (k : ℕ) : Prop where
  inRange : T.size ≤ k → k ≤ v.len → ∃ v' t, v.splitAtByte k = some (v', t) ∧
    v'.span = ⟨v.ptr, k⟩ ∧ t.span = ⟨v.ptr + k, v.len - k⟩
  outOfRange : ¬ (T.size ≤ k ∧ k ≤ v.len) → v.splitAtByte k = none

/-- The cut is one that elements and bytes agree on. -/
def SplitExact (T : Ty w) (len k : ℕ) : Prop := T.size ≤ k → k ≤ len → T.size = 1 ∨ k = 0

theorem splitLaw_iff {T : Ty w} (v : UninitView T) (k : ℕ) :
    SplitLaw v k ↔ SplitExact T v.len k := by
  constructor
  · intro h h₁ h₂
    obtain ⟨v', t, hsplit, -, ht⟩ := h.inRange h₁ h₂
    obtain ⟨v'', t', hsplit', -, ht'⟩ := UninitView.splitAtByte_some h₁ h₂
    rw [hsplit] at hsplit'
    obtain ⟨-, rfl⟩ := Prod.mk.inj (Option.some.inj hsplit')
    have hstart : v.ptr + k = v.ptr + k * T.size := congrArg Span.start (ht.symm.trans ht')
    have hmul : k * 1 = k * T.size := by
      rw [Nat.mul_one]
      exact Nat.add_left_cancel hstart
    rcases Nat.eq_zero_or_pos k with hk | hk
    · exact Or.inr hk
    · exact Or.inl (Nat.eq_of_mul_eq_mul_left hk hmul).symm
  · intro h
    constructor
    · intro h₁ h₂
      obtain ⟨v', t, hsplit, hv', ht⟩ := UninitView.splitAtByte_some h₁ h₂
      refine ⟨v', t, hsplit, hv', ?_⟩
      have hmul : k * T.size = k := by
        rcases h h₁ h₂ with hs | rfl
        · rw [hs, Nat.mul_one]
        · rw [Nat.zero_mul]
      rw [ht, hmul]
    · intro hk
      exact UninitView.splitAtByte_none (by omega)

/-! ## Views of any type, and the calls on them -/

/-- A view, of whatever type. -/
inductive AnyView (w : ℕ) where
  | sized (T : Ty w) (v : UninitView T)
  | slice (T : Ty w) (s : UninitSlice T)

namespace AnyView

/-- The bytes of the view. -/
def span : AnyView w → Span
  | sized _ v => v.span
  | slice _ s => s.span

/-- The addresses of the view. -/
def addresses (v : AnyView w) : Set ℕ := v.span.addresses

end AnyView

/-- A traversal, with its arguments. -/
inductive Traversal (w : ℕ) where
  | splitAtByte (k : ℕ)
  | splitToFit
  | splitLayout (layout : Layout w)
  | splitCast (U : Ty w)
  | splitSlice (U : Ty w)
  | cast (U : Ty w)
  | castSlice (U : Ty w)
  | asMemory
  | splitAt (k : ℕ)
  | shrinkToFit
  | splitFirst
  | splitLast

/-- A split of a view, whose receiver stays as it was if there is no second part. -/
def orUnchanged {A B : Type} (f : A → AnyView w) (g : B → AnyView w) (v : AnyView w) :
    Option (A × B) → AnyView w × Option (AnyView w)
  | none => (v, none)
  | some (a, b) => (f a, some (g b))

/-- What a traversal makes of a view of untyped memory. -/
def Traversal.execMemory (v : UninitView (Ty.unit w)) :
    Traversal w → Option (Except Stop (AnyView w × Option (AnyView w)))
  | splitLayout layout =>
    some ((v.splitLayout layout).map (orUnchanged (.sized _) (.sized _) (.sized _ v)))
  | splitCast U => some ((v.splitCast U).map (orUnchanged (.sized _) (.sized U) (.sized _ v)))
  | splitSlice U => some ((v.splitSlice U).map (orUnchanged (.sized _) (.slice U) (.sized _ v)))
  | _ => none

/-- The receiver afterwards and the view returned, if any.  There is no result
for a method the view does not have. -/
def Traversal.exec (v : AnyView w) (op : Traversal w) :
    Option (Except Stop (AnyView w × Option (AnyView w))) :=
  match v, op with
  | .sized T v, splitAtByte k =>
    some (.ok (orUnchanged (.sized T) (.sized _) (.sized T v) (v.splitAtByte k)))
  | .sized T v, splitToFit =>
    some (v.splitToFit.map fun r => (.sized T r.1, some (.sized _ r.2)))
  | .sized T v, cast U =>
    match v.cast U with
    | .ok u => some (.ok (.sized U u, none))
    | .error v => some (.ok (.sized T v, none))
  | .sized T v, castSlice U =>
    match v.castSlice U with
    | .ok u => some (.ok (.slice U u, none))
    | .error v => some (.ok (.sized T v, none))
  | .sized _ v, asMemory => some (.ok (.sized _ v.decast, none))
  | .slice _ s, asMemory => some (.ok (.sized _ s.decast, none))
  | .slice T s, splitAt k =>
    some ((s.splitAt k).map (orUnchanged (.slice T) (.slice T) (.slice T s)))
  | .slice T s, shrinkToFit =>
    some (s.shrinkToFit.map fun r => (.slice T r.1, some (.sized _ r.2)))
  | .slice T s, splitFirst =>
    some (s.splitFirst.map (orUnchanged (.slice T) (.sized T) (.slice T s)))
  | .slice T s, splitLast =>
    some (s.splitLast.map (orUnchanged (.slice T) (.sized T) (.slice T s)))
  -- the remaining methods are those of untyped memory
  | .sized T v, op => if h : T = Ty.unit w then op.execMemory (h ▸ v) else none
  | .slice _ _, _ => none

/-- The byte-level split that a traversal makes, if it makes one, is exact. -/
def Traversal.Exact (v : AnyView w) (op : Traversal w) : Prop :=
  match v, op with
  | .sized T v, splitAtByte k => SplitExact T v.len k
  | .sized T v, splitToFit => SplitExact T v.len T.size
  | .sized T v, splitLayout layout => SplitExact T v.len (alignOffsetUnit w v.ptr layout.align)
  | .sized T v, splitCast U => SplitExact T v.len (alignOffsetUnit w v.ptr U.align)
  | .sized T v, splitSlice U => SplitExact T v.len (alignOffsetUnit w v.ptr U.align)
  | _, _ => True

/-! ## A call cuts its receiver in two -/

/-- The receiver and the view returned share the bytes the receiver had; a call
that returns nothing leaves the receiver its bytes. -/
def Divides (v v' : AnyView w) : Option (AnyView w) → Prop
  | none => v'.span = v.span
  | some t => Span.Halves v.span v'.span t.span

theorem orUnchanged_divides {A B : Type} {f : A → AnyView w} {g : B → AnyView w} {v : AnyView w}
    {o : Option (A × B)} (h : ∀ a b, o = some (a, b) → Span.Halves v.span (f a).span (g b).span) :
    Divides v (orUnchanged f g v o).1 (orUnchanged f g v o).2 := by
  cases o with
  | none => exact rfl
  | some p => exact h p.1 p.2 rfl

/-- A call that ends well, and divides its receiver. -/
def Good (v : AnyView w) (r : Except Stop (AnyView w × Option (AnyView w))) : Prop :=
  ∃ v' new, r = .ok (v', new) ∧ Divides v v' new

/-- A call made of a split that ended well. -/
theorem good_of_split {A B : Type} {f : A → AnyView w} {g : B → AnyView w} {v : AnyView w}
    {r : Except Stop (Option (A × B))} {o : Option (A × B)} (hr : r = .ok o)
    (h : ∀ a b, o = some (a, b) → Span.Halves v.span (f a).span (g b).span) :
    Good v (r.map (orUnchanged f g v)) :=
  ⟨_, _, congrArg _ hr, orUnchanged_divides h⟩

/-- An empty first half and the whole as second. -/
theorem halves_of_start {R A B : Span} (hA : A = ⟨R.start, 0⟩) (hB : B = R) :
    Span.Halves R A B := by
  rw [hA, hB]
  exact Span.halves_at R (Nat.zero_le _)

/-- A call made of a split that is refused, or cuts off nothing. -/
theorem good_of_start {A B : Type} {f : A → AnyView w} {g : B → AnyView w} {v : AnyView w}
    {r : Except Stop (Option (A × B))}
    (h : r = .ok none ∨ ∃ a b, r = .ok (some (a, b)) ∧ (f a).span = ⟨v.span.start, 0⟩ ∧
      (g b).span = v.span) : Good v (r.map (orUnchanged f g v)) := by
  rcases h with hnone | ⟨a, b, hsome, ha, hb⟩
  · exact good_of_split hnone (fun a b hab => absurd hab (by simp))
  · refine good_of_split hsome (fun a b hab => ?_)
    obtain ⟨rfl, rfl⟩ := Prod.mk.inj (Option.some.inj hab)
    exact halves_of_start ha hb

theorem execMemory_good {v : UninitView (Ty.unit w)} {op : Traversal w}
    (h : op.Exact (.sized _ v)) {r : Except Stop (AnyView w × Option (AnyView w))}
    (hr : op.execMemory v = some r) : Good (.sized _ v) r := by
  -- the type `()` has size zero, so only the cut at `0` is exact
  have hzero : ∀ {k : ℕ}, SplitExact (Ty.unit w) v.len k → k ≤ v.len → k = 0 :=
    fun hk hle => (hk (Nat.zero_le _) hle).resolve_left (by simp)
  cases op with
  | splitLayout layout =>
    obtain rfl := Option.some.inj hr
    have hspec := UninitView.splitLayout_spec (hzero (h : SplitExact (Ty.unit w) v.len
      (alignOffsetUnit w v.ptr layout.align)))
    refine good_of_start (hspec.imp_right ?_)
    rintro ⟨v', t, hsome, hv', ht, -⟩
    exact ⟨v', t, hsome, hv', ht⟩
  | splitCast U =>
    obtain rfl := Option.some.inj hr
    exact good_of_start (UninitView.splitCast_spec (U := U) (hzero h))
  | splitSlice U =>
    obtain rfl := Option.some.inj hr
    exact good_of_start (UninitView.splitSlice_spec (U := U) (hzero h))
  | splitAtByte k | splitToFit | cast U | castSlice U | asMemory | splitAt k | shrinkToFit
  | splitFirst | splitLast => exact absurd hr (by simp [Traversal.execMemory])

theorem exec_sized_good {T : Ty w} {v : UninitView T} {op : Traversal w}
    (h : op.Exact (.sized T v)) {r : Except Stop (AnyView w × Option (AnyView w))}
    (hr : op.exec (.sized T v) = some r) : Good (.sized T v) r := by
  cases op with
  | splitAtByte k =>
    obtain rfl := Option.some.inj hr
    refine ⟨_, _, rfl, orUnchanged_divides (fun a b hab => ?_)⟩
    by_cases hk : T.size ≤ k ∧ k ≤ v.len
    · obtain ⟨v', t, hsplit, hv', ht⟩ := ((splitLaw_iff v k).mpr h).inRange hk.1 hk.2
      rw [hsplit] at hab
      obtain ⟨rfl, rfl⟩ := Prod.mk.inj (Option.some.inj hab)
      show Span.Halves v.span v'.span t.span
      rw [hv', ht]
      exact Span.halves_at v.span hk.2
    · rw [((splitLaw_iff v k).mpr h).outOfRange hk] at hab
      exact absurd hab (by simp)
  | splitToFit =>
    obtain rfl := Option.some.inj hr
    obtain ⟨v', t, hsplit, hv', ht⟩ := ((splitLaw_iff v T.size).mpr h).inRange le_rfl v.large
    refine ⟨.sized T v', some (.sized _ t), ?_, ?_⟩
    · rw [UninitView.splitToFit, hsplit]
      rfl
    · show Span.Halves v.span v'.span t.span
      rw [hv', ht]
      exact Span.halves_at v.span v.large
  | cast U =>
    by_cases hfits : fits v.ptr v.len U.toLayout
    · obtain ⟨u, hu, hspan⟩ := UninitView.cast_ok hfits
      simp only [Traversal.exec, hu] at hr
      exact ⟨_, none, (Option.some.inj hr).symm, hspan⟩
    · simp only [Traversal.exec, UninitView.cast_error hfits] at hr
      exact ⟨_, none, (Option.some.inj hr).symm, rfl⟩
  | castSlice U =>
    by_cases hfits : fits v.ptr v.len (Layout.forEmptySlice U)
    · obtain ⟨u, hu, hspan⟩ := UninitView.castSlice_ok hfits
      simp only [Traversal.exec, hu] at hr
      exact ⟨_, none, (Option.some.inj hr).symm, hspan⟩
    · simp only [Traversal.exec, UninitView.castSlice_error hfits] at hr
      exact ⟨_, none, (Option.some.inj hr).symm, rfl⟩
  | asMemory => exact ⟨_, none, (Option.some.inj hr).symm, rfl⟩
  | splitLayout layout | splitCast U | splitSlice U | splitAt k | shrinkToFit | splitFirst
  | splitLast =>
    by_cases hT : T = Ty.unit w
    · subst hT
      simp only [Traversal.exec, dif_pos] at hr
      exact execMemory_good h hr
    · simp only [Traversal.exec, dif_neg hT] at hr
      exact absurd hr (by simp)

theorem exec_slice_good {T : Ty w} {s : UninitSlice T} {op : Traversal w}
    {r : Except Stop (AnyView w × Option (AnyView w))}
    (hr : op.exec (.slice T s) = some r) : Good (.slice T s) r := by
  cases op with
  | asMemory => exact ⟨_, none, (Option.some.inj hr).symm, rfl⟩
  | splitAt k =>
    obtain rfl := Option.some.inj hr
    rcases Nat.lt_or_ge s.len (k * T.size) with hlt | hle
    · exact good_of_split (UninitSlice.splitAt_none hlt) (fun a b hab => absurd hab (by simp))
    · obtain ⟨s', t, hsplit, hs', ht⟩ := UninitSlice.splitAt_some hle
      refine good_of_split hsplit (fun a b hab => ?_)
      obtain ⟨rfl, rfl⟩ := Prod.mk.inj (Option.some.inj hab)
      show Span.Halves s.span s'.span t.span
      rw [hs', ht]
      exact Span.halves_at s.span hle
  | shrinkToFit =>
    obtain rfl := Option.some.inj hr
    obtain ⟨s', t, hsplit, hs', ht⟩ := s.shrinkToFit_ok
    refine ⟨.slice T s', some (.sized _ t), congrArg _ hsplit, ?_⟩
    show Span.Halves s.span s'.span t.span
    rw [hs', ht]
    exact Span.halves_at s.span s.capacity_mul_le
  | splitFirst =>
    obtain rfl := Option.some.inj hr
    rcases Nat.lt_or_ge s.len T.size with hlt | hle
    · exact good_of_split (UninitSlice.splitFirst_none hlt) (fun a b hab => absurd hab (by simp))
    · obtain ⟨s', u, hsplit, hu, hs'⟩ := UninitSlice.splitFirst_some hle
      refine good_of_split hsplit (fun a b hab => ?_)
      obtain ⟨rfl, rfl⟩ := Prod.mk.inj (Option.some.inj hab)
      show Span.Halves s.span s'.span u.span
      rw [hs', hu]
      exact (Span.halves_at s.span hle).symm
  | splitLast =>
    obtain rfl := Option.some.inj hr
    rcases Nat.lt_or_ge s.len T.size with hlt | hle
    · exact good_of_split (UninitSlice.splitLast_none hlt) (fun a b hab => absurd hab (by simp))
    · obtain ⟨s', u, hsplit, hs', hu, hroom⟩ := UninitSlice.splitLast_some hle
      refine good_of_split hsplit (fun a b hab => ?_)
      obtain ⟨rfl, rfl⟩ := Prod.mk.inj (Option.some.inj hab)
      show Span.Halves s.span s'.span u.span
      rw [hs', hu]
      exact Span.halves_at s.span (show _ ≤ s.len by omega)
  | splitAtByte k | splitToFit | splitLayout layout | splitCast U | splitSlice U | cast U
  | castSlice U => exact absurd hr (by simp [Traversal.exec])

/-- **The step lemma.**  A call whose byte-level split is exact does not stop,
and cuts the bytes of its receiver in two or leaves them alone. -/
theorem exec_good {v : AnyView w} {op : Traversal w} (h : op.Exact v)
    {r : Except Stop (AnyView w × Option (AnyView w))} (hr : op.exec v = some r) : Good v r := by
  cases v with
  | sized T v => exact exec_sized_good h hr
  | slice T s => exact exec_slice_good hr

/-! ## Runs -/

/-- Any sequence of calls on the views of one region.  A step is labelled by the
view it is made on, in the order in which the views came up. -/
def splitting (w : ℕ) : Machine (List (AnyView w)) (ℕ × Traversal w) where
  init σ := ∃ v, σ = [v]
  step σ l σ' := ∃ l₁ v l₂ v' new, σ = l₁ ++ v :: l₂ ∧ l.1 = l₁.length ∧
    l.2.exec v = some (.ok (v', new)) ∧ σ' = l₁ ++ v' :: l₂ ++ new.toList

/-- The step's call is exact on the view it is made on. -/
def StepExact (σ : List (AnyView w)) (l : ℕ × Traversal w) : Prop :=
  ∀ v, σ[l.1]? = some v → l.2.Exact v

theorem step_partition {R : Set ℕ} {σ σ' : List (AnyView w)} {l : ℕ × Traversal w}
    (hR : Partition R (σ.map AnyView.addresses)) (hl : StepExact σ l)
    (hstep : (splitting w).step σ l σ') : Partition R (σ'.map AnyView.addresses) := by
  obtain ⟨l₁, v, l₂, v', new, rfl, hlen, hexec, rfl⟩ := hstep
  have hexact : l.2.Exact v := hl v (by rw [hlen, List.getElem?_append_right le_rfl]; simp)
  obtain ⟨v'', new', hok, hdiv⟩ := exec_good hexact hexec
  obtain ⟨rfl, rfl⟩ := ok_pair_inj hok
  rw [List.map_append, List.map_cons] at hR
  cases new with
  | none =>
    have haddr : v'.addresses = v.addresses := congrArg Span.addresses hdiv
    rw [Option.toList_none, List.append_nil, List.map_append, List.map_cons, haddr]
    exact hR
  | some t =>
    rw [Option.toList_some, List.map_append, List.map_append, List.map_cons]
    exact hR.cut hdiv.union hdiv.disjoint

/-- **The run lemma.**  If every byte-level split of a run is exact, the views it
ends with are a partition of the region it started from. -/
theorem run_partition {v₀ : AnyView w} {σ : List (AnyView w)}
    {h : List (List (AnyView w) × (ℕ × Traversal w) × List (AnyView w))}
    (hrun : (splitting w).Run [v₀] h σ) (hexact : ∀ x ∈ h, StepExact x.1 x.2.1) :
    Partition v₀.addresses (σ.map AnyView.addresses) := by
  refine hrun.invariant (I := fun σ => Partition v₀.addresses (σ.map AnyView.addresses))
    (P := StepExact) (fun _ _ _ hR hl hstep => step_partition hR hl hstep) ?_ hexact
  exact Partition.single _

/-- **Where byte-level splitting is a partition.**  A call of `split_at_byte`
keeps its law exactly when it is out of range, or at `0`, or the type has size
one.  In every run from one region whose byte-level splits meet that condition,
the views reached are a partition of the region, and none of the calls that meet
it stops. -/
theorem splitting_partition (w : ℕ) :
    (∀ (T : Ty w) (v : UninitView T) (k : ℕ),
      SplitLaw v k ↔ (T.size ≤ k → k ≤ v.len → T.size = 1 ∨ k = 0)) ∧
    ∀ (v₀ : AnyView w) (h : List (List (AnyView w) × (ℕ × Traversal w) × List (AnyView w)))
      (σ : List (AnyView w)), (splitting w).Run [v₀] h σ → (∀ x ∈ h, StepExact x.1 x.2.1) →
      Partition v₀.addresses (σ.map AnyView.addresses) ∧
        ∀ v ∈ σ, ∀ op : Traversal w, op.Exact v → ∀ s, op.exec v ≠ some (.error s) := by
  refine ⟨fun T v k => splitLaw_iff v k, fun v₀ h σ hrun hexact => ⟨run_partition hrun hexact, ?_⟩⟩
  intro v _ op hop s hs
  obtain ⟨v', new, hok, -⟩ := exec_good hop hs
  exact absurd hok (by simp)

/-- Sixteen bytes of type `u8`, split after four. -/
theorem splitting_partition_bytes :
    let byte : Ty 64 := ⟨⟨1, 1, ⟨0, rfl⟩, by decide⟩, ⟨1, rfl⟩⟩
    let v : UninitView byte := ⟨4096, 16, by decide, by decide, Nat.one_dvd 4096, by decide⟩
    ∃ v' t, v.splitAtByte 4 = some (v', t) ∧ v'.span = ⟨4096, 4⟩ ∧ t.span = ⟨4100, 12⟩ ∧
      Partition v.span.addresses [v'.span.addresses, t.span.addresses] := by
  intro byte v
  have hexact : StepExact [.sized byte v] (0, .splitAtByte 4) := by
    intro u hu
    obtain rfl := Option.some.inj hu
    exact fun _ _ => Or.inl rfl
  obtain ⟨v', t, hsplit, hv', ht⟩ :=
    (((splitting_partition 64).1 byte v 4).mpr fun _ _ => Or.inl rfl).inRange (by decide)
      (by decide)
  have hstep : (splitting 64).step [.sized byte v] (0, .splitAtByte 4)
      [.sized byte v', .sized _ t] :=
    ⟨[], .sized byte v, [], .sized byte v', some (.sized _ t), rfl, rfl,
      by simp only [Traversal.exec, hsplit]; rfl, rfl⟩
  refine ⟨v', t, hsplit, hv', ht, ?_⟩
  exact ((splitting_partition 64).2 _ _ _ (Machine.Run.head hstep (Machine.Run.refl _))
    (fun x hx => by rw [List.mem_singleton.mp hx]; exact hexact)).1

/-- **The rest overlaps the receiver.**  Sixteen bytes of untyped memory are
split after four: the rest starts where the receiver does. -/
theorem splitAtByte_overlap :
    let v : UninitView (Ty.unit 64) := UninitView.fromMemory 4096 16 (by decide) (by decide)
    ¬ SplitLaw v 4 ∧ ∃ h σ, (splitting 64).Run [.sized _ v] h σ ∧
      ¬ Partition v.span.addresses (σ.map AnyView.addresses) := by
  intro v
  obtain ⟨v', t, hsplit, hv', ht⟩ :=
    UninitView.splitAtByte_some (v := v) (k := 4) (Nat.zero_le _) (by decide)
  have hstep : (splitting 64).step [.sized _ v] (0, .splitAtByte 4)
      [.sized _ v', .sized _ t] :=
    ⟨[], .sized _ v, [], .sized _ v', some (.sized _ t), rfl, rfl,
      by simp only [Traversal.exec, hsplit]; rfl, rfl⟩
  refine ⟨?_, _, _, Machine.Run.head hstep (Machine.Run.refl _), ?_⟩
  · intro h
    have hexact := (splitLaw_iff v 4).mp h (Nat.zero_le _) (by decide)
    exact absurd hexact (by decide)
  · intro h
    have hdisj : Disjoint v'.span.addresses t.span.addresses :=
      (List.pairwise_cons.mp h.disjoint).1 _ (List.mem_singleton_self _)
    rw [hv', ht] at hdisj
    exact Set.disjoint_left.mp hdisj
      (Span.mem_addresses.mpr (by decide : 4096 ≤ 4096 ∧ 4096 < 4100))
      (Span.mem_addresses.mpr (by decide : 4096 ≤ 4096 ∧ 4096 < 4108))

end StaticAlloc
