import StaticAlloc.Uninit.Split

/-!
# The length in the slice pointer

The length of a slice view is stored twice: in bytes, and as the number of elements
in the slice pointer.  Traversals go by the bytes; a reference made of the view goes
by the pointer.  `UninitSlice.InBounds` is what makes the two agree: the elements
the pointer names are within the bytes.

A fresh slice view names as many elements as fit (`castSlice_inBounds`).  `split_at`
shortens the receiver by its bytes alone and leaves the slice pointer as it was
(`splitAt_sliceLen`), so afterwards the pointer may name elements that were split
off.  The callers fare differently: `split_first` makes the fresh rest the receiver,
`shrink_to_fit` cuts where no element is, and `split_last` drops an element without
telling the pointer.  `exec_inBounds_iff` is the exact condition for one call, and
`run_contained` carries it to runs, with the consequence for references: within a
family of views that were split from one another, what one of them points at is
apart from the bytes of the others.
-/

namespace StaticAlloc

open Toolkit

variable {w : ℕ} {T U : Ty w}

/-! ## One slice view -/

namespace UninitSlice

variable {s s' t : UninitSlice T} {k : ℕ}

/-- What `as_ref`, `as_mut`, `into_ref` and `into_mut` make a reference to. -/
def pointee (s : UninitSlice T) : Span := ⟨s.ptr, s.sliceLen * T.size⟩

/-- The elements named by the slice pointer are within the bytes of the view. -/
def InBounds (s : UninitSlice T) : Prop := s.sliceLen * T.size ≤ s.len

theorem castSlice_inBounds {v : UninitView U} (h : v.castSlice T = .ok s) : s.InBounds := by
  rw [InBounds, castSlice_sliceLen h]
  exact s.capacity_mul_le

theorem empty_inBounds (T : Ty w) : (empty T).InBounds := (Nat.zero_mul _).le

theorem fromMaybeUninitSlice_inBounds {ptr n : ℕ} {nonnull : 0 < ptr}
    {word : n * T.size < 2 ^ w} (h : fromMaybeUninitSlice T ptr n nonnull word = .ok s) :
    s.InBounds := by
  rw [fromMaybeUninitSlice] at h
  exact castSlice_inBounds (of_unwrapOk h)

/-- **The slice pointer survives a split.**  The receiver is shortened to `k`
elements and still names as many as before; the part split off is fresh. -/
theorem splitAt_sliceLen (h : s.splitAt k = .ok (some (s', t))) :
    s'.len = k * T.size ∧ s'.sliceLen = s.sliceLen ∧ t.InBounds := by
  rw [splitAt] at h
  cases hmul : checkedMul w k T.size with
  | none =>
    rw [hmul] at h
    exact absurd h (by simp)
  | some bytes =>
    have hbytes : bytes = k * T.size := by
      rw [checkedMul] at hmul
      split at hmul
      · exact (Option.some.inj hmul).symm
      · exact absurd hmul (by simp)
    subst hbytes
    rw [hmul] at h
    dsimp only at h
    split at h
    · exact absurd h (by simp)
    · obtain ⟨other, hcast, h⟩ := of_bind_ok h
      obtain ⟨rfl, rfl⟩ := Prod.mk.inj (Option.some.inj (Except.ok.inj h))
      exact ⟨rfl, rfl, castSlice_inBounds (of_unwrapOk hcast)⟩

/-- A receiver of `split_at` is in bounds if all its elements are kept. -/
theorem splitAt_inBounds_iff (h : s.splitAt k = .ok (some (s', t))) :
    s'.InBounds ↔ T.size = 0 ∨ s.sliceLen ≤ k := by
  obtain ⟨hlen, hslice, -⟩ := splitAt_sliceLen h
  rw [InBounds, hlen, hslice]
  rcases Nat.eq_zero_or_pos T.size with hzero | hpos
  · rw [hzero, Nat.mul_zero, Nat.mul_zero]
    exact iff_of_true le_rfl (Or.inl rfl)
  · rw [Nat.mul_le_mul_right_iff hpos, or_iff_right hpos.ne']

/-- The receiver after `split_first` is the part that `split_at` split off. -/
theorem splitFirst_receiver {u : UninitView T} (h : s.splitFirst = .ok (some (s', u))) :
    s'.InBounds := by
  rw [splitFirst] at h
  obtain ⟨r, hsplit, h⟩ := of_bind_ok h
  rcases r with - | ⟨part, rest⟩
  · exact absurd h (by simp)
  · obtain ⟨u', -, h⟩ := of_bind_ok h
    obtain ⟨rfl, -⟩ := Prod.mk.inj (Option.some.inj (Except.ok.inj h))
    exact (splitAt_sliceLen hsplit).2.2

/-- The receiver after `split_last` is that of `split_at`. -/
theorem splitLast_receiver {u : UninitView T} (h : s.splitLast = .ok (some (s', u))) :
    ∃ t, s.splitAt (wrappingSub w s.capacity 1) = .ok (some (s', t)) := by
  rw [splitLast] at h
  obtain ⟨r, hsplit, h⟩ := of_bind_ok h
  rcases r with - | ⟨rest, part⟩
  · exact absurd h (by simp)
  · obtain ⟨u', -, h⟩ := of_bind_ok h
    obtain ⟨rfl, -⟩ := Prod.mk.inj (Option.some.inj (Except.ok.inj h))
    exact ⟨part, hsplit⟩

/-- `split_last` keeps a receiver in bounds if there was an element to spare. -/
theorem splitLast_inBounds_iff {u : UninitView T} (hroom : T.size ≤ s.len)
    (h : s.splitLast = .ok (some (s', u))) :
    s'.InBounds ↔ T.size = 0 ∨ s.sliceLen < s.capacity := by
  obtain ⟨t, hsplit⟩ := splitLast_receiver h
  rw [splitAt_inBounds_iff hsplit]
  rcases Nat.eq_zero_or_pos T.size with hzero | hpos
  · exact iff_of_true (Or.inl hzero) (Or.inl hzero)
  · have hlast := last_index_succ hpos hroom
    rw [or_iff_right hpos.ne', or_iff_right hpos.ne']
    omega

/-- The slice pointer of a view in bounds names no more than the capacity. -/
theorem InBounds.le_capacity (h : s.InBounds) (hpos : 0 < T.size) : s.sliceLen ≤ s.capacity := by
  rw [capacity_of_size_pos hpos]
  exact (Nat.le_div_iff_mul_le hpos).mpr h

end UninitSlice

/-! ## Any view -/

namespace AnyView

/-- What a reference made of the view points at. -/
def pointee : AnyView w → Span
  | sized T v => ⟨v.ptr, T.size⟩
  | slice _ s => s.pointee

/-- What a reference points at is within the bytes of the view. -/
def InBounds : AnyView w → Prop
  | sized T v => T.size ≤ v.len
  | slice _ s => s.InBounds

/-- `borrow` and `borrow_mut`: a copy of the pointer and of the length. -/
def borrow (v : AnyView w) : AnyView w := v

variable {v : AnyView w}

theorem sized_inBounds (v : UninitView T) : (sized T v).InBounds := v.large

theorem pointee_start (v : AnyView w) : v.pointee.start = v.span.start := by
  cases v with
  | sized T v => rfl
  | slice T s => rfl

theorem InBounds.pointee_size (h : v.InBounds) : v.pointee.size ≤ v.span.size := by
  cases v with
  | sized T v => exact h
  | slice T s => exact h

theorem InBounds.pointee_subset (h : v.InBounds) : v.pointee.addresses ⊆ v.addresses := by
  intro a ha
  have hstart := v.pointee_start
  have hsize := h.pointee_size
  rw [Span.mem_addresses] at ha
  rw [addresses, Span.mem_addresses]
  omega

end AnyView

/-- The traversals that a slice view offers, and the two between slices and memory. -/
def Traversal.OfSlice : Traversal w → Prop
  | splitAt _ | shrinkToFit | splitFirst | splitLast | asMemory | castSlice _ => True
  | _ => False

/-- The call leaves no receiver whose slice pointer names more than it keeps. -/
def Traversal.KeepsMetadata (v : AnyView w) (op : Traversal w) : Prop :=
  match v, op with
  | .slice T s, splitAt k => T.size = 0 ∨ s.len < k * T.size ∨ s.sliceLen ≤ k
  | .slice T s, splitLast => T.size = 0 ∨ s.len < T.size ∨ s.sliceLen < s.capacity
  | _, _ => True

theorem Traversal.OfSlice.exact {op : Traversal w} (h : op.OfSlice) (v : AnyView w) :
    op.Exact v := by
  cases op with
  | splitAt k | shrinkToFit | splitFirst | splitLast | asMemory | castSlice U =>
    cases v with
    | sized T v => trivial
    | slice T s => trivial
  | splitAtByte k | splitToFit | splitLayout layout | splitCast U | splitSlice U | cast U =>
    exact absurd h id

/-! ## One call -/

/-- The receiver of a call and the view returned, if any, are in bounds. -/
def BothInBounds (v' : AnyView w) (new : Option (AnyView w)) : Prop :=
  v'.InBounds ∧ ∀ t ∈ new, t.InBounds

variable {v v' : AnyView w} {new : Option (AnyView w)} {op : Traversal w}

theorem bothInBounds_none_iff : BothInBounds v' none ↔ v'.InBounds :=
  and_iff_left fun _ ht => absurd ht (by simp)

theorem bothInBounds_some_iff {t : AnyView w} (h : t.InBounds) :
    BothInBounds v' (some t) ↔ v'.InBounds := by
  refine and_iff_left fun u hu => ?_
  rw [← Option.some.inj hu]
  exact h

theorem exec_sized_inBounds {u : UninitView T} (hop : op.OfSlice)
    (hexec : op.exec (.sized T u) = some (.ok (v', new))) : BothInBounds v' new := by
  cases op with
  | asMemory =>
    obtain ⟨rfl, rfl⟩ := ok_pair_inj (Option.some.inj hexec)
    exact bothInBounds_none_iff.mpr (AnyView.sized_inBounds _)
  | castSlice U =>
    cases hcast : u.castSlice U with
    | error u' =>
      simp only [Traversal.exec, hcast] at hexec
      obtain ⟨rfl, rfl⟩ := ok_pair_inj (Option.some.inj hexec)
      exact bothInBounds_none_iff.mpr (AnyView.sized_inBounds _)
    | ok s =>
      simp only [Traversal.exec, hcast] at hexec
      obtain ⟨rfl, rfl⟩ := ok_pair_inj (Option.some.inj hexec)
      exact bothInBounds_none_iff.mpr (UninitSlice.castSlice_inBounds hcast)
  | splitAt k | shrinkToFit | splitFirst | splitLast =>
    by_cases hT : T = Ty.unit w
    · subst hT
      exact absurd hexec (by simp [Traversal.exec, Traversal.execMemory])
    · exact absurd hexec (by simp [Traversal.exec, hT])
  | splitAtByte k | splitToFit | splitLayout layout | splitCast U | splitSlice U | cast U =>
    exact absurd hop id

/-- **One call, exactly.**  A call on a view in bounds leaves the receiver and the
part split off in bounds exactly if it keeps the metadata. -/
theorem exec_slice_inBounds_iff {s : UninitSlice T} (hop : op.OfSlice) (h : s.InBounds)
    (hexec : op.exec (.slice T s) = some (.ok (v', new))) :
    BothInBounds v' new ↔ op.KeepsMetadata (.slice T s) := by
  have hself : BothInBounds (.slice T s) none := bothInBounds_none_iff.mpr h
  cases op with
  | asMemory =>
    obtain ⟨rfl, rfl⟩ := ok_pair_inj (Option.some.inj hexec)
    exact iff_of_true (bothInBounds_none_iff.mpr (AnyView.sized_inBounds _)) trivial
  | splitAt k =>
    rcases Nat.lt_or_ge s.len (k * T.size) with hlt | hle
    · rw [Traversal.exec, UninitSlice.splitAt_none hlt] at hexec
      obtain ⟨rfl, rfl⟩ := ok_pair_inj (Option.some.inj hexec)
      exact iff_of_true hself (Or.inr (Or.inl hlt))
    · obtain ⟨s', t, hsplit, -, -⟩ := UninitSlice.splitAt_some hle
      have ht := (UninitSlice.splitAt_sliceLen hsplit).2.2
      rw [Traversal.exec, hsplit] at hexec
      obtain ⟨rfl, rfl⟩ := ok_pair_inj (Option.some.inj hexec)
      rw [bothInBounds_some_iff (show (AnyView.slice T t).InBounds from ht)]
      refine (UninitSlice.splitAt_inBounds_iff hsplit).trans ?_
      exact or_congr_right (or_iff_right (by omega)).symm
  | shrinkToFit =>
    obtain ⟨s', t, hsplit, -, -⟩ := UninitSlice.splitAt_some s.capacity_mul_le
    have hshrink : s.shrinkToFit = .ok (s', t.decast) := by
      rw [UninitSlice.shrinkToFit, hsplit]
      rfl
    rw [Traversal.exec, hshrink] at hexec
    obtain ⟨rfl, rfl⟩ := ok_pair_inj (Option.some.inj hexec)
    rw [bothInBounds_some_iff (AnyView.sized_inBounds t.decast)]
    refine iff_of_true ((UninitSlice.splitAt_inBounds_iff hsplit).mpr ?_) trivial
    exact T.size.eq_zero_or_pos.imp id h.le_capacity
  | splitFirst =>
    rcases Nat.lt_or_ge s.len T.size with hlt | hle
    · rw [Traversal.exec, UninitSlice.splitFirst_none hlt] at hexec
      obtain ⟨rfl, rfl⟩ := ok_pair_inj (Option.some.inj hexec)
      exact iff_of_true hself trivial
    · obtain ⟨s', u, hfirst, -, -⟩ := UninitSlice.splitFirst_some hle
      rw [Traversal.exec, hfirst] at hexec
      obtain ⟨rfl, rfl⟩ := ok_pair_inj (Option.some.inj hexec)
      rw [bothInBounds_some_iff (AnyView.sized_inBounds u)]
      exact iff_of_true (UninitSlice.splitFirst_receiver hfirst) trivial
  | splitLast =>
    rcases Nat.lt_or_ge s.len T.size with hlt | hle
    · rw [Traversal.exec, UninitSlice.splitLast_none hlt] at hexec
      obtain ⟨rfl, rfl⟩ := ok_pair_inj (Option.some.inj hexec)
      exact iff_of_true hself (Or.inr (Or.inl hlt))
    · obtain ⟨s', u, hlast, -, -, -⟩ := UninitSlice.splitLast_some hle
      rw [Traversal.exec, hlast] at hexec
      obtain ⟨rfl, rfl⟩ := ok_pair_inj (Option.some.inj hexec)
      rw [bothInBounds_some_iff (AnyView.sized_inBounds u)]
      refine (UninitSlice.splitLast_inBounds_iff hle hlast).trans ?_
      exact or_congr_right (or_iff_right (by omega)).symm
  | castSlice U => exact absurd hexec (by simp [Traversal.exec])
  | splitAtByte k | splitToFit | splitLayout layout | splitCast U | splitSlice U | cast U =>
    exact absurd hop id

/-- **The step lemma.** -/
theorem exec_inBounds_iff (hop : op.OfSlice) (h : v.InBounds)
    (hexec : op.exec v = some (.ok (v', new))) :
    BothInBounds v' new ↔ op.KeepsMetadata v := by
  cases v with
  | sized T u => exact iff_of_true (exec_sized_inBounds hop hexec) trivial
  | slice T s => exact exec_slice_inBounds_iff hop h hexec

/-! ## Families of views -/

/-- Views obtained from one another by splitting, so that their bytes are apart. -/
structure Contained (F : List (AnyView w)) : Prop where
  inBounds : ∀ v ∈ F, v.InBounds
  apart : (F.map AnyView.addresses).Pairwise Disjoint

/-- What one view of the family points at is apart from the bytes of another. -/
theorem Contained.disjoint {F : List (AnyView w)} (h : Contained F) {i j : ℕ} (hij : i ≠ j)
    {u v : AnyView w} (hu : F[i]? = some u) (hv : F[j]? = some v) :
    Disjoint u.pointee.addresses v.addresses := by
  have hapart := List.pairwise_iff_getElem.mp (List.pairwise_map.mp h.apart)
  obtain ⟨hi, hiu⟩ := List.getElem?_eq_some_iff.mp hu
  obtain ⟨hj, hjv⟩ := List.getElem?_eq_some_iff.mp hv
  have huv : Disjoint u.addresses v.addresses := by
    rw [← hiu, ← hjv]
    rcases Nat.lt_or_gt_of_ne hij with hlt | hgt
    · exact hapart i j hi hj hlt
    · exact (hapart j i hj hi hgt).symm
  exact huv.mono_left (h.inBounds u (List.mem_of_getElem? hu)).pointee_subset

/-- The views with which a family starts. -/
inductive Constructed : AnyView w → Prop where
  /-- Anything may be cast to a slice. -/
  | sized (T : Ty w) (v : UninitView T) : Constructed (.sized T v)
  | empty (T : Ty w) : Constructed (.slice T (UninitSlice.empty T))
  | fromMaybeUninitSlice {T : Ty w} {ptr n : ℕ} {nonnull : 0 < ptr}
      {word : n * T.size < 2 ^ w} {s : UninitSlice T} :
      UninitSlice.fromMaybeUninitSlice T ptr n nonnull word = .ok s → Constructed (.slice T s)

theorem Constructed.inBounds {v : AnyView w} (h : Constructed v) : v.InBounds := by
  cases h with
  | sized T v => exact AnyView.sized_inBounds v
  | empty T => exact UninitSlice.empty_inBounds T
  | fromMaybeUninitSlice h => exact UninitSlice.fromMaybeUninitSlice_inBounds h

/-- What a program may do with slice views. -/
inductive ViewStep (w : ℕ) where
  | construct (v : AnyView w)
  /-- Borrow view `j` of family `i`. -/
  | borrow (i j : ℕ)
  /-- A call on view `j` of family `i`. -/
  | call (i j : ℕ) (op : Traversal w)

/-- Programs that make slice views, borrow them, and call their methods.  A borrowed
view starts a family of its own: what is split off of it is not split off of the
view it was borrowed from. -/
def viewing (w : ℕ) : Machine (List (List (AnyView w))) (ViewStep w) where
  init σ := σ = []
  step σ l σ' :=
    match l with
    | .construct v => Constructed v ∧ σ' = σ ++ [[v]]
    | .borrow i j => ∃ F v, σ[i]? = some F ∧ F[j]? = some v ∧ σ' = σ ++ [[v.borrow]]
    | .call i j op => op.OfSlice ∧ ∃ σ₁ F σ₂ F', σ = σ₁ ++ F :: σ₂ ∧ i = σ₁.length ∧
        (splitting w).step F (j, op) F' ∧ σ' = σ₁ ++ F' :: σ₂

/-- The step's call keeps the metadata of the view it is made on. -/
def StepKeeps (σ : List (List (AnyView w))) : ViewStep w → Prop
  | .call i j op => ∀ F v, σ[i]? = some F → F[j]? = some v → op.KeepsMetadata v
  | _ => True

theorem Contained.single {v : AnyView w} (h : v.InBounds) : Contained [v] where
  inBounds u hu := by rwa [List.mem_singleton.mp hu]
  apart := List.pairwise_singleton _ _

/-- A call that keeps the metadata keeps its family contained. -/
theorem Contained.call {F F' : List (AnyView w)} (h : Contained F) {j : ℕ} {op : Traversal w}
    (hop : op.OfSlice) (hkeep : ∀ v, F[j]? = some v → op.KeepsMetadata v)
    (hstep : (splitting w).step F (j, op) F') : Contained F' := by
  have hpart : Partition _ (F'.map AnyView.addresses) :=
    step_partition ⟨h.apart, rfl⟩ (fun v _ => hop.exact v) hstep
  refine ⟨?_, hpart.disjoint⟩
  obtain ⟨l₁, v, l₂, v', new, rfl, hj, hexec, rfl⟩ := hstep
  have hv : (l₁ ++ v :: l₂)[j]? = some v := by
    rw [show j = l₁.length from hj, List.getElem?_append_right le_rfl, Nat.sub_self]
    rfl
  have hmem : v ∈ l₁ ++ v :: l₂ := List.mem_append_right _ List.mem_cons_self
  obtain ⟨hv', hnew⟩ := (exec_inBounds_iff hop (h.inBounds v hmem) hexec).mpr (hkeep v hv)
  intro u hu
  rcases List.mem_append.mp hu with hu | hu
  · rcases List.mem_append.mp hu with hu | hu
    · exact h.inBounds u (List.mem_append_left _ hu)
    · rcases List.mem_cons.mp hu with rfl | hu
      · exact hv'
      · exact h.inBounds u (List.mem_append_right _ (List.mem_cons_of_mem _ hu))
  · exact hnew u (Option.mem_toList.mp hu)

/-- One step of a program whose calls keep the metadata. -/
theorem step_contained {σ σ' : List (List (AnyView w))} {l : ViewStep w}
    (h : ∀ F ∈ σ, Contained F) (hkeep : StepKeeps σ l) (hstep : (viewing w).step σ l σ') :
    ∀ F ∈ σ', Contained F := by
  intro F hF
  cases l with
  | construct v =>
    obtain ⟨hv, rfl⟩ := hstep
    rcases List.mem_append.mp hF with hF | hF
    · exact h F hF
    · rw [List.mem_singleton.mp hF]
      exact Contained.single hv.inBounds
  | borrow i j =>
    obtain ⟨G, v, hG, hv, rfl⟩ := hstep
    rcases List.mem_append.mp hF with hF | hF
    · exact h F hF
    · rw [List.mem_singleton.mp hF]
      have hcontained := h G (List.mem_of_getElem? hG)
      exact Contained.single (hcontained.inBounds v (List.mem_of_getElem? hv))
  | call i j op =>
    obtain ⟨hop, σ₁, G, σ₂, G', rfl, hi, hsplit, rfl⟩ := hstep
    have hG : (σ₁ ++ G :: σ₂)[i]? = some G := by
      rw [hi, List.getElem?_append_right le_rfl, Nat.sub_self]
      rfl
    rcases List.mem_append.mp hF with hF | hF
    · exact h F (List.mem_append_left _ hF)
    · rcases List.mem_cons.mp hF with rfl | hF
      · have hmem : G ∈ σ₁ ++ G :: σ₂ := List.mem_append_right _ List.mem_cons_self
        exact (h G hmem).call hop (fun v hv => hkeep G v hG hv) hsplit
      · exact h F (List.mem_append_right _ (List.mem_cons_of_mem _ hF))

/-- **The run lemma.**  If no call of a run leaves stale metadata behind, every
family of views it reaches is contained. -/
theorem run_contained {σ : List (List (AnyView w))}
    {h : List (List (List (AnyView w)) × ViewStep w × List (List (AnyView w)))}
    (hrun : (viewing w).Run [] h σ) (hkeep : ∀ x ∈ h, StepKeeps x.1 x.2.1) :
    ∀ F ∈ σ, Contained F := by
  refine hrun.invariant (I := fun σ => ∀ F ∈ σ, Contained F) (P := StepKeeps)
    (fun _ _ _ h hkeep hstep => step_contained h hkeep hstep) ?_ hkeep
  intro F hF
  exact absurd hF List.not_mem_nil

/-- **Where the slice pointer stays within the bytes.**  A call on a view in bounds
leaves the receiver and the part split off in bounds exactly if it keeps the
metadata.  In every run whose calls all do, every slice view reached is aligned and
names no more than its bytes hold, and a reference made of a view is apart from all
views that were split off of it, or that it was split off of. -/
theorem slice_metadata (w : ℕ) :
    (∀ (v v' : AnyView w) (new : Option (AnyView w)) (op : Traversal w), op.OfSlice →
      v.InBounds → op.exec v = some (.ok (v', new)) →
      (BothInBounds v' new ↔ op.KeepsMetadata v)) ∧
    ∀ (h : List (List (List (AnyView w)) × ViewStep w × List (List (AnyView w))))
      (σ : List (List (AnyView w))), (viewing w).Run [] h σ →
      (∀ x ∈ h, StepKeeps x.1 x.2.1) → ∀ F ∈ σ,
        (∀ (T : Ty w) (s : UninitSlice T), .slice T s ∈ F →
          T.align ∣ s.ptr ∧ s.sliceLen * T.size ≤ s.len) ∧
        ∀ (i j : ℕ) (u v : AnyView w), i ≠ j → F[i]? = some u → F[j]? = some v →
          Disjoint u.pointee.addresses v.addresses := by
  refine ⟨fun v v' new op hop h hexec => exec_inBounds_iff hop h hexec, ?_⟩
  intro h σ hrun hkeep F hF
  have hcontained := run_contained hrun hkeep F hF
  refine ⟨?_, ?_⟩
  · intro T s hs
    exact ⟨s.aligned, hcontained.inBounds _ hs⟩
  · intro i j u v hij hu hv
    exact hcontained.disjoint hij hu hv

/-- Of two words the first is split off; the receiver names the second alone. -/
theorem slice_metadata_split_first :
    let s : UninitSlice Ty.word := ⟨4096, 16, 2, by decide, by decide, by decide⟩
    let s' : UninitSlice Ty.word := ⟨4104, 8, 1, by decide, by decide, by decide⟩
    let u : UninitView Ty.word := ⟨4096, 8, by decide, by decide, by decide, by decide⟩
    s.splitFirst = .ok (some (s', u)) ∧
      BothInBounds (.slice _ s') (some (.sized _ u)) ∧
      Disjoint s'.pointee.addresses u.span.addresses := by
  have hsplit : UninitSlice.splitFirst (T := Ty.word) ⟨4096, 16, 2, by decide, by decide,
      by decide⟩ = .ok (some (⟨4104, 8, 1, by decide, by decide, by decide⟩,
        ⟨4096, 8, by decide, by decide, by decide, by decide⟩)) := rfl
  intro s s' u
  have hs : s.splitFirst = .ok (some (s', u)) := hsplit
  have hexec : Traversal.splitFirst.exec (.slice _ s) =
      some (.ok (.slice _ s', some (.sized _ u))) := by
    rw [Traversal.exec, hs]
    rfl
  have hmake : (viewing 64).step [] (.construct (.slice _ s)) [[.slice _ s]] :=
    ⟨@Constructed.fromMaybeUninitSlice 64 Ty.word 4096 2 (by decide) (by decide) s rfl, rfl⟩
  have hcall : (viewing 64).step [[.slice _ s]] (.call 0 0 .splitFirst)
      [[.slice _ s', .sized _ u]] :=
    ⟨trivial, [], _, [], _, rfl, rfl, ⟨[], _, [], _, _, rfl, rfl, hexec, rfl⟩, rfl⟩
  have hrun := Machine.Run.head hmake (Machine.Run.head hcall (Machine.Run.refl _))
  refine ⟨hs, ((slice_metadata 64).1 (.slice _ s) _ _ .splitFirst trivial
    (show 2 * 8 ≤ 16 by decide) hexec).mpr trivial, ?_⟩
  refine ((slice_metadata 64).2 _ _ hrun ?_ _ (List.mem_singleton_self _)).2 0 1 _ _
    Nat.zero_ne_one rfl rfl
  intro x hx
  rcases List.mem_cons.mp hx with rfl | hx
  · trivial
  · rw [List.mem_singleton.mp hx]
    intro F v hF hv
    obtain rfl := Option.some.inj hF
    obtain rfl := Option.some.inj hv
    trivial

/-- **The receiver names what was split off.**  Of two words the receiver keeps the
first, and a reference made of it reaches over the second. -/
theorem splitAt_names_split_off :
    let s : UninitSlice Ty.word := ⟨4096, 16, 2, by decide, by decide, by decide⟩
    let s' : UninitSlice Ty.word := ⟨4096, 8, 2, by decide, by decide, by decide⟩
    let t : UninitSlice Ty.word := ⟨4104, 8, 1, by decide, by decide, by decide⟩
    s.splitAt 1 = .ok (some (s', t)) ∧
      (∃ h, (viewing 64).Run [] h [[.slice _ s', .slice _ t]]) ∧
      ¬ s'.sliceLen * Ty.word.size ≤ s'.len ∧
      ¬ Disjoint s'.pointee.addresses t.span.addresses := by
  have hsplit : UninitSlice.splitAt (T := Ty.word) ⟨4096, 16, 2, by decide, by decide,
      by decide⟩ 1 = .ok (some (⟨4096, 8, 2, by decide, by decide, by decide⟩,
        ⟨4104, 8, 1, by decide, by decide, by decide⟩)) := rfl
  intro s s' t
  have hs : s.splitAt 1 = .ok (some (s', t)) := hsplit
  have hexec : (Traversal.splitAt 1).exec (.slice _ s) =
      some (.ok (.slice _ s', some (.slice _ t))) := by
    rw [Traversal.exec, hs]
    rfl
  have hmake : (viewing 64).step [] (.construct (.slice _ s)) [[.slice _ s]] :=
    ⟨@Constructed.fromMaybeUninitSlice 64 Ty.word 4096 2 (by decide) (by decide) s rfl, rfl⟩
  have hcall : (viewing 64).step [[.slice _ s]] (.call 0 0 (.splitAt 1))
      [[.slice _ s', .slice _ t]] :=
    ⟨trivial, [], _, [], _, rfl, rfl, ⟨[], _, [], _, _, rfl, rfl, hexec, rfl⟩, rfl⟩
  refine ⟨hs, ⟨_, Machine.Run.head hmake (Machine.Run.head hcall (Machine.Run.refl _))⟩,
    show ¬ 2 * 8 ≤ 8 by decide, ?_⟩
  intro h
  exact Set.disjoint_left.mp h
    (Span.mem_addresses.mpr (by decide : 4096 ≤ 4104 ∧ 4104 < 4112))
    (Span.mem_addresses.mpr (by decide : 4104 ≤ 4104 ∧ 4104 < 4112))

end StaticAlloc
