import StaticAlloc.Uninit.Split

/-!
# Splitting a slice between its elements

A slice view of `len` bytes has `len / size` elements and `len % size` bytes
behind them that belong to none; a slice of zero-sized elements has as many
elements as a `usize` can count, over however many bytes.  Four methods cut such
a view, and all of them go through `split_at`:

* `split_at(k)` cuts after `k` elements, if that many bytes do not overflow and
  are there (`splitAt_law`);
* `split_first` cuts after one, and the receiver and the part change places
  (`splitFirst_law`);
* `split_last` cuts before the last one.  Without any element the index it
  computes wraps around, and no region is that long (`splitLast_law`);
* `shrink_to_fit` cuts behind the last one (`shrinkToFit_law`).

Each law is about the call as a traversal: it says what the receiver is
afterwards and which view is returned.  A call that returns nothing leaves the
receiver as it was, in every field.
-/

namespace StaticAlloc

open Toolkit

variable {w : ℕ} {T : Ty w}

namespace UninitSlice

/-- The two slices that `split_at(k)` makes of a slice. -/
structure SplitsAt (s : UninitSlice T) (k : ℕ) (first second : UninitSlice T) : Prop where
  adjacent : Span.Adjacent s.span first.span second.span
  bytes : first.len = k * T.size
  aligned : T.align ∣ first.ptr ∧ T.align ∣ second.ptr
  capacity : 0 < T.size → first.capacity + second.capacity = s.capacity

/-- The element that is split off a slice, and what the slice is then. -/
structure SplitsElement (s rest : UninitSlice T) (element : UninitView T) : Prop where
  aligned : T.align ∣ element.ptr ∧ T.align ∣ rest.ptr
  large : T.size ≤ element.len
  /-- The part split off counts as one element. -/
  one : 0 < T.size → element.len / T.size = 1
  capacity : 0 < T.size → element.len / T.size + rest.capacity = s.capacity

variable {s : UninitSlice T}

/-- There is an element in the slice if there are the bytes of one. -/
theorem one_le_capacity_iff (hw : 0 < w) : 1 ≤ s.capacity ↔ T.size ≤ s.len := by
  rcases Nat.eq_zero_or_pos T.size with hz | hpos
  · have := Nat.one_lt_two_pow hw.ne'
    rw [capacity_of_size_eq_zero hz, usizeMax, hz]
    omega
  · rw [capacity_of_size_pos hpos]
    exact Nat.one_le_div_iff hpos

/-- Behind `k` elements there are the others. -/
theorem capacity_of_cut {k : ℕ} (hpos : 0 < T.size) (hk : k * T.size ≤ s.len) :
    k + (s.len - k * T.size) / T.size = s.capacity := by
  have hle : k ≤ s.len / T.size := (Nat.le_div_iff_mul_le hpos).mpr hk
  rw [capacity_of_size_pos hpos, Nat.mul_comm, Nat.sub_mul_div]
  exact Nat.add_sub_of_le hle

/-! ## The law of each method -/

/-- `split_at(k)` succeeds if the bytes before the cut can be counted, and are there. -/
theorem splitAt_law (s : UninitSlice T) (k : ℕ) :
    (k * T.size < 2 ^ w ∧ k * T.size ≤ s.len → ∃ first second : UninitSlice T,
      (Traversal.splitAt k).exec (.slice T s) =
        some (.ok (.slice T first, some (.slice T second))) ∧ s.SplitsAt k first second) ∧
    (¬ (k * T.size < 2 ^ w ∧ k * T.size ≤ s.len) →
      (Traversal.splitAt k).exec (.slice T s) = some (.ok (.slice T s, none))) := by
  have hword := s.word
  constructor
  · rintro ⟨-, hk⟩
    obtain ⟨a, b, hsplit, ha, hb⟩ := splitAt_some hk
    have halen : a.len = k * T.size := congrArg Span.size ha
    have hblen : b.len = s.len - k * T.size := congrArg Span.size hb
    refine ⟨a, b, by simp only [Traversal.exec, hsplit]; rfl, ?_, halen, ⟨a.aligned, b.aligned⟩, ?_⟩
    · rw [ha, hb]
      exact Span.adjacent_at s.span hk
    · intro hpos
      rw [capacity_of_size_pos hpos (s := a), capacity_of_size_pos hpos (s := b), halen, hblen,
        Nat.mul_div_cancel k hpos]
      exact capacity_of_cut hpos hk
  · intro hnot
    have hk : s.len < k * T.size := by omega
    simp only [Traversal.exec, splitAt_none hk]
    rfl

/-- `split_first` succeeds if there is an element. -/
theorem splitFirst_law (hw : 0 < w) (s : UninitSlice T) :
    (1 ≤ s.capacity → ∃ (rest : UninitSlice T) (element : UninitView T),
      Traversal.splitFirst.exec (.slice T s) = some (.ok (.slice T rest, some (.sized T element))) ∧
      Span.Adjacent s.span element.span rest.span ∧ s.SplitsElement rest element) ∧
    (¬ 1 ≤ s.capacity →
      Traversal.splitFirst.exec (.slice T s) = some (.ok (.slice T s, none))) := by
  rw [one_le_capacity_iff hw]
  constructor
  · intro hone
    obtain ⟨rest, u, hsplit, hu, hrest⟩ := splitFirst_some hone
    have hulen : u.len = T.size := congrArg Span.size hu
    have hrlen : rest.len = s.len - T.size := congrArg Span.size hrest
    have hdiv : 0 < T.size → u.len / T.size = 1 := fun hpos => by rw [hulen, Nat.div_self hpos]
    refine ⟨rest, u, by simp only [Traversal.exec, hsplit]; rfl, ?_,
      ⟨u.aligned, rest.aligned⟩, u.large, hdiv, fun hpos => ?_⟩
    · rw [hu, hrest]
      exact Span.adjacent_at s.span hone
    · have hcut := capacity_of_cut (s := s) (k := 1) hpos (by rw [Nat.one_mul]; exact hone)
      rw [hdiv hpos, capacity_of_size_pos hpos (s := rest), hrlen, ← hcut, Nat.one_mul]
  · intro hnone
    simp only [Traversal.exec, splitFirst_none (Nat.lt_of_not_le hnone)]
    rfl

/-- `split_last` succeeds if there is an element; it takes the trailing bytes with it. -/
theorem splitLast_law (hw : 0 < w) (s : UninitSlice T) :
    (1 ≤ s.capacity → ∃ (rest : UninitSlice T) (element : UninitView T),
      Traversal.splitLast.exec (.slice T s) = some (.ok (.slice T rest, some (.sized T element))) ∧
      Span.Adjacent s.span rest.span element.span ∧ s.SplitsElement rest element) ∧
    (¬ 1 ≤ s.capacity →
      Traversal.splitLast.exec (.slice T s) = some (.ok (.slice T s, none))) := by
  rw [one_le_capacity_iff hw]
  constructor
  · intro hone
    obtain ⟨rest, u, hsplit, hrest, hu, hroom⟩ := splitLast_some hone
    have hulen : u.len = s.len - wrappingSub w s.capacity 1 * T.size := congrArg Span.size hu
    have hrlen : rest.len = wrappingSub w s.capacity 1 * T.size := congrArg Span.size hrest
    have hle : wrappingSub w s.capacity 1 * T.size ≤ s.len := by omega
    have hdiv : 0 < T.size → u.len / T.size = 1 := by
      intro hpos
      have hsucc := last_index_succ hpos hone
      have hcut := capacity_of_cut (s := s) hpos hle
      rw [hulen]
      omega
    refine ⟨rest, u, by simp only [Traversal.exec, hsplit]; rfl, ?_,
      ⟨u.aligned, rest.aligned⟩, u.large, hdiv, fun hpos => ?_⟩
    · rw [hu, hrest]
      exact Span.adjacent_at s.span hle
    · rw [hdiv hpos, capacity_of_size_pos hpos (s := rest), hrlen, Nat.mul_div_cancel _ hpos,
        Nat.add_comm]
      exact last_index_succ hpos hone
  · intro hnone
    simp only [Traversal.exec, splitLast_none (Nat.lt_of_not_le hnone)]
    rfl

/-- `shrink_to_fit` keeps the elements and returns the bytes behind them; called
again, it returns no bytes. -/
theorem shrinkToFit_law (s : UninitSlice T) :
    ∃ (s' : UninitSlice T) (rest : UninitView (Ty.unit w)),
      Traversal.shrinkToFit.exec (.slice T s) = some (.ok (.slice T s', some (.sized _ rest))) ∧
      Span.Adjacent s.span s'.span rest.span ∧ s'.capacity = s.capacity ∧
      (0 < T.size → rest.len = s.len % T.size) ∧
      ∃ (s'' : UninitSlice T) (rest' : UninitView (Ty.unit w)),
        Traversal.shrinkToFit.exec (.slice T s') =
          some (.ok (.slice T s'', some (.sized _ rest'))) ∧
        s''.span = s'.span ∧ rest'.len = 0 := by
  obtain ⟨s', t, hshrink, hs', ht⟩ := s.shrinkToFit_ok
  obtain ⟨s'', t', hshrink', hs'', ht'⟩ := s'.shrinkToFit_ok
  have hlen : s'.len = s.capacity * T.size := congrArg Span.size hs'
  have htlen : t.len = s.len - s.capacity * T.size := congrArg Span.size ht
  have htlen' : t'.len = s'.len - s'.capacity * T.size := congrArg Span.size ht'
  have hcap : s'.capacity = s.capacity := by
    rcases Nat.eq_zero_or_pos T.size with hz | hpos
    · rw [capacity_of_size_eq_zero hz, capacity_of_size_eq_zero hz]
    · rw [capacity_of_size_pos hpos (s := s'), hlen, Nat.mul_div_cancel _ hpos]
  refine ⟨s', t, by simp only [Traversal.exec, hshrink]; rfl, ?_, hcap, fun hpos => ?_, s'', t',
    by simp only [Traversal.exec, hshrink']; rfl, ?_, ?_⟩
  · rw [hs', ht]
    exact Span.adjacent_at s.span s.capacity_mul_le
  · rw [htlen, capacity_of_size_pos hpos, Nat.mul_comm]
    exact (Nat.mod_eq_sub_mul_div).symm
  · rw [hs'', hcap, ← hlen]
    rfl
  · rw [htlen', hcap, hlen, Nat.sub_self]

end UninitSlice

/-- **Splitting a slice partitions its bytes.**  Whatever the element type and
however many bytes there are behind the last element: `split_at(k)` succeeds
exactly if `k` elements have a number of bytes, and no more than there are;
`split_first` and `split_last` succeed exactly if there is an element.  The parts
are then adjacent and together the old bytes, and their capacities add up; what
is split off as an element is aligned and large enough for it.  A call that does
not succeed changes nothing.  `shrink_to_fit` returns the bytes behind the last
element, and nothing when it is called again. -/
theorem slice_splitting (hw : 0 < w) (T : Ty w) (s : UninitSlice T) :
    (∀ k,
      (k * T.size < 2 ^ w ∧ k * T.size ≤ s.len → ∃ first second : UninitSlice T,
        (Traversal.splitAt k).exec (.slice T s) =
          some (.ok (.slice T first, some (.slice T second))) ∧ s.SplitsAt k first second) ∧
      (¬ (k * T.size < 2 ^ w ∧ k * T.size ≤ s.len) →
        (Traversal.splitAt k).exec (.slice T s) = some (.ok (.slice T s, none)))) ∧
    ((1 ≤ s.capacity → ∃ (rest : UninitSlice T) (element : UninitView T),
        Traversal.splitFirst.exec (.slice T s) =
          some (.ok (.slice T rest, some (.sized T element))) ∧
        Span.Adjacent s.span element.span rest.span ∧ s.SplitsElement rest element) ∧
      (¬ 1 ≤ s.capacity →
        Traversal.splitFirst.exec (.slice T s) = some (.ok (.slice T s, none)))) ∧
    ((1 ≤ s.capacity → ∃ (rest : UninitSlice T) (element : UninitView T),
        Traversal.splitLast.exec (.slice T s) =
          some (.ok (.slice T rest, some (.sized T element))) ∧
        Span.Adjacent s.span rest.span element.span ∧ s.SplitsElement rest element) ∧
      (¬ 1 ≤ s.capacity →
        Traversal.splitLast.exec (.slice T s) = some (.ok (.slice T s, none)))) ∧
    ∃ (s' : UninitSlice T) (rest : UninitView (Ty.unit w)),
      Traversal.shrinkToFit.exec (.slice T s) = some (.ok (.slice T s', some (.sized _ rest))) ∧
      Span.Adjacent s.span s'.span rest.span ∧ s'.capacity = s.capacity ∧
      (0 < T.size → rest.len = s.len % T.size) ∧
      ∃ (s'' : UninitSlice T) (rest' : UninitView (Ty.unit w)),
        Traversal.shrinkToFit.exec (.slice T s') =
          some (.ok (.slice T s'', some (.sized _ rest'))) ∧
        s''.span = s'.span ∧ rest'.len = 0 :=
  ⟨s.splitAt_law, s.splitFirst_law hw, s.splitLast_law hw, s.shrinkToFit_law⟩

/-- Forty-four bytes are two elements of sixteen and twelve more. -/
theorem slice_splitting_twoWords :
    let s : UninitSlice Ty.twoWords := ⟨4096, 44, 2, page_pos, by decide, by decide⟩
    ∃ (rest : UninitSlice Ty.twoWords) (element : UninitView Ty.twoWords),
      Traversal.splitLast.exec (.slice _ s) =
        some (.ok (.slice _ rest, some (.sized _ element))) ∧
      Span.Adjacent s.span rest.span element.span ∧ s.SplitsElement rest element := by
  intro s
  exact (slice_splitting (w := 64) (by decide) Ty.twoWords s).2.2.1.1 (by decide)

end StaticAlloc
