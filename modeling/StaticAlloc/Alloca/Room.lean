import StaticAlloc.Unsync.Bump

/-!
# Slices on the stack

`Alloca<T>` runs a closure with a slice of elements that lives in the stack frame of
a method.  The method makes a `Bump` of `u64`s there, one of eighteen sizes, and takes
the slice from it.  Which size is decided by the layout of one element more than the
slice has, and the rest is left to the allocation.

The element more is there for the padding.  The storage is aligned for `u64`, which
may be less than `T` asks for, but the padding is less than the alignment of `T` and
that is at most the size of an element (`bumpArray_fresh`).  So the slice fits into
the storage of every size that is large enough for its layout, wherever on the stack
that is.
-/

namespace StaticAlloc

open Toolkit
open Bump (Level Failure Allocation placement)

variable {w : ℕ} {T : Ty w}

/-- `Alloca<T>`. -/
structure Alloca (T : Ty w) where
  len : ℕ

/-- What the methods of `Alloca` find on the target: its `u64`, and where on the stack
a `Bump` of so many of them is placed. -/
structure Stack (w : ℕ) where
  header : Ty w
  u64 : Ty w
  u64_size : u64.size = 8
  /-- `[u64; 1 << 17]` is a type of the target. -/
  wide : u64.size * (1 <<< 17) + u64.align ≤ 2 ^ (w - 1)
  mem : ∀ (words : ℕ) (h : u64.size * words + u64.align ≤ 2 ^ (w - 1)),
    Unsync.Bump header (u64.array words h)

theorem Stack.array_wide (K : Stack w) {words : ℕ} (h : words ≤ 1 <<< 17) :
    K.u64.size * words + K.u64.align ≤ 2 ^ (w - 1) :=
  (Nat.add_le_add_right (Nat.mul_le_mul_left _ h) _).trans K.wide

theorem Stack.word_applicable {words : ℕ} (h : Ty.word.size * words + Ty.word.align ≤ 2 ^ 63) :
    Unsync.offsetOfData Ty.word (Ty.word.array words h) = Ty.word.size :=
  Unsync.Bump.applicable_of_align_le (le_refl Ty.word.align)

/-- On a 64-bit target, with every `Bump` at one address of the stack. -/
def Stack.page : Stack 64 where
  header := Ty.word
  u64 := Ty.word
  u64_size := rfl
  wide := by decide
  mem := fun words h =>
    { addr := 4096
      nonnull := page_pos
      aligned := show 8 ∣ 4096 by decide
      fits := by
        rw [word_applicable h]
        show 4096 + 8 + 8 * words ≤ 2 ^ 64
        have h' : 8 * words + 8 ≤ 2 ^ 63 := h
        omega
      applicable := word_applicable h }

namespace Alloca

/-- The bounds that `run` compares the required size to, one after the other, and
the number of `u64`s of the `Bump` that is used up to the bound. -/
def sizeClasses : List (ℕ × ℕ) :=
  [(8, 1), (16, 2), (32, 4), (64, 8), (128, 16), (256, 32), (512, 64), (1024, 128),
    (2048, 256), (1 <<< 12, 512), (1 <<< 13, 1 <<< 10), (1 <<< 14, 1 <<< 11),
    (1 <<< 15, 1 <<< 12), (1 <<< 16, 1 <<< 13), (1 <<< 17, 1 <<< 14), (1 <<< 18, 1 <<< 15),
    (1 <<< 19, 1 <<< 16), (1 <<< 20, 1 <<< 17)]

/-- Each bound is the size of the storage it stands for. -/
theorem sizeClasses_exact : ∀ c ∈ sizeClasses, c.1 = 8 * c.2 := by decide

theorem sizeClasses_le : ∀ c ∈ sizeClasses, c.2 ≤ 1 <<< 17 := by decide

/-- `Alloca::new`. -/
def new (b : Build) (T : Ty w) (len : ℕ) : Except Stop (Option (Alloca T)) := do
  let padded ← addUsize b w len 1
  match Layout.array T padded with
  | none => return none
  | some _ => return some ⟨len⟩

/-- `Alloca::padded_layout`. -/
def paddedLayout (b : Build) (a : Alloca T) : Except Stop (Layout w) := do
  let padded ← addUsize b w a.len 1
  match Layout.array T padded with
  | none => .error (.panic "Checked this in the constructor: LayoutError")
  | some layout => return layout

/-- `Alloca::run_with`, with a `Bump` of so many `u64`s. -/
def runWith {R : Type} (b : Build) (K : Stack w) (a : Alloca T) (run : RawSlice → R) (words : ℕ)
    (h : K.u64.size * words + K.u64.align ≤ 2 ^ (w - 1)) : Except Stop R := do
  let mem := K.mem words h
  let (_, slot) ← Unsync.bumpArray b mem.storage 0 T a.len
  let slot ← unwrapOk slot
  return run slot

/-- The comparisons of `Alloca::run`. -/
def runSized {R : Type} (b : Build) (K : Stack w) (a : Alloca T) (run : RawSlice → R)
    (requiredSize : ℕ) : Except Stop R :=
  match h : sizeClasses.find? (fun c => requiredSize ≤ c.1) with
  | some (_, words) =>
    a.runWith b K run words (K.array_wide (sizeClasses_le _ (List.mem_of_find?_eq_some h)))
  | none => .error (.panic "Stack allocation is too big")

/-- `Alloca::run`. -/
def run {R : Type} (b : Build) (K : Stack w) (a : Alloca T) (run : RawSlice → R) :
    Except Stop R := do
  let requiredSize := (← a.paddedLayout b).size
  a.runSized b K run requiredSize

/-! ## There is always room -/

/-- An array fits into a fresh arena that is large enough for one element more:
that element has room for the padding. -/
theorem bumpArray_fresh (b : Build) {S : Storage w} {n : ℕ} {l : Layout w} (hT : 0 < T.size)
    (hn : 1 ≤ n) (harr : Layout.array T n = some l) (hroom : T.size * (n + 1) ≤ S.len) :
    Unsync.bumpArray b S 0 T n =
      .ok (placement S l 0 + l.size, .ok ⟨S.base + placement S l 0, n⟩) ∧
      T.align ∣ S.base + placement S l 0 ∧ placement S l 0 + T.size * n ≤ S.len := by
  obtain ⟨hsize, halign⟩ := Layout.array_some harr
  have hpadding : placement S l 0 < T.size := by
    have hlt : placement S l 0 < l.align := by
      rw [placement, Nat.zero_add]
      exact padding_lt l.align_pos
    exact lt_of_lt_of_le hlt (halign ▸ Nat.le_of_dvd hT T.stride)
  have hfit : placement S l 0 + T.size * n ≤ S.len := by
    rw [Nat.mul_add, Nat.mul_one] at hroom
    omega
  have hpos : 0 < l.size := by
    rw [hsize]
    exact Nat.mul_pos hT hn
  refine ⟨?_, halign ▸ Bump.dvd_placement, hfit⟩
  rw [Unsync.bumpArray_eq harr hpos (Nat.zero_le _), if_pos (by rw [hsize]; exact hfit)]

variable {b : Build} {len : ℕ} {a : Alloca T}

/-- What `new` has checked. -/
theorem new_some (hlen : len + 1 < 2 ^ w) (h : new b T len = .ok (some a)) :
    a.len = len ∧ ∃ hl, Layout.array T (len + 1) = some ⟨T.size * (len + 1), T.align,
      T.align_pow, hl⟩ := by
  rw [new, addUsize_of_lt hlen, ok_bind] at h
  by_cases hl : T.size * (len + 1) + T.align ≤ 2 ^ (w - 1)
  · rw [Layout.array_of_le hl] at h
    obtain rfl := Option.some.inj (Except.ok.inj h)
    exact ⟨rfl, hl, Layout.array_of_le hl⟩
  · rw [show Layout.array T (len + 1) = none from dif_neg hl] at h
    exact absurd (Except.ok.inj h) (by simp)

/-- The size class that is found has room for the padded layout. -/
theorem sizeClass_some {requiredSize : ℕ} {c : ℕ × ℕ}
    (h : sizeClasses.find? (fun c => requiredSize ≤ c.1) = some c) :
    c ∈ sizeClasses ∧ requiredSize ≤ 8 * c.2 := by
  have hmem := List.mem_of_find?_eq_some h
  have hle := List.find?_some h
  rw [← sizeClasses_exact c hmem]
  exact ⟨hmem, of_decide_eq_true hle⟩

/-- No size class is found for more than the largest. -/
theorem sizeClass_none_iff {requiredSize : ℕ} :
    sizeClasses.find? (fun c => requiredSize ≤ c.1) = none ↔ 1 <<< 20 < requiredSize := by
  rw [List.find?_eq_none]
  constructor
  · intro h
    have := h (1 <<< 20, 1 <<< 17) (by decide)
    simpa using this
  · intro h c hc
    have hle : c.1 ≤ 1 <<< 20 := by
      rw [sizeClasses_exact c hc]
      exact Nat.mul_le_mul_left 8 (sizeClasses_le c hc)
    simp only [decide_eq_true_eq, not_le]
    exact lt_of_le_of_lt hle h

/-- What `run` does is decided by the layout of one element more. -/
theorem run_eq {R : Type} {K : Stack w} {closure : RawSlice → R} {layout : Layout w}
    (hlen : a.len + 1 < 2 ^ w) (harr : Layout.array T (a.len + 1) = some layout) :
    a.run b K closure = a.runSized b K closure layout.size := by
  have hpadded : a.paddedLayout b = .ok layout := by
    rw [paddedLayout, addUsize_of_lt hlen, ok_bind, harr]
    rfl
  rw [run, hpadded]
  rfl

/-- The padded layout is computed, or the computation panics. -/
theorem paddedLayout_cases (b : Build) (a : Alloca T) :
    (∃ layout, a.paddedLayout b = .ok layout) ∨
      ∃ msg, a.paddedLayout b = .error (.panic msg) := by
  have hadd : (∃ n, addUsize b w a.len 1 = .ok n) ∨
      ∃ msg, addUsize b w a.len 1 = .error (.panic msg) := by
    unfold addUsize
    by_cases h : a.len + 1 < 2 ^ w
    · rw [if_pos h]
      exact Or.inl ⟨_, rfl⟩
    · rw [if_neg h]
      cases b
      · exact Or.inr ⟨_, rfl⟩
      · exact Or.inl ⟨_, rfl⟩
  rw [paddedLayout]
  rcases hadd with ⟨n, hn⟩ | ⟨msg, hpanic⟩
  · rw [hn, ok_bind]
    cases Layout.array T n with
    | none => exact Or.inr ⟨_, rfl⟩
    | some layout => exact Or.inl ⟨layout, rfl⟩
  · rw [hpanic]
    exact Or.inr ⟨msg, rfl⟩

/-- The slice is elements of `T` in the storage of one of the `Bump`s. -/
structure Placed (K : Stack w) (T : Ty w) (len : ℕ) (slice : RawSlice) : Prop where
  count : slice.len = len
  aligned : T.align ∣ slice.ptr
  inside : ∃ words h, Span.addresses ⟨slice.ptr, len * T.size⟩ ⊆
    (K.mem words h).storage.span.addresses

/-- A `Bump` that is as large as the padded layout has room for the slice. -/
theorem runWith_room {R : Type} {K : Stack w} {closure : RawSlice → R} {words : ℕ}
    (hT : 0 < T.size) (hpos : 1 ≤ a.len)
    (hl : T.size * (a.len + 1) + T.align ≤ 2 ^ (w - 1))
    (hroom : T.size * (a.len + 1) ≤ 8 * words)
    (h : K.u64.size * words + K.u64.align ≤ 2 ^ (w - 1)) :
    ∃ slice, a.runWith b K closure words h = .ok (closure slice) ∧ Placed K T a.len slice := by
  have hstorage : T.size * (a.len + 1) ≤ (K.mem words h).storage.len := by
    show _ ≤ K.u64.size * words
    rwa [K.u64_size]
  have hexact : T.size * a.len + T.align ≤ 2 ^ (w - 1) := by
    rw [Nat.mul_add, Nat.mul_one] at hl
    omega
  obtain ⟨hbump, haligned, hinside⟩ :=
    bumpArray_fresh b hT hpos (Layout.array_of_le hexact) hstorage
  refine ⟨⟨_, a.len⟩, ?_, rfl, haligned, words, h, ?_⟩
  · rw [runWith, hbump]
    rfl
  · refine Span.addresses_subset (Nat.le_add_right _ _) ?_
    show _ + a.len * T.size ≤ _ + _
    rw [Nat.mul_comm a.len, Nat.add_assoc]
    exact Nat.add_le_add_left hinside _

theorem runWith_of_size_eq_zero {R : Type} {K : Stack w} {closure : RawSlice → R} {words : ℕ}
    (hs : T.size * a.len = 0) (h : K.u64.size * words + K.u64.align ≤ 2 ^ (w - 1)) :
    a.runWith b K closure words h = .error (.panic "layout.size() > 0") := by
  rw [runWith, Unsync.bumpArray_of_size_eq_zero hs]
  rfl

/-- A slice of no bytes is not allocated: each way through `run` ends in a panic. -/
theorem run_of_size_eq_zero {R : Type} {K : Stack w} {closure : RawSlice → R}
    (hs : T.size * a.len = 0) : ∃ msg, a.run b K closure = .error (.panic msg) := by
  rw [run]
  rcases paddedLayout_cases b a with ⟨layout, hlayout⟩ | ⟨msg, hpanic⟩
  · rw [hlayout, ok_bind, runSized]
    split
    · exact ⟨_, runWith_of_size_eq_zero hs _⟩
    · exact ⟨_, rfl⟩
  · rw [hpanic]
    exact ⟨msg, rfl⟩

/-- **`Alloca` always finds room.**  For elements with bytes and at least one of them,
wherever on the stack the storage is placed: the closure is run on a slice of so many
elements in the storage, if the layout of one element more has at most a mebibyte; if
it has more, `run` panics and says so. -/
theorem run_finds_room (K : Stack w) (b : Build) (T : Ty w) (hT : 0 < T.size) (len : ℕ)
    (hpos : 1 ≤ len) (hlen : len + 1 < 2 ^ w) (a : Alloca T)
    (hnew : new b T len = .ok (some a)) {R : Type} (closure : RawSlice → R) :
    ((len + 1) * T.size ≤ 2 ^ 20 → ∃ slice, a.run b K closure = .ok (closure slice) ∧
      Placed K T len slice) ∧
    (¬ (len + 1) * T.size ≤ 2 ^ 20 →
      a.run b K closure = .error (.panic "Stack allocation is too big")) := by
  obtain ⟨rfl, hl, harr⟩ := new_some hlen hnew
  rw [run_eq hlen harr, Nat.mul_comm (a.len + 1)]
  constructor
  · intro hle
    rw [runSized]
    split
    · rename_i bound words hfind
      obtain ⟨hmem, hclass⟩ := sizeClass_some hfind
      exact runWith_room hT hpos hl hclass _
    · rename_i hfind
      exact absurd (sizeClass_none_iff.mp hfind) (Nat.not_lt.mpr hle)
  · intro hgt
    have hnone := sizeClass_none_iff.mpr (Nat.lt_of_not_le hgt)
    rw [runSized]
    split
    · rename_i bound words hfind
      exact absurd (hnone.symm.trans hfind) (by simp)
    · rfl

theorem run_finds_room_twoWords :
    ∃ a : Alloca Ty.twoWords, new .debug Ty.twoWords 3 = .ok (some a) ∧
      ∃ slice, a.run .debug Stack.page id = .ok slice ∧ Placed Stack.page Ty.twoWords 3 slice :=
  ⟨⟨3⟩, rfl, (run_finds_room Stack.page .debug Ty.twoWords Ty.twoWords_pos 3 (by decide)
    (by decide) ⟨3⟩ rfl id).1 (by decide)⟩

end Alloca

end StaticAlloc
