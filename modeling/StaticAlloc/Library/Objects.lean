import StaticAlloc.Library.Spans

/-!
# Objects of different sizes in a flat memory

A memory of objects holds at each address at most one object, and an object knows
how many bytes it takes.  Writing an object destroys every other object whose
bytes it touches, so a statement that an object can still be read after a write
is a statement that the two lie apart.  Objects can also be moved away (`erase`), and
bytes can be overwritten with nothing in particular (`clear`).

What a proof needs to know of a change is which objects stay.  `Keeps` says so for the
objects that exactly fill the spans of a list.
-/

namespace Toolkit

variable {α : Type*}

/-- A memory of objects, by the address at which an object starts. -/
def Objects (α : Type*) := ℕ → Option α

namespace Objects

variable {size : α → ℕ} {m m' m'' : Objects α} {p q : ℕ} {a a' : α} {s : Span} {l l' : List Span}

/-- The memory with no object in it. -/
def empty : Objects α := fun _ => none

/-- Write an object. -/
def write (size : α → ℕ) (m : Objects α) (p : ℕ) (a : α) : Objects α := fun q =>
  if q = p then some a else
    (m q).filter fun a' => decide (Span.Apart ⟨p, size a⟩ ⟨q, size a'⟩)

/-- Move the objects away that start where the spans of a list do. -/
def erase (m : Objects α) (l : List Span) : Objects α := fun q =>
  if q ∈ l.map Span.start then none else m q

/-- Overwrite the bytes of a span. -/
def clear (size : α → ℕ) (m : Objects α) (s : Span) : Objects α := fun q =>
  (m q).filter fun a => decide (Span.Apart s ⟨q, size a⟩)

@[simp] theorem write_self : write size m p a p = some a := if_pos rfl

/-- **Frame.**  An object that lies apart from the one written stays. -/
theorem write_apart (h : m q = some a') (hne : q ≠ p)
    (hapart : Span.Apart ⟨p, size a⟩ ⟨q, size a'⟩) : write size m p a q = some a' := by
  rw [write, if_neg hne, h, Option.filter_some, if_pos (decide_eq_true hapart)]

/-! ## What stays -/

/-- The objects that fill a span of the list stay. -/
def Keeps (size : α → ℕ) (m m' : Objects α) (l : List Span) : Prop :=
  ∀ s ∈ l, ∀ a, m s.start = some a → size a = s.size → m' s.start = some a

theorem Keeps.refl : Keeps size m m l := fun _ _ _ ha _ => ha

theorem Keeps.mono (h : Keeps size m m' l) (hl : l' ⊆ l) : Keeps size m m' l' :=
  fun s hs => h s (hl hs)

theorem keeps_write (hl : ∀ s ∈ l, 0 < s.size ∧ s.Apart ⟨p, size a⟩) (hpos : 0 < size a) :
    Keeps size m (m.write size p a) l := by
  intro s hs a' ha' hsize
  obtain ⟨hs', hapart⟩ := hl s hs
  refine write_apart ha' ?_ ?_
  · rintro rfl
    have : s.start + s.size ≤ s.start ∨ s.start + size a ≤ s.start := hapart
    omega
  · rw [hsize]
    exact hapart.symm

theorem erase_append : (m.erase l).erase l' = m.erase (l ++ l') := by
  funext q
  simp only [erase, List.map_append, List.mem_append]
  by_cases hl' : q ∈ l'.map Span.start
  · rw [if_pos hl', if_pos (Or.inr hl')]
  · rw [if_neg hl']
    by_cases hl : q ∈ l.map Span.start
    · rw [if_pos hl, if_pos (Or.inl hl)]
    · rw [if_neg hl, if_neg (not_or_intro hl hl')]

/-- Spans that lie apart and are not empty start at different addresses. -/
theorem keeps_erase (hl : ∀ s ∈ l, 0 < s.size ∧ ∀ t ∈ l', 0 < t.size ∧ s.Apart t) :
    Keeps size m (m.erase l') l := by
  intro s hs a ha _
  rw [erase, if_neg]
  · exact ha
  · intro hmem
    obtain ⟨t, ht, heq⟩ := List.mem_map.mp hmem
    obtain ⟨hpos, hapart⟩ := hl s hs
    obtain ⟨hpos', happart'⟩ := hapart t ht
    have : s.start + s.size ≤ t.start ∨ t.start + t.size ≤ s.start := happart'
    omega

theorem keeps_clear (hl : ∀ t ∈ l, t.Apart s) : Keeps size m (m.clear size s) l := by
  intro t ht a ha hsize
  have hapart : Span.Apart s ⟨t.start, size a⟩ := by
    rw [hsize]
    exact (hl t ht).symm
  rw [clear, ha, Option.filter_some, if_pos (decide_eq_true hapart)]

end Objects

end Toolkit
