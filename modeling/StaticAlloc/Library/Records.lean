import StaticAlloc.Library.Alignment

/-!
# The layout of a record

A record puts its fields one after the other, each at the next multiple of its
alignment.  The record is aligned as its most aligned field is, and its size is
padded to that.  The rule does not ask whether the last field is sized: the extent
of a value with an unsized tail is that of a record whose last field has the extent
the tail has in this value.

Extents are mathematical: a size has no bound here.  `record_pair` is the rule for
two fields.  Behind a field whose size is a multiple of its alignment, bytes are
placed without padding (`append_bytes`), and so is a field with the same alignment
(`append_of_align_eq`); `roundUp_lt_iff` says when a padded size stays below a
bound.
-/

namespace Toolkit

/-- The size and the alignment of a value. -/
structure Extent where
  size : ℕ
  align : ℕ
  deriving DecidableEq, Repr

namespace Extent

/-- A number of bytes. -/
def bytes (n : ℕ) : Extent := ⟨n, 1⟩

/-- Where one more field of a record goes. -/
def fieldOffset (e field : Extent) : ℕ := roundUp e.size field.align

/-- The fields of a record and one more, without the padding at the end. -/
def append (e field : Extent) : Extent :=
  ⟨e.fieldOffset field + field.size, max e.align field.align⟩

/-- The padding at the end. -/
def padded (e : Extent) : Extent := ⟨roundUp e.size e.align, e.align⟩

/-- The size is a multiple of the alignment, as that of every type is. -/
structure Strided (e : Extent) : Prop where
  pos : 0 < e.align
  dvd : e.align ∣ e.size

end Extent

/-- The extent of a record with the given fields. -/
def record (fields : List Extent) : Extent :=
  (fields.foldl Extent.append (.bytes 0)).padded

variable {e f : Extent} {n a k : ℕ}

namespace Extent

/-- The first field is at offset zero. -/
theorem bytes_zero_append (he : 0 < e.align) : (bytes 0).append e = e := by
  rw [append, fieldOffset, bytes, roundUp_eq_self he (Nat.dvd_zero _), Nat.zero_add,
    max_eq_right he]

/-- Bytes follow without padding. -/
theorem append_bytes (he : 0 < e.align) (n : ℕ) : e.append (bytes n) = ⟨e.size + n, e.align⟩ := by
  rw [append, fieldOffset, bytes, roundUp_eq_self Nat.one_pos (Nat.one_dvd _), max_eq_left he]

/-- A field that is not more aligned than what is in front of it follows without
padding. -/
theorem fieldOffset_of_dvd (hf : 0 < f.align) (h : f.align ∣ e.size) : e.fieldOffset f = e.size :=
  roundUp_eq_self hf h

theorem fieldOffset_eq_iff (hf : 0 < f.align) : e.fieldOffset f = e.size ↔ f.align ∣ e.size :=
  ⟨fun h => h ▸ dvd_roundUp hf, fieldOffset_of_dvd hf⟩

theorem Strided.padded_eq (h : e.Strided) : e.padded = e := by
  rw [padded, roundUp_eq_self h.pos h.dvd]

/-- Two fields with the same alignment are a record without any padding. -/
theorem Strided.append_of_align_eq (he : e.Strided) (hf : f.Strided) (h : e.align = f.align) :
    e.append f = ⟨e.size + f.size, e.align⟩ := by
  rw [append, fieldOffset_of_dvd hf.pos (h ▸ he.dvd), ← h, max_self]

theorem Strided.append (he : e.Strided) (hf : f.Strided) (h : e.align = f.align) :
    (e.append f).Strided := by
  rw [he.append_of_align_eq hf h]
  exact ⟨he.pos, Nat.dvd_add he.dvd (h ▸ hf.dvd)⟩

end Extent

/-- A record with two fields. -/
theorem record_pair (he : 0 < e.align) : record [e, f] = (e.append f).padded := by
  rw [record, List.foldl_cons, List.foldl_cons, List.foldl_nil, Extent.bytes_zero_append he]

/-- A record of which the tail is bytes. -/
theorem record_bytes (he : 0 < e.align) (n : ℕ) :
    record [e, .bytes n] = ⟨roundUp (e.size + n) e.align, e.align⟩ := by
  rw [record_pair he, Extent.append_bytes he]
  rfl

/-- Below a multiple, a padded size leaves room for one more alignment. -/
theorem roundUp_lt_iff (ha : 0 < a) (h : a ∣ k) : roundUp n a < k ↔ n + a ≤ k := by
  constructor
  · intro hlt
    have hgap := Nat.le_of_dvd (by omega) (Nat.dvd_sub h (dvd_roundUp (n := n) ha))
    have hle := le_roundUp (n := n) (a := a)
    omega
  · intro hle
    have hpad := padding_lt (n := n) ha
    unfold roundUp
    omega

/-- Rounding up by rounding down: `(n + (a - 1)) & !(a - 1)`, for a power of two. -/
theorem roundDown_add_pred (ha : 0 < a) : roundDown (n + (a - 1)) a = roundUp n a := by
  refine le_antisymm ?_ (le_roundDown ?_ (dvd_roundUp ha))
  · have hdvd := dvd_roundDown (n := n + (a - 1)) (a := a)
    have hle := roundDown_le (n := n + (a - 1)) (a := a)
    by_contra hlt
    have hgap := Nat.le_of_dvd (by omega) (Nat.dvd_sub hdvd (dvd_roundUp (n := n) ha))
    have hup := le_roundUp (n := n) (a := a)
    omega
  · have hpad := padding_lt (n := n) ha
    unfold roundUp
    omega

end Toolkit
