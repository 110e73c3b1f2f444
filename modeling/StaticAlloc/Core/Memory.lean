import StaticAlloc.Core.Layout
import StaticAlloc.Library.Bytes

/-!
# Copying between pointers

The two copies of `core::ptr`, and `write_bytes`.  All need ranges that may be read and
written, here those inside a given region; `copy_nonoverlapping` needs in addition
that its ranges do not overlap, and is undefined where they do.
-/

namespace StaticAlloc

open Toolkit

variable {β : Type} {region : Span} {m : Bytes β} {src dst n : ℕ}

/-- `n` bytes at an address are inside a region. -/
def InRegion (region : Span) (p n : ℕ) : Prop := region.start ≤ p ∧ p + n ≤ region.stop

instance {p : ℕ} : Decidable (InRegion region p n) :=
  inferInstanceAs (Decidable (_ ∧ _))

/-- `core::ptr::copy`. -/
def ptrCopy (region : Span) (m : Bytes β) (src dst n : ℕ) : Except Stop (Bytes β) :=
  if InRegion region src n ∧ InRegion region dst n then .ok (m.copy src dst n)
  else .error (.undefined "copy of bytes that may not be accessed")

/-- `core::ptr::copy_nonoverlapping`. -/
def ptrCopyNonoverlapping (region : Span) (m : Bytes β) (src dst n : ℕ) :
    Except Stop (Bytes β) :=
  if Span.Apart ⟨src, n⟩ ⟨dst, n⟩ then ptrCopy region m src dst n
  else .error (.undefined "copy_nonoverlapping of overlapping ranges")

/-- `core::ptr::write_bytes`. -/
def ptrWriteBytes (region : Span) (m : Bytes β) (dst : ℕ) (val : β) (count : ℕ) :
    Except Stop (Bytes β) :=
  if InRegion region dst count then .ok (m.fill dst count val)
  else .error (.undefined "write to bytes that may not be accessed")

theorem ptrWriteBytes_ok {val : β} (hdst : InRegion region dst n) :
    ptrWriteBytes region m dst val n = .ok (m.fill dst n val) := if_pos hdst

theorem ptrCopy_ok (hsrc : InRegion region src n) (hdst : InRegion region dst n) :
    ptrCopy region m src dst n = .ok (m.copy src dst n) := if_pos ⟨hsrc, hdst⟩

theorem ptrCopyNonoverlapping_ok (happart : Span.Apart ⟨src, n⟩ ⟨dst, n⟩)
    (hsrc : InRegion region src n) (hdst : InRegion region dst n) :
    ptrCopyNonoverlapping region m src dst n = .ok (m.copy src dst n) := by
  rw [ptrCopyNonoverlapping, if_pos happart, ptrCopy_ok hsrc hdst]

end StaticAlloc
