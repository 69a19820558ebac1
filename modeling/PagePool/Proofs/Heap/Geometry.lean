import Mathlib.Algebra.Order.Floor.Div
import PagePool.Proofs.Heap.Contents

namespace PagePool.Layout

variable {l : Layout} {size width n : Nat}

/-- The bytes that `n` slots take up: a bitmap in whole bytes, and the tuples. -/
def extent (width n : Nat) : Nat := n ⌈/⌉ 8 + n * width

/-- A layout keeps its bitmap, and every slot behind it, on pages of the size, and no two slots
share a byte. -/
structure Placed (l : Layout) (size : Nat) : Prop where
  bitmap : l.bitmapSize = l.slots ⌈/⌉ 8
  bitmapSize_le : l.bitmapSize ≤ size
  within : ∀ slot < l.slots, l.bitmapSize ≤ l.offset slot ∧ l.offset slot + l.tupleSize ≤ size
  apart : ∀ slot j, slot ≠ j →
    l.offset slot + l.tupleSize ≤ l.offset j ∨ l.offset j + l.tupleSize ≤ l.offset slot

/-- Counted in bits, the slots fit just if they do with the bitmap rounded up to bytes: the tuples
are whole bytes, so that the bits left over are too. -/
theorem extent_le_iff : extent width n ≤ size ↔ n * (width * 8 + 1) ≤ size * 8 := by
  have hbits : n * (width * 8 + 1) = n * width * 8 + n := by
    rw [Nat.mul_add, Nat.mul_one, Nat.mul_assoc]
  have hbytes : n ⌈/⌉ 8 ≤ size - n * width ↔ n ≤ 8 * (size - n * width) :=
    ceilDiv_le_iff_le_mul (by omega)
  rw [extent, hbits]
  -- the bitmap has what the tuples leave of the page, if they leave anything
  by_cases hfits : n * width ≤ size
  · rw [← Nat.le_sub_iff_add_le hfits, hbytes]
    omega
  · omega

/-- One division finds the most slots that a page has room for. -/
theorem isGreatest_extent_le (size width : Nat) :
    IsGreatest {n | extent width n ≤ size} (size * 8 / (width * 8 + 1)) := by
  have hpos : 0 < width * 8 + 1 := by omega
  refine ⟨extent_le_iff.2 (Nat.div_mul_le_self _ _), fun n hn => ?_⟩
  exact (Nat.le_div_iff_mul_le hpos).2 (extent_le_iff.1 hn)

theorem forPage_eq (size width : Nat) : forPage size width =
    if 0 < width ∧ 1 ≤ size * 8 / (width * 8 + 1) ∧ size * 8 / (width * 8 + 1) ≤ 65535
    then .ok ⟨width, size * 8 / (width * 8 + 1)⟩ else .error (.invalidTupleSize width size) := by
  unfold forPage
  simp only
  generalize size * 8 / (width * 8 + 1) = n
  split
  · rw [if_neg (by omega)]
  · rw [if_pos (by omega)]

theorem placed_of_forPage (h : forPage size l.tupleSize = .ok l) : l.Placed size := by
  obtain ⟨-, hpos, -⟩ := bounds_of_forPage h
  have hend {slot : Nat} (hslot : slot < l.slots) :
      l.bitmapSize ≤ l.offset slot ∧ l.offset slot + l.tupleSize ≤ size :=
    ⟨Nat.le_add_right _ _, offset_add_le h hslot⟩
  refine ⟨rfl, ?_, fun _ => hend, fun slot j hne => l.offset_disjoint hne⟩
  obtain ⟨hbehind, hwithin⟩ := hend hpos
  omega

/-- A layout has as many slots as its pages have room for. It is refused just if tuples have no
width, if no slot fits, or if more fit than there are slot numbers; else the bitmap and all slots
lie on the page, where one more slot would not. -/
theorem forPage_has_most_slots (size width : Nat) :
    ∃ n, IsGreatest {n | extent width n ≤ size} n ∧
      forPage size width =
        (if 0 < width ∧ 1 ≤ n ∧ n ≤ 65535 then .ok ⟨width, n⟩
          else .error (.invalidTupleSize width size)) ∧
      ∀ l, forPage size width = .ok l → l.Placed size ∧ size < extent width (l.slots + 1) := by
  have hmost := isGreatest_extent_le size width
  refine ⟨_, hmost, forPage_eq size width, fun l h => ?_⟩
  obtain ⟨rfl, -⟩ := forPage_eq_ok h
  refine ⟨placed_of_forPage h, Nat.lt_of_not_le fun hmore => ?_⟩
  have hle : l.slots + 1 ≤ size * 8 / (l.tupleSize * 8 + 1) := hmost.2 hmore
  rw [← slots_eq_of_forPage h] at hle
  omega

/-- Seven slots of eight bytes and a bitmap of one byte fill 57 bytes of a page of 64. -/
example : forPage 64 8 = .ok ⟨8, 7⟩ ∧ extent 8 7 = 57 ∧ extent 8 8 = 65 := by decide

end PagePool.Layout
