import Mathlib.Algebra.Group.Nat.Defs
import PagePool.Bytes

namespace PagePool.Bytes

theorem toNat_ofNat (width n : Nat) : toNat (ofNat width n) = n % 256 ^ width := by
  induction width generalizing n with
  | zero => simp [ofNat, toNat, Nat.mod_one]
  | succ w ih =>
    have hb : (UInt8.ofNat (n % 256)).toNat = n % 256 := by simp
    rw [ofNat, toNat, ih, hb, Nat.pow_succ', Nat.mod_mul]

theorem toNat_lt (bs : Bytes) : toNat bs < 256 ^ bs.length := by
  induction bs with
  | nil => simp [toNat]
  | cons b bs ih =>
    have hb := b.toNat_lt
    rw [toNat, List.length_cons, Nat.pow_succ']
    omega

/-- The `n` bytes from position `start` on. -/
def slice (bs : Bytes) (start n : Nat) : Bytes := (bs.drop start).take n

variable {bs new : Bytes} {start o n i : Nat}

theorem getElem?_slice : (slice bs start n)[i]? = if i < n then bs[start + i]? else none := by
  rw [slice, List.getElem?_take, List.getElem?_drop]

theorem length_slice (h : start + n ≤ bs.length) : (slice bs start n).length = n := by
  simp [slice]
  omega

/-- A slice, and then everything after it. -/
theorem slice_append_drop (bs : Bytes) (start n : Nat) :
    slice bs start n ++ bs.drop (start + n) = bs.drop start := by
  rw [slice, ← List.drop_drop, List.take_append_drop]

/-- Bytes that are written within others or at their end stand between what was before and after. -/
theorem overwrite_eq (h : start ≤ bs.length) :
    overwrite bs start new = bs.take start ++ (new ++ bs.drop (start + new.length)) := by
  unfold overwrite
  split
  · rename_i he
    obtain rfl : new = [] := by simpa using he
    exact (List.take_append_drop start bs).symm
  · have hgap : zeros (start - bs.length) = [] := by
      rw [Nat.sub_eq_zero_of_le h]
      rfl
    rw [hgap, List.append_nil, List.append_assoc]

theorem getElem?_overwrite (h : start ≤ bs.length) :
    (overwrite bs start new)[i]? =
      if start ≤ i ∧ i < start + new.length then new[i - start]? else bs[i]? := by
  have htake : (bs.take start).length = start := List.length_take_of_le h
  rw [overwrite_eq h, List.getElem?_append, htake]
  split
  · rename_i hlt
    rw [if_neg (by omega), List.getElem?_take, if_pos hlt]
  · rw [List.getElem?_append]
    split
    · rw [if_pos (by omega)]
    · rw [if_neg (by omega), List.getElem?_drop]
      congr 1
      omega

theorem length_overwrite_of_le (h : start ≤ bs.length) :
    (overwrite bs start new).length = max bs.length (start + new.length) := by
  rw [overwrite_eq h]
  simp only [List.length_append, List.length_take, List.length_drop]
  omega

theorem slice_overwrite_self (new : Bytes) (h : start ≤ bs.length) :
    slice (overwrite bs start new) start new.length = new := by
  apply List.ext_getElem?
  intro i
  rw [getElem?_slice]
  split
  · rw [getElem?_overwrite h, if_pos (by omega)]
    congr 1
    omega
  · exact (List.getElem?_eq_none (by omega)).symm

theorem slice_overwrite_of_disjoint (h : start ≤ bs.length)
    (hdis : o + n ≤ start ∨ start + new.length ≤ o) :
    slice (overwrite bs start new) o n = slice bs o n := by
  apply List.ext_getElem?
  intro i
  rw [getElem?_slice, getElem?_slice]
  split
  · rw [getElem?_overwrite h, if_neg (by omega)]
  · rfl

variable {pre old post : Bytes}

theorem slice_append (pre old post : Bytes) :
    slice (pre ++ (old ++ post)) pre.length old.length = old := by
  rw [slice, List.drop_left, List.take_left]

theorem overwrite_append (h : new.length = old.length) :
    overwrite (pre ++ (old ++ post)) pre.length new = pre ++ (new ++ post) := by
  have hstart : pre.length ≤ (pre ++ (old ++ post)).length := by
    rw [List.length_append]
    omega
  rw [overwrite_eq hstart, List.take_left, h, ← List.drop_drop, List.drop_left, List.drop_left]

/-- What is written over the end takes its place. -/
theorem overwrite_end (h : old.length ≤ new.length) :
    overwrite (pre ++ old) pre.length new = pre ++ new := by
  have hstart : pre.length ≤ (pre ++ old).length := by
    rw [List.length_append]
    omega
  rw [overwrite_eq hstart, List.take_left, ← List.drop_drop, List.drop_left,
    List.drop_eq_nil_of_le h, List.append_nil]

end PagePool.Bytes
