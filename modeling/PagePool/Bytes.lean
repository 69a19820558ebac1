namespace PagePool

abbrev Bytes := List UInt8

namespace Bytes

def zeros (n : Nat) : Bytes := List.replicate n 0

/-- The low `width` base-256 digits of a number, least significant first. -/
def ofNat : (width : Nat) → Nat → Bytes
  | 0, _ => []
  | width + 1, n => UInt8.ofNat (n % 256) :: ofNat width (n / 256)

/-- The number whose base-256 digits are the bytes, least significant first. -/
def toNat : Bytes → Nat
  | [] => 0
  | b :: bs => b.toNat + 256 * toNat bs

/-- Writes `new` from position `start` on; a gap before `start` is filled with zeros. -/
def overwrite (bs : Bytes) (start : Nat) (new : Bytes) : Bytes :=
  if new.isEmpty then bs
  else bs.take start ++ zeros (start - bs.length) ++ new ++ bs.drop (start + new.length)

/-- Cuts the bytes off at `n`, or extends them to `n` with zeros. -/
def resize (bs : Bytes) (n : Nat) : Bytes := bs.take n ++ zeros (n - bs.length)

@[simp] theorem length_zeros (n : Nat) : (zeros n).length = n := by simp [zeros]

@[simp] theorem length_ofNat (width n : Nat) : (ofNat width n).length = width := by
  induction width generalizing n with
  | zero => rfl
  | succ w ih => simp [ofNat, ih]

theorem ofNat_toNat (bs : Bytes) : ofNat bs.length (toNat bs) = bs := by
  induction bs with
  | nil => rfl
  | cons b bs ih =>
    have hb := b.toNat_lt
    have hmod : (b.toNat + 256 * toNat bs) % 256 = b.toNat := by omega
    have hdiv : (b.toNat + 256 * toNat bs) / 256 = toNat bs := by omega
    rw [List.length_cons, toNat, ofNat, hmod, hdiv, ih]
    simp

theorem length_overwrite {bs : Bytes} {start : Nat} {new : Bytes}
    (h : start + new.length ≤ bs.length) : (overwrite bs start new).length = bs.length := by
  unfold overwrite
  split
  · rfl
  · simp; omega

@[simp] theorem length_resize (bs : Bytes) (n : Nat) : (resize bs n).length = n := by
  simp [resize]; omega

end Bytes

end PagePool
