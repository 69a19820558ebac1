import PagePool.Bytes

namespace PagePool.Bitmap

/-- Bit `i` of a byte string, counted from the low bit of the first byte; false past its end. -/
def get (bs : Bytes) (i : Nat) : Bool := (bs.getD (i / 8) 0).toNat.testBit (i % 8)

def withBit (b : UInt8) (i : Nat) (on : Bool) : UInt8 :=
  if on then b ||| UInt8.ofNat (1 <<< i) else b &&& ~~~(UInt8.ofNat (1 <<< i))

def set (bs : Bytes) (i : Nat) (on : Bool) : Bytes :=
  bs.set (i / 8) (withBit (bs.getD (i / 8) 0) (i % 8) on)

@[simp] theorem length_set (bs : Bytes) (i : Nat) (on : Bool) :
    (set bs i on).length = bs.length := by simp [set]

theorem testBit_withBit (b : UInt8) {i j : Nat} (hi : i < 8) (hj : j < 8) (on : Bool) :
    (withBit b i on).toNat.testBit j = if j = i then on else b.toNat.testBit j := by
  have hpow : (UInt8.ofNat (1 <<< i)).toNat = 2 ^ i := by
    rw [UInt8.toNat_ofNat', Nat.one_shiftLeft]
    exact Nat.mod_eq_of_lt (Nat.pow_lt_pow_right (by omega) hi)
  cases on with
  | true =>
    simp only [withBit, if_true, UInt8.toNat_or, hpow, Nat.testBit_or, Nat.testBit_two_pow]
    by_cases h : i = j <;> simp [h, eq_comm]
  | false =>
    have hb : b.toNat.testBit j = (b.toBitVec.getLsbD j) := rfl
    simp only [withBit, Bool.false_eq_true, if_false, hb]
    show ((b &&& ~~~(UInt8.ofNat (1 <<< i))).toBitVec.getLsbD j) = _
    have hn : (UInt8.ofNat (1 <<< i)).toBitVec.getLsbD j = decide (i = j) := by
      show (UInt8.ofNat (1 <<< i)).toNat.testBit j = _
      rw [hpow, Nat.testBit_two_pow]
    rw [UInt8.toBitVec_and, UInt8.toBitVec_not, BitVec.getLsbD_and, BitVec.getLsbD_not, hn]
    by_cases h : i = j <;> simp [h, hj, eq_comm]

/-- Setting a bit changes that bit and no other. -/
theorem get_set {bs : Bytes} {i : Nat} (h : i / 8 < bs.length) (on : Bool) (j : Nat) :
    get (set bs i on) j = if j = i then on else get bs j := by
  have hi : i % 8 < 8 := Nat.mod_lt _ (by omega)
  have hj : j % 8 < 8 := Nat.mod_lt _ (by omega)
  by_cases hbyte : j / 8 = i / 8
  · have hval : (set bs i on).getD (j / 8) 0 = withBit (bs.getD (i / 8) 0) (i % 8) on := by
      simp [set, hbyte, h]
    rw [get, hval, testBit_withBit _ hi hj]
    have hiff : j % 8 = i % 8 ↔ j = i := by omega
    simp only [hiff, get, hbyte]
  · have hval : (set bs i on).getD (j / 8) 0 = bs.getD (j / 8) 0 := by
      have : ¬ i / 8 = j / 8 := fun e => hbyte e.symm
      simp [set, List.getD, List.getElem?_set_ne this]
    have hne : ¬ j = i := fun e => hbyte (by rw [e])
    rw [get, hval, if_neg hne, get]

end PagePool.Bitmap
