import Mathlib.Logic.Function.Iterate
import PagePool.Log.Checksum

namespace PagePool.Checksum

variable {c d : UInt32} {a b : UInt8} {bs : Bytes} {i : Nat}

theorem toNat_shiftRight_one (c : UInt32) : (c >>> 1).toNat = c.toNat / 2 := by
  rw [UInt32.toNat_shiftRight]
  rfl

theorem and_one_eq_one_iff : c &&& 1 = 1 ↔ c.toNat % 2 = 1 := by
  rw [← UInt32.toNat_inj, UInt32.toNat_and]
  exact Eq.congr_left (Nat.and_one_is_mod _)

/-- The polynomial's high bit tells whether it has been subtracted. -/
theorem testBit_shift (c : UInt32) : (shift c).toNat.testBit 31 = decide (c &&& 1 = 1) := by
  have hhalf : (c >>> 1).toNat.testBit 31 = false := by
    apply Nat.testBit_lt_two_pow
    have hlt := c.toNat_lt
    rw [toNat_shiftRight_one]
    omega
  have hhigh : polynomial.toNat.testBit 31 = true := by decide
  unfold shift
  split
  · rename_i hodd
    rw [UInt32.toNat_xor, Nat.testBit_xor, hhalf, hhigh]
    simp [hodd]
  · rename_i heven
    rw [hhalf]
    simp [heven]

theorem shift_injective : Function.Injective shift := by
  intro c d h
  have hodd : c &&& 1 = 1 ↔ d &&& 1 = 1 := by
    have hbit := congrArg (fun c => c.toNat.testBit 31) h
    simpa only [testBit_shift, decide_eq_decide] using hbit
  have hhalf : c >>> 1 = d >>> 1 := by
    unfold shift at h
    by_cases hc : c &&& 1 = 1
    · rw [if_pos hc, if_pos (hodd.1 hc)] at h
      exact (UInt32.xor_left_inj _).1 h
    · rwa [if_neg hc, if_neg (mt hodd.2 hc)] at h
  rw [and_one_eq_one_iff, and_one_eq_one_iff] at hodd
  rw [← UInt32.toNat_inj, toNat_shiftRight_one, toNat_shiftRight_one] at hhalf
  exact UInt32.toNat_inj.1 (by omega)

/-- A step tells the remainders apart that it starts from. -/
theorem step_injective_left (b : UInt8) : Function.Injective (step · b) := by
  intro c d h
  exact (UInt32.xor_left_inj _).1 (shift_injective.iterate 8 h)

/-- A step tells the bytes apart that it takes in. -/
theorem step_injective_right (c : UInt32) : Function.Injective (step c) := by
  intro a b h
  have hbyte : a.toUInt32 = b.toUInt32 := (UInt32.xor_right_inj _).1 (shift_injective.iterate 8 h)
  have hnat := congrArg UInt32.toNat hbyte
  simpa only [UInt8.toNat_toUInt32, UInt8.toNat_inj] using hnat

theorem foldl_step_injective (bs : Bytes) : Function.Injective fun c => bs.foldl step c := by
  induction bs with
  | nil => exact Function.injective_id
  | cons b bs ih => exact ih.comp (step_injective_left b)

/-- Another byte in one place gives another checksum. -/
theorem crc32_set_ne (hi : i < bs.length) (hb : bs[i]? ≠ some b) :
    crc32 (bs.set i b) ≠ crc32 bs := by
  intro h
  have hfold : (bs.set i b).foldl step 0xFFFFFFFF = bs.foldl step 0xFFFFFFFF :=
    (UInt32.xor_left_inj _).1 h
  have hsplit : bs = bs.take i ++ bs[i] :: bs.drop (i + 1) := by simp
  rw [List.set_eq_take_append_cons_drop, if_pos hi] at hfold
  conv at hfold => rhs; rw [hsplit]
  simp only [List.foldl_append, List.foldl_cons] at hfold
  have hbyte := step_injective_right _ (foldl_step_injective _ hfold)
  rw [hbyte, List.getElem?_eq_getElem hi] at hb
  exact hb rfl

end PagePool.Checksum
