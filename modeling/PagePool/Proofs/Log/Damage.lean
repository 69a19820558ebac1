import PagePool.Proofs.Log.Acceptance
import PagePool.Proofs.Log.Checksum
import PagePool.Proofs.Log.Torn

namespace PagePool

namespace LogFrame

variable {f : LogFrame} {bs : Bytes} {i start width before after n : Nat} {b : UInt8}

theorem split_of_le {why : Corruption} (h : n ≤ bs.length) :
    split n why bs = .ok (bs.take n, bs.drop n) := if_pos h

theorem field_take (h : start + width ≤ n) : field (bs.take n) start width = field bs start width := by
  have hwidth : min width (n - start) = width := by omega
  rw [field, field, List.drop_take, List.take_take, hwidth]

theorem field_drop (bs : Bytes) (n start width : Nat) :
    field (bs.drop n) start width = field bs (n + start) width := by
  rw [field, field, List.drop_drop]

/-- Bytes that go on for as long as the lengths in them say are a frame up to its checksum. -/
theorem parse_eq_check (hbefore : field bs 17 4 = before)
    (hafter : field bs (headerSize + before) 4 = after)
    (hlength : headerSize + before + 4 + after + 4 ≤ bs.length) :
    ∃ f : LogFrame, f.bodySize = headerSize + before + 4 + after ∧
      parse bs = check bs f (field bs f.bodySize 4) := by
  have hfirst : field (bs.take headerSize) 17 4 = before :=
    (field_take (by decide)).trans hbefore
  have hsecond : field (((bs.drop headerSize).drop before).take 4) 0 4 = after := by
    rw [field_take (by decide : 0 + 4 ≤ 4), field_drop, field_drop]
    exact hafter
  have hsum : field (((((bs.drop headerSize).drop before).drop 4).drop after).take 4) 0 4 =
      field bs (headerSize + before + 4 + after) 4 := by
    rw [field_take (by decide : 0 + 4 ≤ 4)]
    simp only [field_drop, Nat.add_zero, Nat.add_assoc]
  have hsize : (ofParts (bs.take headerSize) ((bs.drop headerSize).take before)
      ((((bs.drop headerSize).drop before).drop 4).take after)).bodySize =
        headerSize + before + 4 + after := by
    simp only [bodySize, ofParts, List.length_take, List.length_drop]
    omega
  refine ⟨_, hsize, ?_⟩
  unfold parse
  rw [split_of_le (by omega)]
  simp only [hfirst]
  rw [split_of_le (by rw [List.length_drop]; omega)]
  simp only
  rw [split_of_le (by simp only [List.length_drop]; omega)]
  simp only [hsecond]
  rw [split_of_le (by simp only [List.length_drop]; omega)]
  simp only
  rw [split_of_le (by simp only [List.length_drop]; omega)]
  simp only [hsize, hsum]

/-! What stands in a written frame. -/

theorem field_encode_before (hf : f.Short) (more : Bytes) :
    field (f.encode ++ more) 17 4 = f.before.length :=
  field_eq (a := f.kind :: Bytes.ofNat 8 f.tid.toNat ++ Bytes.ofNat 4 f.page.table.number.toNat ++
    Bytes.ofNat 4 f.page.pageNo.toNat) (by simp [encode, body, header]; rfl) (by simp) hf.1

theorem field_encode_after (hf : f.Short) (more : Bytes) :
    field (f.encode ++ more) (headerSize + f.before.length) 4 = f.after.length :=
  field_eq (a := f.header ++ f.before) (by simp [encode, body]; rfl) (by simp) hf.2

theorem field_encode_checksum (f : LogFrame) (more : Bytes) :
    field (f.encode ++ more) f.bodySize 4 = (Checksum.crc32 f.body).toNat :=
  field_eq (a := f.body) (by simp [encode]; rfl) (by simp) (Checksum.crc32 f.body).toNat_lt

/-! One byte is replaced. -/

theorem field_set_of_disjoint (h : i < start ∨ start + width ≤ i) :
    field (bs.set i b) start width = field bs start width := by
  have hslice : Bytes.slice (bs.set i b) start width = Bytes.slice bs start width := by
    apply List.ext_getElem?
    intro j
    rw [Bytes.getElem?_slice, Bytes.getElem?_slice]
    split
    · rw [List.getElem?_set_ne (by omega)]
    · rfl
  exact congrArg Bytes.toNat hslice

theorem field_set_ne (hstart : start ≤ i) (hi : i < start + width)
    (hlength : start + width ≤ bs.length) (hb : bs[i]? ≠ some b) :
    field (bs.set i b) start width ≠ field bs start width := by
  intro h
  have hlength' : start + width ≤ (bs.set i b).length := by rwa [List.length_set]
  have hslice := congrArg (Bytes.ofNat width) h
  rw [ofNat_field hlength', ofNat_field hlength] at hslice
  have hbyte := congrArg (fun s : Bytes => s[i - start]?) hslice
  have hplace : start + (i - start) = i := by omega
  simp only [Bytes.getElem?_slice, hplace, if_pos (show i - start < width by omega)] at hbyte
  rw [List.getElem?_set_self (by omega)] at hbyte
  exact hb hbyte.symm

/-- The place is taken by one of the two lengths in the frame. -/
def HoldsLength (f : LogFrame) (i : Nat) : Prop :=
  17 ≤ i ∧ i < headerSize ∨
    headerSize + f.before.length ≤ i ∧ i < headerSize + f.before.length + 4

instance (f : LogFrame) (i : Nat) : Decidable (f.HoldsLength i) :=
  inferInstanceAs (Decidable (_ ∨ _))

/-- A frame with another byte in it, but with its lengths, does not have its checksum. -/
theorem parse_set (hf : f.Short) (more : Bytes) (hi : i < f.size) (hlengths : ¬f.HoldsLength i)
    (hb : (f.encode ++ more)[i]? ≠ some b) :
    parse ((f.encode ++ more).set i b) = .error .checksumMismatch := by
  have hfirst : i < 17 ∨ 17 + 4 ≤ i := by
    simp only [HoldsLength, headerSize] at hlengths
    omega
  have hsecond : i < headerSize + f.before.length ∨ headerSize + f.before.length + 4 ≤ i := by
    simp only [HoldsLength] at hlengths
    omega
  have hlength : f.size ≤ (f.encode ++ more).length := by
    rw [List.length_append, length_encode]
    exact Nat.le_add_right _ _
  have hbefore : field ((f.encode ++ more).set i b) 17 4 = f.before.length :=
    (field_set_of_disjoint hfirst).trans (field_encode_before hf more)
  obtain ⟨g, hsize, hparse⟩ := parse_eq_check hbefore
    ((field_set_of_disjoint hsecond).trans (field_encode_after hf more))
    (by rwa [List.length_set])
  have hsame : g.bodySize = f.bodySize := hsize
  rw [hparse, check, hsame, if_neg]
  by_cases hplace : i < f.bodySize
  · -- another body under the same checksum
    have hin : f.body[i]? ≠ some b := by
      rwa [← take_encode f more, List.getElem?_take_of_lt hplace]
    have hchecksum := Checksum.crc32_set_ne (by rwa [length_body]) hin
    rw [field_set_of_disjoint (.inl hplace), field_encode_checksum, List.take_set, take_encode,
      UInt32.toNat_inj]
    exact hchecksum
  · -- the same body under another checksum
    have hafter : f.bodySize ≤ i := Nat.le_of_not_lt hplace
    have hchecksum : field ((f.encode ++ more).set i b) f.bodySize 4 ≠
        field (f.encode ++ more) f.bodySize 4 := field_set_ne hafter hi hlength hb
    have hkept : f.body.set i b = f.body := List.set_eq_of_length_le (by rwa [length_body])
    rw [List.take_set, take_encode, hkept, ← field_encode_checksum f more]
    exact hchecksum.symm

end LogFrame

namespace LogRecord

variable {r : LogRecord} {rs : List LogRecord} {i k : Nat} {b : UInt8}

theorem decode_set (hr : r.Short) (more : Bytes) (hi : i < r.encode.length)
    (hlengths : ¬r.frame.HoldsLength i) (hb : (r.encode ++ more)[i]? ≠ some b) :
    decode ((r.encode ++ more).set i b) = .error .checksumMismatch := by
  rw [encode, LogFrame.length_encode] at hi
  rw [decode, encode, LogFrame.parse_set hr more hi hlengths hb]

end LogRecord

namespace LogFile

open LogRecord

variable {f : LogFile} {r : LogRecord} {rs : List LogRecord} {i k : Nat} {b : UInt8}

/-- A log with another byte at place `i` of a record, but not in one of its lengths, is reported as
corrupted where that record starts, by its checksum. -/
theorem changed_byte_located (hrs : ∀ r ∈ rs, r.Short) (hr : rs[k]? = some r)
    (hi : i < r.encode.length) (hlengths : ¬r.frame.HoldsLength i)
    (hb : (encodeAll rs)[position rs k + i]? ≠ some b)
    (hf : f.stored = some ((encodeAll rs).set (position rs k + i) b)) :
    f.readRecords = .error (.logCorrupted (position rs k) "checksum mismatch") := by
  have hbefore : ∀ r ∈ rs.take k, r.Short := fun r hr => hrs r (List.mem_of_mem_take hr)
  have hplace : position rs k ≤ position rs k + i := Nat.le_add_right _ _
  have hshift : position rs k + i - (encodeAll (rs.take k)).length = i := Nat.add_sub_cancel_left ..
  rw [encodeAll_eq_append hr, List.getElem?_append_right hplace, hshift] at hb
  rw [encodeAll_eq_append hr, List.set_append_right _ _ hplace, hshift] at hf
  have hne : (r.encode ++ encodeAll (rs.drop (k + 1))).set i b ≠ [] := by
    rw [← List.length_pos_iff, List.length_set, List.length_append]
    omega
  have hdamaged := decode_set (hrs r (List.mem_of_getElem? hr)) (encodeAll (rs.drop (k + 1))) hi
    hlengths hb
  rw [readRecords_of_stored hf]
  exact decodeAll_append_of_error hbefore hne hdamaged

/-- The one byte of the after-image is changed, right behind a before-image that looks like a
record. -/
theorem changed_image_located :
    LogFile.readRecords ⟨some ((encodeAll recordInImage).set 83 8), none⟩ =
      .error (.logCorrupted 29 "checksum mismatch") := by
  have hposition : position recordInImage 1 = 29 := by decide +kernel
  have hread := changed_byte_located (k := 1) (i := 54) (b := 8) (f := ⟨some _, none⟩)
    recordInImage_short rfl (by decide +kernel) (by decide +kernel) (by decide +kernel) rfl
  rwa [hposition] at hread

end LogFile

end PagePool
