import PagePool.Log.Encoding
import PagePool.Proofs.Bytes

namespace PagePool

namespace LogFrame

variable {f : LogFrame} {bs a b c more : Bytes} {n start width : Nat} {why : Corruption}

/-- The lengths of the images fit the fields they are written in. -/
def Short (f : LogFrame) : Prop := f.before.length < 2 ^ 32 ∧ f.after.length < 2 ^ 32

@[simp] theorem length_header (f : LogFrame) : f.header.length = headerSize := by
  simp [header, headerSize]

@[simp] theorem length_body (f : LogFrame) : f.body.length = f.bodySize := by
  simp [body, bodySize]
  omega

@[simp] theorem length_encode (f : LogFrame) : f.encode.length = f.size := by
  simp [encode, size]

theorem split_append (h : a.length = n) : split n why (a ++ b) = .ok (a, b) := by
  subst h
  rw [split, if_pos (by simp), List.take_left, List.drop_left]

/-- What a split cuts off does not depend on what follows. -/
theorem split_append_of_ok (h : split n why bs = .ok (a, b)) :
    split n why (bs ++ more) = .ok (a, b ++ more) := by
  obtain ⟨hn, rfl, rfl⟩ := split_eq_ok h
  calc split n why (bs ++ more)
      = split n why (bs.take n ++ (bs.drop n ++ more)) := by
        rw [← List.append_assoc, List.take_append_drop]
    _ = .ok (bs.take n, bs.drop n ++ more) := split_append (List.length_take_of_le hn)

theorem field_eq_toNat (h : bs = a ++ (b ++ c)) (hstart : a.length = start)
    (hwidth : b.length = width) : field bs start width = Bytes.toNat b := by
  subst h hstart hwidth
  rw [field, List.drop_left, List.take_left]

/-- A number that stands between other fields is read back, if the field is wide enough. -/
theorem field_eq {m : Nat} (h : bs = a ++ (Bytes.ofNat width m ++ c)) (hstart : a.length = start)
    (hm : m < 256 ^ width) : field bs start width = m := by
  rw [field_eq_toNat h hstart (Bytes.length_ofNat width m), Bytes.toNat_ofNat, Nat.mod_eq_of_lt hm]

theorem field_ofNat (width : Nat) {m : Nat} (hm : m < 256 ^ width) :
    field (Bytes.ofNat width m) 0 width = m :=
  field_eq (a := []) (c := []) (by simp) rfl hm

/-- The header gives back the fields that were written in it. -/
theorem ofParts_header (f : LogFrame) : ofParts f.header f.before f.after = f := by
  have hkind : field f.header 0 1 = f.kind.toNat :=
    field_eq_toNat (a := []) (b := [f.kind]) (by simp [header]; rfl) rfl rfl
  have htid : field f.header 1 8 = f.tid.toNat :=
    field_eq (a := [f.kind]) (by simp [header]; rfl) rfl f.tid.toNat_lt
  have htable : field f.header 9 4 = f.page.table.number.toNat :=
    field_eq (a := f.kind :: Bytes.ofNat 8 f.tid.toNat) (by simp [header]; rfl) (by simp)
      f.page.table.number.toNat_lt
  have hpage : field f.header 13 4 = f.page.pageNo.toNat :=
    field_eq (a := f.kind :: Bytes.ofNat 8 f.tid.toNat ++ Bytes.ofNat 4 f.page.table.number.toNat)
      (by simp [header]; rfl) (by simp) f.page.pageNo.toNat_lt
  simp only [ofParts, hkind, htid, htable, hpage, UInt8.ofNat_toNat, UInt64.ofNat_toNat,
    UInt32.ofNat_toNat]

theorem field_header_before (h : f.before.length < 2 ^ 32) :
    field f.header 17 4 = f.before.length :=
  field_eq (a := f.kind :: Bytes.ofNat 8 f.tid.toNat ++ Bytes.ofNat 4 f.page.table.number.toNat ++
    Bytes.ofNat 4 f.page.pageNo.toNat) (c := []) (by simp [header]) (by simp) h

theorem take_encode (f : LogFrame) (more : Bytes) : (f.encode ++ more).take f.bodySize = f.body := by
  rw [encode, List.append_assoc, ← length_body, List.take_left]

theorem check_encode (f : LogFrame) (more : Bytes) :
    check (f.encode ++ more) f (Checksum.crc32 f.body).toNat = .ok f := by
  rw [check, take_encode, if_pos rfl]

/-- A written frame is read back, whatever follows it. -/
theorem parse_encode (hf : f.Short) (more : Bytes) : parse (f.encode ++ more) = .ok f := by
  have hparts : f.encode ++ more = f.header ++ (f.before ++ (Bytes.ofNat 4 f.after.length ++
      (f.after ++ (Bytes.ofNat 4 (Checksum.crc32 f.body).toNat ++ more)))) := by
    simp [encode, body]
  unfold parse
  rw [hparts, split_append f.length_header, ← hparts]
  simp only [field_header_before hf.1, split_append]
  rw [split_append (Bytes.length_ofNat 4 _)]
  simp only [field_ofNat 4 hf.2, split_append]
  rw [split_append (Bytes.length_ofNat 4 _)]
  simp only [ofParts_header, field_ofNat 4 (Checksum.crc32 f.body).toNat_lt]
  exact check_encode f more

/-- A frame lies within the bytes it was read from, so what follows them does not matter. -/
theorem parse_append (h : parse bs = .ok f) (more : Bytes) : parse (bs ++ more) = .ok f := by
  have hsize := size_le_of_parse h
  unfold parse at h ⊢
  split at h
  · cases h
  rename_i header r₁ h₁
  split at h
  · cases h
  rename_i before r₂ h₂
  split at h
  · cases h
  rename_i length r₃ h₃
  split at h
  · cases h
  rename_i after r₄ h₄
  split at h
  · cases h
  rename_i sum r₅ h₅
  simp only [split_append_of_ok h₁, split_append_of_ok h₂, split_append_of_ok h₃,
    split_append_of_ok h₄, split_append_of_ok h₅]
  obtain ⟨rfl, hsum⟩ := check_eq_ok h
  have hbody : (ofParts header before after).bodySize ≤ bs.length := by
    rw [size] at hsize
    omega
  rw [check, List.take_append_of_le_length hbody, if_pos hsum]

end LogFrame

namespace LogRecord

variable {r : LogRecord} {rs : List LogRecord} {bs more : Bytes} {used offset : Nat}

/-- The images of the record are short enough for the lengths that are written before them. -/
def Short (r : LogRecord) : Prop := r.frame.Short

theorem short_update {t : TransactionId} {page : PageId} {before after : Bytes}
    (hbefore : before.length < 2 ^ 32) (hafter : after.length < 2 ^ 32) :
    (update t page before after).Short := ⟨hbefore, hafter⟩

theorem short_commit (t : TransactionId) : (commit t).Short := ⟨by simp [frame], by simp [frame]⟩

theorem short_abort (t : TransactionId) : (abort t).Short := ⟨by simp [frame], by simp [frame]⟩

theorem ofFrame_frame (r : LogRecord) : ofFrame r.frame = .ok r := by
  cases r <;> rfl

/-- A written record is read back, whatever follows it. -/
theorem decode_encode (hr : r.Short) (more : Bytes) :
    decode (r.encode ++ more) = .ok (r, r.encode.length) := by
  rw [decode, encode, LogFrame.parse_encode hr]
  simp only [ofFrame_frame, Except.map, LogFrame.length_encode]

theorem decode_append (h : decode bs = .ok (r, used)) (more : Bytes) :
    decode (bs ++ more) = .ok (r, used) := by
  unfold decode at h ⊢
  cases hf : LogFrame.parse bs with
  | error e =>
    rw [hf] at h
    cases h
  | ok f =>
    rw [LogFrame.parse_append hf]
    rwa [hf] at h

theorem decodeAll_nil (offset : Nat) : decodeAll offset [] = .ok [] := by
  rw [decodeAll]
  rfl

theorem decodeAll_of_decode (h : decode bs = .ok (r, used)) :
    decodeAll offset bs = (decodeAll (offset + used) (bs.drop used)).map (r :: ·) := by
  have hlength := decode_length h
  have hne : ¬bs.isEmpty = true := by
    rw [List.isEmpty_iff_length_eq_zero]
    omega
  rw [decodeAll, if_neg hne]
  split
  · rename_i why hd
    rw [h] at hd
    contradiction
  · rename_i r' used' hd
    obtain ⟨rfl, rfl⟩ := Prod.mk.inj (Except.ok.inj (h.symm.trans hd))
    rfl

/-- Records that can be read are followed by whatever can be read after them. -/
theorem decodeAll_append (h : decodeAll offset bs = .ok rs) (more : Bytes) :
    decodeAll offset (bs ++ more) = (decodeAll (offset + bs.length) more).map (rs ++ ·) := by
  induction offset, bs using decodeAll.induct generalizing rs with
  | case1 offset bs he =>
    obtain rfl : bs = [] := List.isEmpty_iff.1 he
    rw [decodeAll_nil] at h
    obtain rfl := Except.ok.inj h
    cases hmore : decodeAll offset more <;> simp [hmore, Except.map]
  | case2 offset bs hne why hd =>
    rw [decodeAll, if_neg hne] at h
    split at h
    · contradiction
    · rename_i hd'
      rw [hd] at hd'
      contradiction
  | case3 offset bs hne r used hd ih =>
    have hused := (decode_length hd).2
    rw [decodeAll_of_decode hd] at h
    cases hrest : decodeAll (offset + used) (bs.drop used) with
    | error e =>
      rw [hrest] at h
      contradiction
    | ok rest =>
      rw [hrest] at h
      obtain rfl : r :: rest = rs := Except.ok.inj h
      have hend : offset + used + (bs.drop used).length = offset + bs.length := by
        rw [List.length_drop]
        omega
      rw [decodeAll_of_decode (decode_append hd more), List.drop_append_of_le_length hused,
        ih hrest, hend]
      cases decodeAll (offset + bs.length) more <;> rfl

/-- Written records are read back. -/
theorem decodeAll_encodeAll (hrs : ∀ r ∈ rs, r.Short) (offset : Nat) :
    decodeAll offset (encodeAll rs) = .ok rs := by
  induction rs generalizing offset with
  | nil => exact decodeAll_nil offset
  | cons r rs ih =>
    obtain ⟨hr, hrs⟩ := List.forall_mem_cons.1 hrs
    have hsplit : encodeAll (r :: rs) = r.encode ++ encodeAll rs := List.flatMap_cons
    rw [hsplit, decodeAll_of_decode (decode_encode hr _), List.drop_left, ih hrs]
    rfl

end LogRecord

end PagePool
