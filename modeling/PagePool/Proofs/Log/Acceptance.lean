import PagePool.Proofs.Log.RoundTrip

namespace PagePool

namespace LogFrame

variable {f : LogFrame} {r : LogRecord} {bs header before after : Bytes} {start width : Nat}

theorem field_lt (h : start + width ≤ bs.length) : field bs start width < 256 ^ width := by
  have hlen : (Bytes.slice bs start width).length = width := Bytes.length_slice h
  have hlt := Bytes.toNat_lt (Bytes.slice bs start width)
  rwa [hlen] at hlt

/-- Writing the number that was read from a field gives the field's bytes back. -/
theorem ofNat_field (h : start + width ≤ bs.length) :
    Bytes.ofNat width (field bs start width) = Bytes.slice bs start width := by
  have hlen : (Bytes.slice bs start width).length = width := Bytes.length_slice h
  have hback := Bytes.ofNat_toNat (Bytes.slice bs start width)
  rwa [hlen] at hback

theorem ofNat_field_whole (h : bs.length = width) : Bytes.ofNat width (field bs 0 width) = bs := by
  subst h
  rw [ofNat_field (by omega), Bytes.slice, List.drop_zero, List.take_length]

/-- A header that was taken apart is written as it was. -/
theorem header_ofParts (hlen : header.length = headerSize)
    (hbefore : before.length = field header 17 4) :
    (ofParts header before after).header = header := by
  simp only [headerSize] at hlen
  have hkind : [UInt8.ofNat (field header 0 1)] = Bytes.slice header 0 1 := by
    have hlt : field header 0 1 < 256 := field_lt (by omega)
    rw [← ofNat_field (by omega), Bytes.ofNat, Bytes.ofNat, Nat.mod_eq_of_lt hlt]
  have htid : (UInt64.ofNat (field header 1 8)).toNat = field header 1 8 :=
    UInt64.toNat_ofNat_of_lt (field_lt (by omega))
  have htable : (UInt32.ofNat (field header 9 4)).toNat = field header 9 4 :=
    UInt32.toNat_ofNat_of_lt (field_lt (by omega))
  have hpage : (UInt32.ofNat (field header 13 4)).toNat = field header 13 4 :=
    UInt32.toNat_ofNat_of_lt (field_lt (by omega))
  have hend : header.drop 21 = [] := List.drop_of_length_le (by omega)
  calc (ofParts header before after).header
      = [UInt8.ofNat (field header 0 1)] ++ (Bytes.ofNat 8 (field header 1 8) ++
          (Bytes.ofNat 4 (field header 9 4) ++ (Bytes.ofNat 4 (field header 13 4) ++
          (Bytes.ofNat 4 (field header 17 4) ++ header.drop 21)))) := by
        simp only [LogFrame.header, ofParts, htid, htable, hpage, hbefore, hend, List.cons_append,
          List.nil_append, List.append_nil, List.append_assoc]
    _ = Bytes.slice header 0 1 ++ (Bytes.slice header 1 8 ++ (Bytes.slice header 9 4 ++
          (Bytes.slice header 13 4 ++ (Bytes.slice header 17 4 ++ header.drop 21)))) := by
        rw [hkind, ofNat_field (by omega), ofNat_field (by omega), ofNat_field (by omega),
          ofNat_field (by omega)]
    _ = header := by
        rw [Bytes.slice_append_drop header 17 4, Bytes.slice_append_drop header 13 4,
          Bytes.slice_append_drop header 9 4, Bytes.slice_append_drop header 1 8,
          Bytes.slice_append_drop header 0 1, List.drop_zero]

theorem append_of_split {n : Nat} {why : Corruption} {a b : Bytes}
    (h : split n why bs = .ok (a, b)) : a.length = n ∧ bs = a ++ b := by
  obtain ⟨hn, rfl, rfl⟩ := split_eq_ok h
  exact ⟨List.length_take_of_le hn, (List.take_append_drop n bs).symm⟩

/-- What was read is, byte for byte, how the frame that it was read as is written. -/
theorem encode_of_parse (h : parse bs = .ok f) : f.Short ∧ f.encode <+: bs := by
  unfold parse at h
  split at h
  · cases h
  rename_i header r₁ h₁
  split at h
  · cases h
  rename_i before r₂ h₂
  split at h
  · cases h
  rename_i length r₃ h₃
  split at h
  · cases h
  rename_i after r₄ h₄
  split at h
  · cases h
  rename_i sum r₅ h₅
  obtain ⟨hheader, rfl⟩ := append_of_split h₁
  obtain ⟨hbefore, rfl⟩ := append_of_split h₂
  obtain ⟨hlength, rfl⟩ := append_of_split h₃
  obtain ⟨hafter, rfl⟩ := append_of_split h₄
  obtain ⟨hsum, rfl⟩ := append_of_split h₅
  obtain ⟨rfl, hcheck⟩ := check_eq_ok h
  have hbody : (ofParts header before after).body = header ++ before ++ length ++ after := by
    have hwritten : Bytes.ofNat 4 after.length = length := by
      rw [hafter, ofNat_field_whole hlength]
    rw [body, header_ofParts hheader hbefore]
    simp only [ofParts, hwritten]
  have hparts : header ++ (before ++ (length ++ (after ++ (sum ++ r₅)))) =
      (ofParts header before after).body ++ (sum ++ r₅) := by
    simp only [hbody, List.append_assoc]
  have hcrc : Bytes.ofNat 4 (Checksum.crc32 (ofParts header before after).body).toNat = sum := by
    rw [hparts, ← length_body, List.take_left] at hcheck
    rw [hcheck, ofNat_field_whole hsum]
  have hshort : (ofParts header before after).Short := by
    refine ⟨?_, ?_⟩
    · calc before.length = field header 17 4 := hbefore
        _ < 2 ^ 32 := field_lt (by rw [hheader]; decide)
    · calc after.length = field length 0 4 := hafter
        _ < 2 ^ 32 := field_lt (by omega)
  refine ⟨hshort, r₅, ?_⟩
  rw [hparts, encode, hcrc, List.append_assoc]

/-- A frame is read exactly where it is written. -/
theorem parse_eq_ok_iff : parse bs = .ok f ↔ f.Short ∧ f.encode <+: bs := by
  refine ⟨encode_of_parse, ?_⟩
  rintro ⟨hshort, more, rfl⟩
  exact parse_encode hshort more

/-- No frame is the beginning of another one. -/
theorem eq_of_encode_isPrefix {g : LogFrame} (hf : f.Short) (hg : g.Short)
    (hfb : f.encode <+: bs) (hgb : g.encode <+: bs) : f = g :=
  Except.ok.inj ((parse_eq_ok_iff.2 ⟨hf, hfb⟩).symm.trans (parse_eq_ok_iff.2 ⟨hg, hgb⟩))

/-- What the frame is read as. The end of a transaction is read off its kind and its transaction:
the page and the images that stand in such a frame are not looked at. -/
def Tells (f : LogFrame) : LogRecord → Prop
  | .update t page before after => f = ⟨LogKind.update.code, t.number, page, before, after⟩
  | .commit t => f.kind = LogKind.commit.code ∧ f.tid = t.number
  | .abort t => f.kind = LogKind.abort.code ∧ f.tid = t.number

/-- The frame has nothing in the fields that its kind does not use. -/
def Plain (f : LogFrame) : Prop :=
  f.kind = LogKind.update.code ∨ f.page = ⟨⟨0⟩, 0⟩ ∧ f.before = [] ∧ f.after = []

theorem ofFrame_eq_ok_iff : LogRecord.ofFrame f = .ok r ↔ f.Tells r := by
  have hcommit : LogKind.commit.code ≠ LogKind.update.code := by decide
  have habort : LogKind.abort.code ≠ LogKind.update.code := by decide
  have hends : LogKind.abort.code ≠ LogKind.commit.code := by decide
  constructor
  · intro h
    unfold LogRecord.ofFrame at h
    split at h
    · rename_i hkind
      obtain rfl := Except.ok.inj h
      obtain ⟨kind, tid, page, before, after⟩ := f
      obtain rfl : kind = LogKind.update.code := hkind
      rfl
    split at h
    · obtain rfl := Except.ok.inj h
      exact ⟨‹_›, rfl⟩
    split at h
    · obtain rfl := Except.ok.inj h
      exact ⟨‹_›, rfl⟩
    · contradiction
  · intro h
    cases r with
    | update t page before after =>
      obtain rfl := h
      rfl
    | commit t =>
      rw [LogRecord.ofFrame, h.1, h.2, if_neg hcommit, if_pos rfl]
    | abort t =>
      rw [LogRecord.ofFrame, h.1, h.2, if_neg habort, if_neg hends, if_pos rfl]

/-- A frame is how the record it tells is written, if it is plain and only then. -/
theorem Tells.eq_frame_iff (h : f.Tells r) : f = r.frame ↔ f.Plain := by
  have hcommit : LogKind.commit.code ≠ LogKind.update.code := by decide
  have habort : LogKind.abort.code ≠ LogKind.update.code := by decide
  obtain ⟨kind, tid, page, before, after⟩ := f
  cases r with
  | update t page before after => exact ⟨fun hf => .inl (hf ▸ rfl), fun _ => h⟩
  | commit t =>
    obtain ⟨rfl, rfl⟩ := h
    simp [Plain, LogRecord.frame, hcommit]
  | abort t =>
    obtain ⟨rfl, rfl⟩ := h
    simp [Plain, LogRecord.frame, habort]

theorem Tells.short (h : f.Tells r) (hf : f.Short) : r.Short := by
  cases r with
  | update t page before after =>
    obtain rfl := h
    exact hf
  | commit t => exact LogRecord.short_commit t
  | abort t => exact LogRecord.short_abort t

/-- Only a plain frame is written again as it was read. -/
theorem Tells.encode_eq_iff (h : f.Tells r) (hf : f.Short) : r.encode = f.encode ↔ f.Plain := by
  rw [← h.eq_frame_iff]
  constructor
  · intro he
    exact eq_of_encode_isPrefix hf (h.short hf) List.prefix_rfl
      ⟨[], (List.append_nil _).trans he⟩
  · rintro rfl
    rfl

end LogFrame

namespace LogRecord

variable {r : LogRecord} {bs : Bytes} {n : Nat}

theorem decode_eq_ok_iff :
    decode bs = .ok (r, n) ↔
      ∃ f : LogFrame, f.Short ∧ f.Tells r ∧ f.size = n ∧ f.encode <+: bs := by
  constructor
  · intro h
    unfold decode at h
    split at h
    · contradiction
    rename_i f hf
    obtain ⟨hshort, hbs⟩ := LogFrame.encode_of_parse hf
    cases hr : ofFrame f with
    | error why =>
      rw [hr] at h
      contradiction
    | ok r' =>
      rw [hr] at h
      obtain ⟨rfl, rfl⟩ := Prod.mk.inj (Except.ok.inj h)
      exact ⟨f, hshort, LogFrame.ofFrame_eq_ok_iff.1 hr, rfl, hbs⟩
  · rintro ⟨f, hshort, htells, rfl, hbs⟩
    rw [decode, LogFrame.parse_eq_ok_iff.2 ⟨hshort, hbs⟩]
    simp only [LogFrame.ofFrame_eq_ok_iff.2 htells, Except.map]

theorem decodeAt_eq_ok_iff (offset : Nat) :
    decodeAt offset bs = .ok (r, n) ↔ decode bs = .ok (r, n) := by
  unfold decodeAt
  cases decode bs with
  | error why => exact iff_of_false nofun nofun
  | ok p => exact ⟨fun h => congrArg Except.ok (Except.ok.inj h),
      fun h => congrArg Except.ok (Except.ok.inj h)⟩

/-- Exactly the written frames of the three kinds are read, as the records that they tell, and
any other bytes are reported as corrupted at their offset. Writing a record again gives back the
bytes that it was read from if their frame has nothing in fields that its kind does not use. -/
theorem reads_exactly_frames (bs : Bytes) (offset : Nat) :
    (∀ r n, decodeAt offset bs = .ok (r, n) ↔
      ∃ f : LogFrame, f.Short ∧ f.Tells r ∧ f.size = n ∧ f.encode = bs.take n) ∧
    (∀ e, decodeAt offset bs = .error e → ∃ reason, e = .logCorrupted offset reason) ∧
    (∀ (f : LogFrame) r n, f.Short → f.encode = bs.take n → decodeAt offset bs = .ok (r, n) →
      (r.encode = bs.take n ↔ f.Plain)) := by
  have hiff : ∀ r n, decodeAt offset bs = .ok (r, n) ↔
      ∃ f : LogFrame, f.Short ∧ f.Tells r ∧ f.size = n ∧ f.encode = bs.take n := by
    intro r n
    rw [decodeAt_eq_ok_iff, decode_eq_ok_iff]
    apply exists_congr
    intro f
    constructor
    · rintro ⟨hshort, htells, rfl, hbs⟩
      rw [List.prefix_iff_eq_take, LogFrame.length_encode] at hbs
      exact ⟨hshort, htells, rfl, hbs⟩
    · rintro ⟨hshort, htells, rfl, hbs⟩
      refine ⟨hshort, htells, rfl, ?_⟩
      rw [hbs]
      exact List.take_prefix _ _
  refine ⟨hiff, ?_, ?_⟩
  · intro e h
    unfold decodeAt at h
    cases hd : decode bs with
    | error why =>
      rw [hd] at h
      exact ⟨why.reason, (Except.error.inj h).symm⟩
    | ok p =>
      rw [hd] at h
      contradiction
  · intro f r n hshort hf h
    obtain ⟨g, hg, htells, rfl, hgf⟩ := (hiff r n).1 h
    obtain rfl : f = g := LogFrame.eq_of_encode_isPrefix hshort hg
      (hf ▸ List.take_prefix _ bs) (hgf ▸ List.take_prefix _ bs)
    rw [← hf]
    exact htells.encode_eq_iff hshort

/-- A commit that names a page and carries an image. -/
def strayCommit : LogFrame := ⟨LogKind.commit.code, 7, ⟨⟨3⟩, 5⟩, [1, 2], []⟩

/-- Reading accepts a commit that is not written like one, and a before-image of 2³² bytes, whose
length is cut off where it is written, is not read back. -/
theorem reads_more_and_less_than_written :
    (decodeAt 0 strayCommit.encode = .ok (.commit ⟨7⟩, 31) ∧
      strayCommit.encode.take 31 ≠ (commit ⟨7⟩).encode) ∧
    ¬decodeAt 0 (update ⟨7⟩ ⟨⟨3⟩, 5⟩ (Bytes.zeros (2 ^ 32)) []).encode =
      .ok (update ⟨7⟩ ⟨⟨3⟩, 5⟩ (Bytes.zeros (2 ^ 32)) [],
        (update ⟨7⟩ ⟨⟨3⟩, 5⟩ (Bytes.zeros (2 ^ 32)) []).encode.length) := by
  have hshort : strayCommit.Short := ⟨by decide, by decide⟩
  have hread : decode strayCommit.encode = .ok (commit ⟨7⟩, 31) :=
    decode_eq_ok_iff.2 ⟨strayCommit, hshort, ⟨rfl, rfl⟩, rfl, List.prefix_rfl⟩
  refine ⟨⟨(decodeAt_eq_ok_iff 0).2 hread, by decide +kernel⟩, ?_⟩
  intro h
  obtain ⟨f, hshort, htells, -, -⟩ := decode_eq_ok_iff.1 ((decodeAt_eq_ok_iff 0).1 h)
  obtain rfl := htells
  have hlt : (Bytes.zeros (2 ^ 32)).length < 2 ^ 32 := hshort.1
  rw [Bytes.length_zeros] at hlt
  exact Nat.lt_irrefl _ hlt

end LogRecord

end PagePool
