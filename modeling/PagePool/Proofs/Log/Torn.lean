import Mathlib.Data.Nat.Find
import Mathlib.Order.Monotone.Defs
import PagePool.Log.File
import PagePool.Proofs.Log.RoundTrip

namespace PagePool

namespace LogFrame

variable {f : LogFrame} {a b : Bytes} {m n : Nat} {why : Corruption}

/-- Why a frame cannot be read that was cut off after `n` bytes: the first of its parts that is not
there in full. -/
def cutReason (f : LogFrame) (n : Nat) : Corruption :=
  if n < headerSize then .truncatedHeader
  else if n < headerSize + f.before.length then .truncatedBefore
  else if n < headerSize + f.before.length + 4 then .truncatedAfterLength
  else if n < f.bodySize then .truncatedAfter
  else .truncatedChecksum

/-- Of bytes that were cut off after `n`, a split takes its part if that is there in full. -/
theorem split_take (h : a.length = m) :
    split m why ((a ++ b).take n) = if n < m then .error why else .ok (a, b.take (n - m)) := by
  subst h
  split
  · rename_i hn
    have hshort : ¬a.length ≤ ((a ++ b).take n).length := by
      rw [List.length_take]
      omega
    rw [LogFrame.split, if_neg hshort]
  · rename_i hn
    rw [List.take_append, List.take_of_length_le (by omega), split_append rfl]

/-- A frame that was cut off is not read, and the reason tells in which part. -/
theorem parse_take (hf : f.Short) (hn : n < f.size) :
    parse (f.encode.take n) = .error (f.cutReason n) := by
  have hparts : f.encode = f.header ++ (f.before ++ (Bytes.ofNat 4 f.after.length ++
      (f.after ++ (Bytes.ofNat 4 (Checksum.crc32 f.body).toNat ++ [])))) := by
    simp [encode, body]
  have hlength := Bytes.length_ofNat 4 f.after.length
  have hsum := Bytes.length_ofNat 4 (Checksum.crc32 f.body).toNat
  simp only [size] at hn
  unfold parse cutReason
  rw [hparts, split_take f.length_header]
  -- one part after the other: either the cut lies in it, or it is there in full
  by_cases hheader : n < headerSize
  · simp only [if_pos hheader]
  simp only [if_neg hheader, field_header_before hf.1, split_take]
  by_cases hbefore : n < headerSize + f.before.length
  · have hcut : n - headerSize < f.before.length := by omega
    simp only [if_pos hbefore, if_pos hcut]
  have hwhole : ¬n - headerSize < f.before.length := by omega
  simp only [if_neg hbefore, if_neg hwhole]
  rw [split_take hlength]
  by_cases hafterLength : n < headerSize + f.before.length + 4
  · have hcut : n - headerSize - f.before.length < 4 := by omega
    simp only [if_pos hafterLength, if_pos hcut]
  have hwhole : ¬n - headerSize - f.before.length < 4 := by omega
  simp only [if_neg hafterLength, if_neg hwhole, field_ofNat 4 hf.2, split_take]
  by_cases hafter : n < f.bodySize
  · have hcut : n - headerSize - f.before.length - 4 < f.after.length := by
      simp only [bodySize] at hafter
      omega
    simp only [if_pos hafter, if_pos hcut]
  have hwhole : ¬n - headerSize - f.before.length - 4 < f.after.length := by
    simp only [bodySize] at hafter
    omega
  have hcut : n - headerSize - f.before.length - 4 - f.after.length < 4 := by
    simp only [bodySize] at hn hafter
    omega
  simp only [if_neg hafter, if_neg hwhole]
  rw [split_take hsum]
  simp only [if_pos hcut]

end LogFrame

namespace LogRecord

variable {r : LogRecord} {rs : List LogRecord} {bs : Bytes} {j k n offset : Nat} {why : Corruption}

theorem encodeAll_append (rs more : List LogRecord) :
    encodeAll (rs ++ more) = encodeAll rs ++ encodeAll more := List.flatMap_append

/-- A cut record is not read. -/
theorem decode_take (hr : r.Short) (hn : n < r.encode.length) :
    decode (r.encode.take n) = .error (r.frame.cutReason n) := by
  rw [encode, LogFrame.length_encode] at hn
  rw [decode, encode, LogFrame.parse_take hr hn]

theorem decodeAll_of_error (hne : bs ≠ []) (h : decode bs = .error why) :
    decodeAll offset bs = .error (corrupted offset why) := by
  rw [decodeAll, if_neg (mt List.isEmpty_iff.1 hne)]
  split
  · rename_i why' hd
    rw [h] at hd
    rw [Except.error.inj hd]
  · rename_i hd
    rw [h] at hd
    contradiction

/-- Reading stops where the first record starts that cannot be read. -/
theorem decodeAll_append_of_error (hrs : ∀ r ∈ rs, r.Short) (hne : bs ≠ [])
    (h : decode bs = .error why) :
    decodeAll 0 (encodeAll rs ++ bs) = .error (corrupted (encodeAll rs).length why) := by
  rw [decodeAll_append (decodeAll_encodeAll hrs 0), decodeAll_of_error hne h, Nat.zero_add]
  rfl

/-! Where the records of a log stand. -/

/-- Where record number `k` of a log starts, and the one before it ends. -/
def position (rs : List LogRecord) (k : Nat) : Nat := (encodeAll (rs.take k)).length

theorem position_length (rs : List LogRecord) : position rs rs.length = (encodeAll rs).length := by
  rw [position, List.take_length]

/-- A record's bytes stand between those of the records before it and of those after it. -/
theorem encodeAll_eq_append (h : rs[k]? = some r) :
    encodeAll rs = encodeAll (rs.take k) ++ (r.encode ++ encodeAll (rs.drop (k + 1))) := by
  obtain ⟨hk, rfl⟩ := List.getElem?_eq_some_iff.1 h
  have hcons : encodeAll (rs[k] :: rs.drop (k + 1)) = rs[k].encode ++ encodeAll (rs.drop (k + 1)) :=
    List.flatMap_cons
  rw [← hcons, ← List.drop_eq_getElem_cons hk, ← encodeAll_append, List.take_append_drop]

/-- The bytes before the start of a record are those of the records before it. -/
theorem encodeAll_take (rs : List LogRecord) (k : Nat) :
    (encodeAll rs).take (encodeAll (rs.take k)).length = encodeAll (rs.take k) := by
  have hsplit : encodeAll rs = encodeAll (rs.take k) ++ encodeAll (rs.drop k) := by
    rw [← encodeAll_append, List.take_append_drop]
  rw [hsplit, List.take_left]

theorem position_succ (h : rs[k]? = some r) :
    position rs (k + 1) = position rs k + r.encode.length := by
  have hone : encodeAll [r] = r.encode := List.append_nil _
  rw [position, List.take_add_one, h, Option.toList_some, encodeAll_append, hone,
    List.length_append, position]

theorem position_mono (rs : List LogRecord) : Monotone (position rs) := by
  intro j k hjk
  have hprefix : rs.take j <+: rs.take k := List.take_prefix_take_left hjk
  obtain ⟨more, hmore⟩ := hprefix
  rw [position, position, ← hmore, encodeAll_append, List.length_append]
  exact Nat.le_add_right _ _

/-- How many of the records stand before `n` in full. -/
theorem exists_whole (rs : List LogRecord) (n : Nat) :
    ∃ k ≤ rs.length, ∀ j ≤ rs.length, position rs j ≤ n ↔ j ≤ k := by
  refine ⟨Nat.findGreatest (position rs · ≤ n) rs.length, Nat.findGreatest_le _, ?_⟩
  intro j hj
  have hgreatest : position rs (Nat.findGreatest (position rs · ≤ n) rs.length) ≤ n :=
    Nat.findGreatest_spec (P := (position rs · ≤ n)) (Nat.zero_le _) (Nat.zero_le n)
  exact ⟨fun hjn => Nat.le_findGreatest hj hjn, fun hjk => (position_mono rs hjk).trans hgreatest⟩

/-- A cut within a record leaves the records before it and the beginning of its own bytes. -/
theorem take_encodeAll (h : rs[k]? = some r) (hstart : position rs k ≤ n)
    (hend : n ≤ position rs (k + 1)) :
    (encodeAll rs).take n = encodeAll (rs.take k) ++ r.encode.take (n - position rs k) := by
  rw [position_succ h] at hend
  have hwithin : n - position rs k ≤ r.encode.length := by omega
  rw [encodeAll_eq_append h, List.take_append, List.take_of_length_le hstart, ← position,
    List.take_append_of_le_length hwithin]

end LogRecord

namespace LogFile

open LogRecord

variable {f : LogFile} {rs : List LogRecord} {n : Nat}

theorem readRecords_of_stored {bytes : Bytes} (h : f.stored = some bytes) :
    f.readRecords = decodeAll 0 bytes := by
  rw [readRecords, h]

/-- A log that was cut off after `n` bytes has `k` of its records in full. If the cut is where a
record starts or the last one ends, exactly these are read. Otherwise the next record is reported
as corrupted where it starts, and the reason tells which part of it was cut. -/
theorem torn_tail_located (hrs : ∀ r ∈ rs, r.Short) (hn : n ≤ (encodeAll rs).length)
    (hf : f.stored = some ((encodeAll rs).take n)) :
    ∃ k ≤ rs.length, (∀ j ≤ rs.length, position rs j ≤ n ↔ j ≤ k) ∧
      ((∃ j ≤ rs.length, position rs j = n) → f.readRecords = .ok (rs.take k)) ∧
      ((¬∃ j ≤ rs.length, position rs j = n) → ∃ r, rs[k]? = some r ∧
        f.readRecords = .error (.logCorrupted (position rs k)
          (r.frame.cutReason (n - position rs k)).reason)) := by
  obtain ⟨k, hk, hwhole⟩ := exists_whole rs n
  have hstart : position rs k ≤ n := (hwhole k hk).2 (Nat.le_refl k)
  have htaken : ∀ r ∈ rs.take k, r.Short := fun r hr => hrs r (List.mem_of_mem_take hr)
  rw [readRecords_of_stored hf]
  refine ⟨k, hk, hwhole, ?_, fun hcut => ?_⟩
  · rintro ⟨j, hj, rfl⟩
    have hlast : position rs j = position rs k :=
      Nat.le_antisymm (position_mono rs ((hwhole j hj).1 (Nat.le_refl _))) hstart
    rw [hlast, position, encodeAll_take]
    exact decodeAll_encodeAll htaken 0
  · have hinside : position rs k < n := Nat.lt_of_le_of_ne hstart fun he => hcut ⟨k, hk, he⟩
    have hlt : k < rs.length := by
      refine Nat.lt_of_le_of_ne hk fun he => ?_
      rw [he, position_length] at hinside
      omega
    have hr := List.getElem?_eq_getElem hlt
    have hend : n < position rs (k + 1) := by
      rw [← Nat.not_le, hwhole (k + 1) hlt]
      exact Nat.not_succ_le_self k
    have htorn : n - position rs k < rs[k].encode.length := by
      rw [position_succ hr] at hend
      omega
    have hne : rs[k].encode.take (n - position rs k) ≠ [] := by
      rw [← List.length_pos_iff, List.length_take]
      omega
    refine ⟨rs[k], hr, ?_⟩
    rw [take_encodeAll hr hstart (Nat.le_of_lt hend)]
    exact decodeAll_append_of_error htaken hne
      (decode_take (hrs _ (List.getElem_mem hlt)) htorn)

/-- The change of a page whose old bytes look like a record of the log. -/
def recordInImage : List LogRecord :=
  [.commit ⟨1⟩, .update ⟨2⟩ ⟨⟨1⟩, 0⟩ (LogRecord.commit ⟨3⟩).encode [7]]

theorem recordInImage_short : ∀ r ∈ recordInImage, r.Short := by
  simp only [recordInImage, List.forall_mem_cons, List.not_mem_nil, false_implies, implies_true]
  exact ⟨short_commit _, short_update (by decide +kernel) (by decide), trivial⟩

/-- Neither a cut at the start of the change nor one behind its before-image reads that image. -/
theorem record_in_image_not_read :
    LogFile.readRecords ⟨some ((encodeAll recordInImage).take 29), none⟩ = .ok [.commit ⟨1⟩] ∧
    LogFile.readRecords ⟨some ((encodeAll recordInImage).take 81), none⟩ =
      .error (.logCorrupted 29 "truncated after-image length") := by
  constructor
  · obtain ⟨k, hk, hwhole, hread, -⟩ :=
      torn_tail_located (n := 29) recordInImage_short (by decide +kernel) (f := ⟨some _, none⟩) rfl
    have hone : 1 ≤ k := (hwhole 1 (by decide)).1 (by decide +kernel)
    have hnext : ¬2 ≤ k := mt (hwhole 2 (by decide)).2 (by decide +kernel)
    obtain rfl : k = 1 := by omega
    exact hread ⟨1, by decide, by decide +kernel⟩
  · obtain ⟨k, hk, hwhole, -, hread⟩ :=
      torn_tail_located (n := 81) recordInImage_short (by decide +kernel) (f := ⟨some _, none⟩) rfl
    have hone : 1 ≤ k := (hwhole 1 (by decide)).1 (by decide +kernel)
    have hnext : ¬2 ≤ k := mt (hwhole 2 (by decide)).2 (by decide +kernel)
    obtain rfl : k = 1 := by omega
    obtain ⟨r, hr, hread⟩ := hread (by decide +kernel)
    obtain rfl := Option.some.inj hr
    exact hread.trans (by decide +kernel)

end LogFile

end PagePool
