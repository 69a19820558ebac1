import Mathlib.Tactic.SplitIfs
import PagePool.Log.File
import PagePool.Proofs.Log.Damage

namespace PagePool

namespace LogFrame

variable {bs : Bytes} {start n before after : Nat} {why : Corruption}

theorem split_drop_of_le (h : start + n ≤ bs.length) :
    split n why (bs.drop start) = .ok (Bytes.slice bs start n, bs.drop (start + n)) := by
  rw [split_of_le (by rw [List.length_drop]; omega), List.drop_drop, Bytes.slice]

theorem split_drop_of_lt (hstart : start ≤ bs.length) (h : bs.length < start + n) :
    split n why (bs.drop start) = .error why :=
  if_neg (by rw [List.length_drop]; omega)

theorem field_slice (bs : Bytes) (start width : Nat) :
    field (Bytes.slice bs start width) 0 width = field bs start width := by
  rw [Bytes.slice, field_take (Nat.le_of_eq (Nat.zero_add width)), field_drop, Nat.add_zero]

theorem ofParts_take (bs before after : Bytes) :
    ofParts (bs.take headerSize) before after = ofParts bs before after := by
  have hfield : ∀ start width, start + width ≤ headerSize →
      field (bs.take headerSize) start width = field bs start width := fun _ _ => field_take
  rw [ofParts, hfield 0 1 (by decide), hfield 1 8 (by decide), hfield 9 4 (by decide),
    hfield 13 4 (by decide), ← ofParts]

/-- The parts of a frame are looked for one after the other, as long as the lengths say, and the
first part that does not fit the bytes is reported. -/
theorem parse_eq_ite (hbefore : field bs 17 4 = before)
    (hafter : field bs (headerSize + before) 4 = after) :
    parse bs =
      if headerSize ≤ bs.length then
        if headerSize + before ≤ bs.length then
          if headerSize + before + 4 ≤ bs.length then
            if headerSize + before + 4 + after ≤ bs.length then
              if headerSize + before + 4 + after + 4 ≤ bs.length then
                check bs (ofParts bs (Bytes.slice bs headerSize before)
                  (Bytes.slice bs (headerSize + before + 4) after))
                  (field bs (headerSize + before + 4 + after) 4)
              else .error .truncatedChecksum
            else .error .truncatedAfter
          else .error .truncatedAfterLength
        else .error .truncatedBefore
      else .error .truncatedHeader := by
  have hfirst : field (bs.take headerSize) 17 4 = before := (field_take (by decide)).trans hbefore
  unfold parse
  rcases Nat.lt_or_ge bs.length headerSize with h₁ | h₁
  · rw [if_neg (Nat.not_le.2 h₁), split, if_neg (Nat.not_le.2 h₁)]
  rw [if_pos h₁, split_of_le h₁]
  simp only [hfirst]
  rcases Nat.lt_or_ge bs.length (headerSize + before) with h₂ | h₂
  · rw [if_neg (Nat.not_le.2 h₂), split_drop_of_lt h₁ h₂]
  rw [if_pos h₂, split_drop_of_le h₂]
  simp only
  rcases Nat.lt_or_ge bs.length (headerSize + before + 4) with h₃ | h₃
  · rw [if_neg (Nat.not_le.2 h₃), split_drop_of_lt h₂ h₃]
  rw [if_pos h₃, split_drop_of_le h₃]
  simp only [field_slice, hafter]
  rcases Nat.lt_or_ge bs.length (headerSize + before + 4 + after) with h₄ | h₄
  · rw [if_neg (Nat.not_le.2 h₄), split_drop_of_lt h₃ h₄]
  rw [if_pos h₄, split_drop_of_le h₄]
  simp only
  rcases Nat.lt_or_ge bs.length (headerSize + before + 4 + after + 4) with h₅ | h₅
  · rw [if_neg (Nat.not_le.2 h₅), split_drop_of_lt h₄ h₅]
  rw [if_pos h₅, split_drop_of_le h₅]
  simp only [field_slice, ofParts_take]

end LogFrame

/-- A place in a buffer, up to which the buffer has been read. -/
structure LogCursor where
  buffer : Bytes
  pos : Nat
  deriving DecidableEq, Repr

namespace LogCursor

variable {α : Type} {c : LogCursor} {bs : Bytes} {n offset : Nat} {e : Error}

/-- The bytes from `start` up to `stop`. To ask for bytes that are not there is misuse. -/
def between (buffer : Bytes) (start stop : Nat) : Except Error Bytes :=
  if start ≤ stop ∧ stop ≤ buffer.length then .ok (Bytes.slice buffer start (stop - start))
  else .error .misuse

/-- The next `n` bytes. If the buffer ends before they do, that is reported. -/
def next (c : LogCursor) (n : Nat) (e : Error) : Except Error (Bytes × LogCursor) :=
  if c.pos + n ≤ c.buffer.length then do
    let bytes ← between c.buffer c.pos (c.pos + n)
    pure (bytes, ⟨c.buffer, c.pos + n⟩)
  else .error e

def number (c : LogCursor) (width : Nat) (e : Error) : Except Error (Nat × LogCursor) := do
  let (bytes, c) ← c.next width e
  pure (Bytes.toNat bytes, c)

/-- What stands before the images: a frame without them, and the length of the first one. -/
def header (c : LogCursor) (e : Error) : Except Error ((LogFrame × Nat) × LogCursor) := do
  let (kind, c) ← c.number 1 e
  let (tid, c) ← c.number 8 e
  let (table, c) ← c.number 4 e
  let (page, c) ← c.number 4 e
  let (length, c) ← c.number 4 e
  pure ((⟨.ofNat kind, .ofNat tid, ⟨⟨.ofNat table⟩, .ofNat page⟩, [], []⟩, length), c)

/-- The record at the start of a buffer that stands at `offset` in the log, read field by field.
Both lengths are taken as they stand in the buffer. -/
def decode (offset : Nat) (buffer : Bytes) : Except Error (LogRecord × Nat) := do
  let ((frame, length), c) ← header ⟨buffer, 0⟩ (LogRecord.corrupted offset .truncatedHeader)
  let (before, c) ← c.next length (LogRecord.corrupted offset .truncatedBefore)
  let (length, c) ← c.number 4 (LogRecord.corrupted offset .truncatedAfterLength)
  let (after, c) ← c.next length (LogRecord.corrupted offset .truncatedAfter)
  let (sum, last) ← c.number 4 (LogRecord.corrupted offset .truncatedChecksum)
  let body ← between buffer 0 c.pos
  if (Checksum.crc32 body).toNat = sum then do
    let record ← (LogRecord.ofFrame { frame with before, after }).mapError
      (LogRecord.corrupted offset)
    pure (record, last.pos)
  else .error (LogRecord.corrupted offset .checksumMismatch)

/-- What was checked against the end of the buffer lies in it. -/
theorem next_bind (f : Bytes × LogCursor → Except Error α) :
    (c.next n e >>= f) =
      if c.pos + n ≤ c.buffer.length then
        f (Bytes.slice c.buffer c.pos n, ⟨c.buffer, c.pos + n⟩)
      else .error e := by
  unfold next between
  split
  · rename_i hn
    rw [if_pos ⟨Nat.le_add_right _ _, hn⟩, Nat.add_sub_cancel_left]
    rfl
  · rfl

theorem number_bind (f : Nat × LogCursor → Except Error α) :
    (c.number n e >>= f) =
      if c.pos + n ≤ c.buffer.length then
        f (LogFrame.field c.buffer c.pos n, ⟨c.buffer, c.pos + n⟩)
      else .error e := by
  rw [number, bind_assoc, next_bind]
  rfl

theorem header_bind (f : (LogFrame × Nat) × LogCursor → Except Error α) :
    (header ⟨bs, 0⟩ e >>= f) =
      if LogFrame.headerSize ≤ bs.length then
        f ((LogFrame.ofParts bs [] [], LogFrame.field bs 17 4), ⟨bs, LogFrame.headerSize⟩)
      else .error e := by
  unfold header
  simp only [number_bind]
  by_cases hheader : LogFrame.headerSize ≤ bs.length
  · rw [if_pos hheader]
    simp only [LogFrame.headerSize] at hheader
    simp (disch := omega) only [if_pos]
    rfl
  · rw [if_neg hheader]
    split_ifs with h₁ h₂ h₃ h₄ h₅
    · exact absurd h₅ hheader
    all_goals rfl

theorem between_zero (h : n ≤ bs.length) : between bs 0 n = .ok (bs.take n) :=
  if_pos ⟨Nat.zero_le n, h⟩

/-- Field by field, and with both lengths taken as they come, the same record is read or the same
error is found. -/
theorem decode_eq_decodeAt (offset : Nat) (bs : Bytes) :
    decode offset bs = LogRecord.decodeAt offset bs := by
  obtain ⟨before, hbefore⟩ : ∃ n, LogFrame.field bs 17 4 = n := ⟨_, rfl⟩
  obtain ⟨after, hafter⟩ : ∃ n, LogFrame.field bs (LogFrame.headerSize + before) 4 = n := ⟨_, rfl⟩
  unfold decode LogRecord.decodeAt LogRecord.decode
  simp only [header_bind, next_bind, number_bind, hbefore, hafter]
  rw [LogFrame.parse_eq_ite hbefore hafter]
  split_ifs with h₁ h₂ h₃ h₄ h₅
  · -- all parts are there, so the checksum and the kind decide
    have hframe : { LogFrame.ofParts bs [] [] with
        before := Bytes.slice bs LogFrame.headerSize before
        after := Bytes.slice bs (LogFrame.headerSize + before + 4) after } =
      LogFrame.ofParts bs (Bytes.slice bs LogFrame.headerSize before)
        (Bytes.slice bs (LogFrame.headerSize + before + 4) after) := rfl
    have hsize : (LogFrame.ofParts bs (Bytes.slice bs LogFrame.headerSize before)
        (Bytes.slice bs (LogFrame.headerSize + before + 4) after)).bodySize =
          LogFrame.headerSize + before + 4 + after := by
      rw [LogFrame.bodySize, LogFrame.ofParts, Bytes.length_slice h₂, Bytes.length_slice h₄]
    rw [between_zero h₄, hframe, LogFrame.check, hsize, ← hsize]
    generalize LogFrame.ofParts bs (Bytes.slice bs LogFrame.headerSize before)
      (Bytes.slice bs (LogFrame.headerSize + before + 4) after) = f
    simp only [bind, Except.bind]
    split
    · cases hr : LogRecord.ofFrame f with
      | error why => simp only [Except.mapError, Except.map, hr]
      | ok r => simp only [Except.mapError, Except.map, hr, LogFrame.size]; rfl
    · rfl
  all_goals rfl

end LogCursor

namespace LogRecord

variable {r : LogRecord} {steps : List (LogRecord × Nat)} {bytes bs : Bytes} {offset used : Nat}

/-- A record takes as many bytes as its two lengths say, with 29 for everything else. -/
theorem used_eq_of_decode (h : decode bs = .ok (r, used)) :
    used = 29 + LogFrame.field bs 17 4 + LogFrame.field bs (21 + LogFrame.field bs 17 4) 4 := by
  obtain ⟨f, hshort, -, rfl, more, rfl⟩ := decode_eq_ok_iff.1 h
  have hafter := LogFrame.field_encode_after hshort more
  simp only [LogFrame.headerSize] at hafter
  rw [LogFrame.field_encode_before hshort, hafter, LogFrame.size, LogFrame.bodySize,
    LogFrame.headerSize]
  omega

theorem decodeAt_ne_misuse (offset : Nat) (bs : Bytes) : decodeAt offset bs ≠ .error .misuse := by
  unfold decodeAt
  cases decode bs <;> exact nofun

/-- Whole records stand one after the other from `offset` on, each with as many bytes as it takes. -/
def Walks (bytes : Bytes) : (offset : Nat) → (steps : List (LogRecord × Nat)) → Prop
  | _, [] => True
  | offset, (r, used) :: steps =>
    decode (bytes.drop offset) = .ok (r, used) ∧ Walks bytes (offset + used) steps

/-- How many bytes the records take. -/
def taken : List (LogRecord × Nat) → Nat
  | [] => 0
  | (_, used) :: steps => used + taken steps

theorem Walks.mul_length_le (h : Walks bytes offset steps) : 29 * steps.length ≤ taken steps := by
  induction steps generalizing offset with
  | nil => exact Nat.le_refl 0
  | cons step steps ih =>
    obtain ⟨r, used⟩ := step
    obtain ⟨hr, hrest⟩ := h
    have hused := (decode_length hr).1
    have hsteps := ih hrest
    rw [taken, List.length_cons]
    omega

/-- From every offset, whole records stand up to the end or up to bytes that are not a record. -/
theorem exists_walks (hoffset : offset ≤ bytes.length) :
    ∃ steps, Walks bytes offset steps ∧
      (offset + taken steps = bytes.length ∨
        offset + taken steps < bytes.length ∧
          ∃ why, decode (bytes.drop (offset + taken steps)) = .error why) := by
  induction hn : bytes.length - offset using Nat.strong_induction_on generalizing offset with
  | _ n ih =>
    rcases Nat.eq_or_lt_of_le hoffset with hend | hlt
    · exact ⟨[], trivial, .inl hend⟩
    cases hr : decode (bytes.drop offset) with
    | error why => exact ⟨[], trivial, .inr ⟨hlt, why, hr⟩⟩
    | ok step =>
      obtain ⟨r, used⟩ := step
      have hused := decode_length hr
      rw [List.length_drop] at hused
      have hnext : offset + used ≤ bytes.length := by omega
      obtain ⟨steps, hsteps, hstop⟩ := ih (bytes.length - (offset + used)) (by omega) hnext rfl
      refine ⟨(r, used) :: steps, ⟨hr, hsteps⟩, ?_⟩
      rwa [taken, ← Nat.add_assoc]

/-- Records that stand one after the other are read before what follows them. -/
theorem Walks.decodeAll_eq (h : Walks bytes offset steps) :
    decodeAll offset (bytes.drop offset) =
      (decodeAll (offset + taken steps) (bytes.drop (offset + taken steps))).map
        (steps.map Prod.fst ++ ·) := by
  induction steps generalizing offset with
  | nil =>
    change _ = (decodeAll offset (bytes.drop offset)).map (fun rs => rs)
    cases decodeAll offset (bytes.drop offset) <;> rfl
  | cons step steps ih =>
    obtain ⟨r, used⟩ := step
    obtain ⟨hr, hrest⟩ := h
    rw [decodeAll_of_decode hr, List.drop_drop, ih hrest, taken, ← Nat.add_assoc]
    cases decodeAll (offset + used + taken steps) _ <;> rfl

theorem Walks.decodeAll_of_end (h : Walks bytes 0 steps) (hend : taken steps = bytes.length) :
    decodeAll 0 bytes = .ok (steps.map Prod.fst) := by
  have hread := h.decodeAll_eq
  rw [Nat.zero_add, List.drop_zero, hend, List.drop_length, decodeAll_nil] at hread
  rw [hread]
  exact congrArg Except.ok (List.append_nil _)

theorem Walks.decodeAll_of_error {why : Corruption} (h : Walks bytes 0 steps)
    (hbefore : taken steps < bytes.length) (hwhy : decode (bytes.drop (taken steps)) = .error why) :
    decodeAll 0 bytes = .error (corrupted (taken steps) why) := by
  have hne : bytes.drop (taken steps) ≠ [] := by
    rw [← List.length_pos_iff, List.length_drop]
    omega
  have hread := h.decodeAll_eq
  rw [Nat.zero_add, List.drop_zero, LogRecord.decodeAll_of_error hne hwhy] at hread
  rw [hread]
  rfl

end LogRecord

namespace LogFile

open LogRecord

variable {r : LogRecord} {steps : List (LogRecord × Nat)} {records : List LogRecord} {bytes : Bytes}
  {turns offset used : Nat}

/-- The loop that reads a log: while the offset lies before the end, the record there is read and
the offset moves behind it. There is no result as long as `turns` turns are too few. -/
def readLoop (bytes : Bytes) :
    (turns offset : Nat) → (records : List LogRecord) → Option (Except Error (List LogRecord))
  | 0, _, _ => none
  | turns + 1, offset, records =>
    if offset < bytes.length then
      match LogCursor.between bytes offset bytes.length >>= LogCursor.decode offset with
      | .error e => some (.error e)
      | .ok (r, used) => readLoop bytes turns (offset + used) (records ++ [r])
    else some (.ok records)

theorem between_bind_decode (hoffset : offset < bytes.length) :
    (LogCursor.between bytes offset bytes.length >>= LogCursor.decode offset) =
      decodeAt offset (bytes.drop offset) := by
  have hrest : Bytes.slice bytes offset (bytes.length - offset) = bytes.drop offset := by
    rw [Bytes.slice, List.take_of_length_le (by rw [List.length_drop])]
  rw [LogCursor.between, if_pos ⟨Nat.le_of_lt hoffset, Nat.le_refl _⟩, hrest]
  exact LogCursor.decode_eq_decodeAt offset _

theorem readLoop_of_decode (hr : decode (bytes.drop offset) = .ok (r, used)) :
    readLoop bytes (turns + 1) offset records =
      readLoop bytes turns (offset + used) (records ++ [r]) := by
  have hused := decode_length hr
  rw [List.length_drop] at hused
  have hoffset : offset < bytes.length := by omega
  rw [readLoop, if_pos hoffset, between_bind_decode hoffset, (decodeAt_eq_ok_iff offset).2 hr]

theorem readLoop_of_error {why : Corruption} (hoffset : offset < bytes.length)
    (h : decode (bytes.drop offset) = .error why) :
    readLoop bytes (turns + 1) offset records = some (.error (corrupted offset why)) := by
  rw [readLoop, if_pos hoffset, between_bind_decode hoffset, decodeAt, h]
  rfl

theorem readLoop_end : readLoop bytes (turns + 1) bytes.length records = some (.ok records) := by
  rw [readLoop, if_neg (Nat.lt_irrefl _)]

/-- One turn for each record. -/
theorem readLoop_walks (h : Walks bytes offset steps) :
    readLoop bytes (steps.length + turns) offset records =
      readLoop bytes turns (offset + taken steps) (records ++ steps.map Prod.fst) := by
  induction steps generalizing offset records with
  | nil => rw [List.length_nil, Nat.zero_add, List.map_nil, List.append_nil]; rfl
  | cons step steps ih =>
    obtain ⟨r, used⟩ := step
    obtain ⟨hr, hrest⟩ := h
    have hturns : (((r, used) :: steps).length + turns) = (steps.length + turns) + 1 := by
      rw [List.length_cons]
      omega
    rw [hturns, readLoop_of_decode hr, ih hrest, taken, ← Nat.add_assoc, List.map_cons,
      List.append_assoc]
    rfl

/-- The loop reads the log, in one turn for each record that stands in it and one more. -/
theorem readLoop_of_walks (h : Walks bytes 0 steps)
    (hstop : taken steps = bytes.length ∨
      taken steps < bytes.length ∧ ∃ why, decode (bytes.drop (taken steps)) = .error why)
    (hturns : steps.length < turns) :
    readLoop bytes turns 0 [] = some (decodeAll 0 bytes) := by
  obtain ⟨more, rfl⟩ : ∃ more, turns = steps.length + (more + 1) := Nat.exists_eq_add_of_lt hturns
  rw [readLoop_walks h, Nat.zero_add, List.nil_append]
  rcases hstop with hend | ⟨hbefore, why, hwhy⟩
  · rw [hend, readLoop_end, h.decodeAll_of_end hend]
  · rw [readLoop_of_error hbefore hwhy, h.decodeAll_of_error hbefore hwhy]

/-- Whatever the bytes are, a record is read without a look past their end, and takes 29 bytes and
the two images whose lengths stand in it. So the loop over a log file ends, after one turn for each
record and one more. It has then come to the end of the file over whole records, or to an offset
where it reports bytes that are not a record. -/
theorem reads_within_any_bytes (bytes : Bytes) (writer : Option LogWriter) :
    (∀ offset, LogCursor.decode offset bytes = decodeAt offset bytes ∧
      LogCursor.decode offset bytes ≠ .error .misuse) ∧
    (∀ r used, decode bytes = .ok (r, used) →
      used = 29 + LogFrame.field bytes 17 4 +
        LogFrame.field bytes (21 + LogFrame.field bytes 17 4) 4 ∧
      29 ≤ used ∧ used ≤ bytes.length) ∧
    ∃ steps, Walks bytes 0 steps ∧ 29 * steps.length ≤ bytes.length ∧
      (∀ turns > steps.length,
        readLoop bytes turns 0 [] = some (LogFile.readRecords ⟨some bytes, writer⟩)) ∧
      (taken steps = bytes.length ∧
          LogFile.readRecords ⟨some bytes, writer⟩ = .ok (steps.map Prod.fst) ∨
        taken steps < bytes.length ∧ ∃ why, decode (bytes.drop (taken steps)) = .error why ∧
          LogFile.readRecords ⟨some bytes, writer⟩ = .error (corrupted (taken steps) why)) := by
  refine ⟨fun offset => ?_, fun r used hr => ⟨used_eq_of_decode hr, decode_length hr⟩, ?_⟩
  · have heq := LogCursor.decode_eq_decodeAt offset bytes
    exact ⟨heq, heq ▸ decodeAt_ne_misuse offset bytes⟩
  obtain ⟨steps, hsteps, hstop⟩ := exists_walks (Nat.zero_le bytes.length)
  rw [Nat.zero_add] at hstop
  have hlength := hsteps.mul_length_le
  rw [readRecords_of_stored rfl]
  refine ⟨steps, hsteps, by omega, fun turns => readLoop_of_walks hsteps hstop, ?_⟩
  rcases hstop with hend | ⟨hbefore, why, hwhy⟩
  · exact .inl ⟨hend, hsteps.decodeAll_of_end hend⟩
  · exact .inr ⟨hbefore, why, hwhy, hsteps.decodeAll_of_error hbefore hwhy⟩

/-- A commit, and then a change whose before-image claims to be as long as a length can say. -/
def overlongImage : Bytes :=
  (LogRecord.commit ⟨1⟩).encode ++ LogKind.update.code :: Bytes.zeros 16 ++ [255, 255, 255, 255, 0]

/-- The commit is read, and two turns are enough to find that the image is not there. -/
theorem overlong_image_reported :
    LogFrame.field (overlongImage.drop 29) 17 4 = 2 ^ 32 - 1 ∧
    decode overlongImage = .ok (.commit ⟨1⟩, 29) ∧
    29 = 29 + LogFrame.field overlongImage 17 4 +
      LogFrame.field overlongImage (21 + LogFrame.field overlongImage 17 4) 4 ∧
    LogFile.readRecords ⟨some overlongImage, none⟩ =
      .error (.logCorrupted 29 "truncated before-image") := by
  obtain ⟨-, hused, steps, -, hlength, hloop, -⟩ := reads_within_any_bytes overlongImage none
  have hfirst : decode overlongImage = .ok (.commit ⟨1⟩, 29) := by decide +kernel
  have hsize : overlongImage.length = 51 := by decide +kernel
  refine ⟨by decide +kernel, hfirst, (hused _ _ hfirst).1, ?_⟩
  have htwo := hloop 2 (by omega)
  have hrun : readLoop overlongImage 2 0 [] =
      some (.error (.logCorrupted 29 "truncated before-image")) := by decide +kernel
  exact (Option.some.inj (hrun.symm.trans htwo)).symm

end LogFile

end PagePool
