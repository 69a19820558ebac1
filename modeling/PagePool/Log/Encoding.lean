import PagePool.Error
import PagePool.Log.Checksum
import PagePool.Log.Record

namespace PagePool

/-- Why bytes are not a log record. -/
inductive Corruption where
  | truncatedHeader
  | truncatedBefore
  | truncatedAfterLength
  | truncatedAfter
  | truncatedChecksum
  | checksumMismatch
  | unknownKind (code : UInt8)
  deriving DecidableEq, Repr

def Corruption.reason : Corruption → String
  | truncatedHeader => "truncated header"
  | truncatedBefore => "truncated before-image"
  | truncatedAfterLength => "truncated after-image length"
  | truncatedAfter => "truncated after-image"
  | truncatedChecksum => "truncated checksum"
  | checksumMismatch => "checksum mismatch"
  | unknownKind code => s!"unknown record kind {code}"

/-- The fields of a written record, whatever its kind. -/
structure LogFrame where
  kind : UInt8
  tid : UInt64
  page : PageId
  before : Bytes
  after : Bytes
  deriving DecidableEq, Repr

namespace LogFrame

/-- Kind, transaction, table, page number and the length of the before-image. -/
def headerSize : Nat := 1 + 8 + 4 + 4 + 4

def header (f : LogFrame) : Bytes :=
  f.kind :: Bytes.ofNat 8 f.tid.toNat ++ Bytes.ofNat 4 f.page.table.number.toNat ++
    Bytes.ofNat 4 f.page.pageNo.toNat ++ Bytes.ofNat 4 f.before.length

/-- Everything that the checksum covers. -/
def body (f : LogFrame) : Bytes :=
  f.header ++ f.before ++ Bytes.ofNat 4 f.after.length ++ f.after

def encode (f : LogFrame) : Bytes := f.body ++ Bytes.ofNat 4 (Checksum.crc32 f.body).toNat

def field (bs : Bytes) (start width : Nat) : Nat := Bytes.toNat ((bs.drop start).take width)

def split (n : Nat) (why : Corruption) (bs : Bytes) : Except Corruption (Bytes × Bytes) :=
  if n ≤ bs.length then .ok (bs.take n, bs.drop n) else .error why

/-- Everything but the images stands in the header. -/
def ofParts (header before after : Bytes) : LogFrame where
  kind := UInt8.ofNat (field header 0 1)
  tid := UInt64.ofNat (field header 1 8)
  page := ⟨⟨UInt32.ofNat (field header 9 4)⟩, UInt32.ofNat (field header 13 4)⟩
  before := before
  after := after

/-- The length of the body: the header, both images, and the length between them. -/
def bodySize (f : LogFrame) : Nat := headerSize + f.before.length + 4 + f.after.length

def size (f : LogFrame) : Nat := f.bodySize + 4

/-- Accepts a frame whose checksum matches the bytes that it was read from. -/
def check (bs : Bytes) (f : LogFrame) (sum : Nat) : Except Corruption LogFrame :=
  if (Checksum.crc32 (bs.take f.bodySize)).toNat = sum then .ok f else .error .checksumMismatch

/-- The frame at the start of the bytes. -/
def parse (bs : Bytes) : Except Corruption LogFrame :=
  match split headerSize .truncatedHeader bs with
  | .error e => .error e
  | .ok (header, rest) =>
  match split (field header 17 4) .truncatedBefore rest with
  | .error e => .error e
  | .ok (before, rest) =>
  match split 4 .truncatedAfterLength rest with
  | .error e => .error e
  | .ok (length, rest) =>
  match split (field length 0 4) .truncatedAfter rest with
  | .error e => .error e
  | .ok (after, rest) =>
  match split 4 .truncatedChecksum rest with
  | .error e => .error e
  | .ok (sum, _) => check bs (ofParts header before after) (field sum 0 4)

end LogFrame

def LogKind.code : LogKind → UInt8
  | update => 1
  | commit => 2
  | abort => 3

namespace LogRecord

/-- The end of a transaction has the zero page id and empty images. -/
def frame : LogRecord → LogFrame
  | update t page before after => ⟨LogKind.update.code, t.number, page, before, after⟩
  | commit t => ⟨LogKind.commit.code, t.number, ⟨⟨0⟩, 0⟩, [], []⟩
  | abort t => ⟨LogKind.abort.code, t.number, ⟨⟨0⟩, 0⟩, [], []⟩

def ofFrame (f : LogFrame) : Except Corruption LogRecord :=
  if f.kind = LogKind.update.code then .ok (.update ⟨f.tid⟩ f.page f.before f.after)
  else if f.kind = LogKind.commit.code then .ok (.commit ⟨f.tid⟩)
  else if f.kind = LogKind.abort.code then .ok (.abort ⟨f.tid⟩)
  else .error (.unknownKind f.kind)

def encode (r : LogRecord) : Bytes := r.frame.encode

def encodeAll (rs : List LogRecord) : Bytes := rs.flatMap encode

/-- The record at the start of the bytes, and how many bytes it takes. -/
def decode (bs : Bytes) : Except Corruption (LogRecord × Nat) :=
  match LogFrame.parse bs with
  | .error e => .error e
  | .ok f => (ofFrame f).map fun r => (r, f.size)

end LogRecord

theorem LogFrame.split_eq_ok {n : Nat} {why : Corruption} {bs a b : Bytes}
    (h : LogFrame.split n why bs = .ok (a, b)) :
    n ≤ bs.length ∧ a = bs.take n ∧ b = bs.drop n := by
  unfold LogFrame.split at h
  split at h
  · cases h; exact ⟨‹_›, rfl, rfl⟩
  · cases h

theorem LogFrame.check_eq_ok {bs : Bytes} {f g : LogFrame} {sum : Nat}
    (h : check bs f sum = .ok g) :
    g = f ∧ (Checksum.crc32 (bs.take f.bodySize)).toNat = sum := by
  unfold check at h
  split at h
  · cases h; exact ⟨rfl, ‹_›⟩
  · cases h

/-- A frame lies within the bytes it was read from. -/
theorem LogFrame.size_le_of_parse {bs : Bytes} {f : LogFrame} (h : parse bs = .ok f) :
    f.size ≤ bs.length := by
  unfold parse at h
  split at h
  · cases h
  rename_i header r₁ h₁
  split at h
  · cases h
  rename_i before r₂ h₂
  split at h
  · cases h
  rename_i length r₃ h₃
  split at h
  · cases h
  rename_i after r₄ h₄
  split at h
  · cases h
  rename_i sum r₅ h₅
  obtain ⟨l₁, rfl, rfl⟩ := split_eq_ok h₁
  obtain ⟨l₂, rfl, rfl⟩ := split_eq_ok h₂
  obtain ⟨l₃, rfl, rfl⟩ := split_eq_ok h₃
  obtain ⟨l₄, rfl, rfl⟩ := split_eq_ok h₄
  obtain ⟨l₅, rfl, rfl⟩ := split_eq_ok h₅
  obtain ⟨rfl, -⟩ := check_eq_ok h
  simp only [List.length_drop] at l₂ l₃ l₄ l₅
  simp only [size, bodySize, ofParts, List.length_take, List.length_drop]
  omega

theorem LogRecord.decode_length {bs : Bytes} {r : LogRecord} {used : Nat}
    (h : decode bs = .ok (r, used)) : 29 ≤ used ∧ used ≤ bs.length := by
  unfold decode at h
  split at h
  · cases h
  rename_i f hf
  have hl := LogFrame.size_le_of_parse hf
  cases ho : ofFrame f with
  | error e => rw [ho] at h; cases h
  | ok r' =>
    rw [ho] at h
    cases h
    refine ⟨?_, hl⟩
    simp only [LogFrame.size, LogFrame.bodySize, LogFrame.headerSize]
    omega

namespace LogRecord

def corrupted (offset : Nat) (why : Corruption) : Error := .logCorrupted offset why.reason

/-- The record at the start of bytes that stand at `offset` in the log. -/
def decodeAt (offset : Nat) (bs : Bytes) : Except Error (LogRecord × Nat) :=
  (decode bs).mapError (corrupted offset)

/-- Every record of the bytes from `offset` on, up to their end. -/
def decodeAll (offset : Nat) (bs : Bytes) : Except Error (List LogRecord) :=
  if bs.isEmpty then .ok []
  else
    match _h : decode bs with
    | .error why => .error (corrupted offset why)
    | .ok (r, used) => (decodeAll (offset + used) (bs.drop used)).map (r :: ·)
termination_by bs.length
decreasing_by
  have := decode_length _h
  simp only [List.length_drop]
  omega

end LogRecord

end PagePool
