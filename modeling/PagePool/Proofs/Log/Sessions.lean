import PagePool.Proofs.Log.Durable

namespace PagePool

/-- A call of an open log. -/
inductive LogCall where
  | write (tid : TransactionId) (before after : Page)
  | commit (tid : TransactionId)
  | abort (tid : TransactionId)
  | force

namespace LogCall

/-- The record that the call is to leave in the log. -/
def record? : LogCall → Option LogRecord
  | write t before after => some (.update t after.id before.data after.data)
  | commit t => some (.commit t)
  | abort t => some (.abort t)
  | force => none

def records (calls : List LogCall) : List LogRecord := calls.filterMap record?

/-- The page images are short enough for the lengths that are written before them. -/
def Short : LogCall → Prop
  | write _ before after => before.data.length < 2 ^ 32 ∧ after.data.length < 2 ^ 32
  | _ => True

variable {c : LogCall} {r : LogRecord} {calls more : List LogCall}

theorem short_of_record? (hc : c.Short) (hr : c.record? = some r) : r.Short := by
  cases c with
  | write t before after =>
    obtain rfl := Option.some.inj hr
    exact LogRecord.short_update hc.1 hc.2
  | commit t =>
    obtain rfl := Option.some.inj hr
    exact LogRecord.short_commit t
  | abort t =>
    obtain rfl := Option.some.inj hr
    exact LogRecord.short_abort t
  | force => contradiction

theorem records_append : records (calls ++ more) = records calls ++ records more :=
  List.filterMap_append

end LogCall

namespace LogFile

def perform (f : LogFile) : LogCall → LogFile
  | .write t before after => f.logWrite t before after
  | .commit t => f.logCommit t
  | .abort t => f.logAbort t
  | .force => f.force

def performAll (f : LogFile) (calls : List LogCall) : LogFile := calls.foldl perform f

/-- The log is opened, used and closed again. -/
def session (f : LogFile) (calls : List LogCall) : LogFile := (f.openForAppend.performAll calls).close

variable {f : LogFile} {old new : List LogRecord} {r : LogRecord} {c : LogCall}
  {calls : List LogCall}

theorem perform_of_record? (f : LogFile) (hr : c.record? = some r) :
    f.perform c = f.append r := by
  cases c with
  | force => contradiction
  | _ =>
    obtain rfl := Option.some.inj hr
    rfl

theorem perform_of_none (f : LogFile) (hr : c.record? = none) : f.perform c = f.force := by
  cases c with
  | force => rfl
  | _ => contradiction

/-- The log is open. It had the `old` records when it was opened, and has taken the `new` ones
since. -/
structure Wrote (f : LogFile) (old new : List LogRecord) : Prop where
  holds : ∃ n, (LogMedium.file f).Holds (old ++ new) n
  appended : f.appendedBytes = (LogRecord.encodeAll new).length

namespace Wrote

theorem append (h : f.Wrote old new) (hr : r.Short) : (f.append r).Wrote old (new ++ [r]) := by
  obtain ⟨⟨n, hn⟩, happended⟩ := h
  refine ⟨⟨n, ?_⟩, ?_⟩
  · rw [← List.append_assoc]
    exact hn.append hr
  · obtain ⟨forced, rest, bytes, appended, -, -, -, rfl, -⟩ := hn
    obtain rfl : appended = (LogRecord.encodeAll new).length := happended
    simp [LogFile.append, appendedBytes, LogRecord.encodeAll]

theorem force (h : f.Wrote old new) : f.force.Wrote old new := by
  obtain ⟨⟨n, hn⟩, happended⟩ := h
  refine ⟨⟨_, hn.force⟩, ?_⟩
  obtain ⟨forced, rest, bytes, appended, -, -, -, rfl, -⟩ := hn
  exact happended

/-- Forcing brings everything that the log has taken into the file. -/
theorem readRecords_force (h : f.Wrote old new) : f.force.readRecords = .ok (old ++ new) := by
  obtain ⟨n, hn⟩ := h.holds
  have hread : f.force.readRecords = .ok ((old ++ new).take _) := hn.force.durableRecords
  rwa [List.take_length] at hread

theorem perform (h : f.Wrote old new) (hc : c.Short) :
    (f.perform c).Wrote old (new ++ c.record?.toList) := by
  cases hr : c.record? with
  | none =>
    rw [perform_of_none f hr, Option.toList_none, List.append_nil]
    exact h.force
  | some r =>
    rw [perform_of_record? f hr]
    exact h.append (LogCall.short_of_record? hc hr)

theorem performAll (h : f.Wrote old new) (hcalls : ∀ c ∈ calls, c.Short) :
    (f.performAll calls).Wrote old (new ++ LogCall.records calls) := by
  induction calls generalizing f new with
  | nil => simpa [LogFile.performAll, LogCall.records] using h
  | cons c calls ih =>
    obtain ⟨hc, hrest⟩ := List.forall_mem_cons.1 hcalls
    have hlater := ih (h.perform hc) hrest
    rw [List.append_assoc] at hlater
    cases hr : c.record? <;> simpa [LogFile.performAll, LogCall.records, hr] using hlater

end Wrote

/-- The log is closed and can be read, if it has ever been written. -/
structure Keeps (f : LogFile) (rs : List LogRecord) : Prop where
  closed : f.writer = none
  readable : LogRecord.decodeAll 0 f.contents = .ok rs

namespace Keeps

variable {rs : List LogRecord} {past : List (List LogCall)}

theorem openForAppend (h : f.Keeps rs) : f.openForAppend.Wrote rs [] := by
  refine ⟨⟨rs.length, ?_⟩, rfl⟩
  rw [List.append_nil]
  exact LogMedium.holds_openForAppend h.closed h.readable

theorem of_close (h : f.Wrote old new) : f.close.Keeps (old ++ new) := by
  have hread := h.readRecords_force
  obtain ⟨n, hn⟩ := h.force.holds
  obtain ⟨forced, rest, bytes, appended, -, -, -, hf, -⟩ := hn
  refine ⟨rfl, ?_⟩
  rw [hf] at hread
  rw [close, hf]
  exact hread

theorem session (h : f.Keeps rs) (hcalls : ∀ c ∈ calls, c.Short) :
    (f.session calls).Keeps (rs ++ LogCall.records calls) :=
  of_close (h.openForAppend.performAll hcalls)

theorem sessions (h : f.Keeps rs) (hpast : ∀ calls ∈ past, ∀ c ∈ calls, c.Short) :
    (past.foldl LogFile.session f).Keeps (rs ++ LogCall.records past.flatten) := by
  induction past generalizing f rs with
  | nil => simpa [LogCall.records] using h
  | cons calls past ih =>
    obtain ⟨hcalls, hrest⟩ := List.forall_mem_cons.1 hpast
    have hlater := ih (h.session hcalls) hrest
    rwa [List.append_assoc, ← LogCall.records_append] at hlater

end Keeps

theorem keeps_absent : absent.Keeps [] := ⟨rfl, LogRecord.decodeAll_nil 0⟩

/-- Sessions with a log that is not there at first: whatever the last session has done so far, a
force and closing the log both leave the records of all sessions in the file, in order. The log
counts the bytes of the last session's records. A record is decoded where it stands, whatever
follows it. -/
theorem sessions_read_back (past : List (List LogCall)) (calls : List LogCall)
    (hpast : ∀ session ∈ past, ∀ c ∈ session, c.Short) (hcalls : ∀ c ∈ calls, c.Short) :
    let log := (past.foldl session absent).openForAppend.performAll calls
    let records := LogCall.records past.flatten ++ LogCall.records calls
    log.force.readRecords = .ok records ∧
    log.close.readRecords = .ok records ∧
    log.appendedBytes = (LogRecord.encodeAll (LogCall.records calls)).length ∧
    log.force.appendedBytes = log.appendedBytes ∧
    ∀ r : LogRecord, r.Short → ∀ (rest : Bytes) (offset : Nat),
      LogRecord.decodeAt offset (r.encode ++ rest) = .ok (r, r.encode.length) := by
  intro log records
  have hopen : log.Wrote (LogCall.records past.flatten) (LogCall.records calls) :=
    (keeps_absent.sessions hpast).openForAppend.performAll hcalls
  refine ⟨hopen.readRecords_force, hopen.readRecords_force, hopen.appended,
    hopen.force.appended.trans hopen.appended.symm, fun r hr rest offset => ?_⟩
  rw [LogRecord.decodeAt, LogRecord.decode_encode hr]
  rfl

/-- A page change and its commit survive reopening, and an abort is found after them. -/
theorem change_and_abort_read_back :
    let before := Page.zeroed ⟨⟨1⟩, 4⟩ 2
    let after : Page := { before with data := [7, 0] }
    let first := [LogCall.write ⟨5⟩ before after, .commit ⟨5⟩, .force]
    let second := [LogCall.abort ⟨6⟩]
    let log := (absent.session first).openForAppend.performAll second
    (∀ c ∈ first, c.Short) ∧ (∀ c ∈ second, c.Short) ∧
    log.force.readRecords =
      .ok [.update ⟨5⟩ ⟨⟨1⟩, 4⟩ [0, 0] [7, 0], .commit ⟨5⟩, .abort ⟨6⟩] ∧
    log.appendedBytes = 29 := by
  intro before after first second log
  have hfirst : ∀ c ∈ first, c.Short := by
    simp [first, before, after, LogCall.Short, Page.zeroed, Page.ofStored]
  have hsecond : ∀ c ∈ second, c.Short := by
    simp [second, LogCall.Short]
  obtain ⟨hread, -, hbytes, -⟩ :=
    sessions_read_back [first] second (List.forall_mem_singleton.2 hfirst) hsecond
  exact ⟨hfirst, hsecond, hread, hbytes.trans (by decide +kernel)⟩

end LogFile

end PagePool
