import PagePool.Log.File
import PagePool.Log.Memory

namespace PagePool

/-- Where a journal keeps its records. One medium takes page updates only. -/
inductive LogMedium where
  | memory (log : MemoryLog)
  | updatesOnly (log : MemoryLog)
  | file (log : LogFile)
  deriving DecidableEq, Repr

/-- The write-ahead log of a pool, with the failures it is told to have. -/
structure Journal where
  medium : LogMedium
  refuses : LogRecord → Bool
  forceFails : Bool

/-- The reason given when a record of this kind is refused. -/
def LogKind.refusal : LogKind → String
  | update => "injected log_write failure"
  | commit => "injected log_commit failure"
  | abort => "injected log_abort failure"

namespace LogMedium

def append (m : LogMedium) (r : LogRecord) : LogMedium :=
  match m with
  | memory log => memory (log.append r)
  | updatesOnly log => if r.kind = .update then updatesOnly (log.append r) else m
  | file log => file (log.append r)

def force : LogMedium → LogMedium
  | memory log => memory log.force
  | updatesOnly log => updatesOnly log.force
  | file log => file log.force

def durableRecords : LogMedium → Except Error (List LogRecord)
  | memory log => .ok log.durableRecords
  | updatesOnly log => .ok log.durableRecords
  | file log => log.readRecords

/-- Closes and reopens a file; a log in memory goes on. -/
def reopen : LogMedium → LogMedium
  | file log => file log.openForAppend
  | m => m

end LogMedium

namespace Journal

/-- A journal without failures. -/
def ofMedium (medium : LogMedium) : Journal := ⟨medium, fun _ => false, false⟩

/-- Appends a record. A refusal leaves the journal as it was. -/
def append (j : Journal) (r : LogRecord) : Except Error Journal :=
  if j.refuses r then .error (.logForceFailed r.kind.refusal)
  else .ok { j with medium := j.medium.append r }

/-- Appends records in order, up to the first refusal. -/
def appendAll (j : Journal) : List LogRecord → Except Error Unit × Journal
  | [] => (.ok (), j)
  | r :: rs =>
    match j.append r with
    | .error e => (.error e, j)
    | .ok j => appendAll j rs

/-- Makes every appended record durable. A failure leaves the journal as it was. -/
def force (j : Journal) : Except Error Journal :=
  if j.forceFails then .error (.logForceFailed "injected failure")
  else .ok { j with medium := j.medium.force }

/-- Has the journal refuse the records of one kind, or take them again. -/
def setRefusal (j : Journal) (kind : LogKind) (on : Bool) : Journal :=
  { j with refuses := fun r => if r.kind = kind then on else j.refuses r }

def reopen (j : Journal) : Journal := { j with medium := j.medium.reopen }

end Journal

end PagePool
