import PagePool.Log.Record

namespace PagePool

/-- A log kept in memory: every appended record, the first `durable` of them forced. -/
structure MemoryLog where
  records : List LogRecord
  durable : Nat
  deriving DecidableEq, Repr

namespace MemoryLog

def empty : MemoryLog := ⟨[], 0⟩

def append (m : MemoryLog) (r : LogRecord) : MemoryLog := { m with records := m.records ++ [r] }

def force (m : MemoryLog) : MemoryLog := { m with durable := m.records.length }

def durableRecords (m : MemoryLog) : List LogRecord := m.records.take m.durable

end MemoryLog

end PagePool
