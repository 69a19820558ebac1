import PagePool.Error
import PagePool.Heap.Table
import PagePool.Lock.Table

namespace PagePool

/-- One byte to change on a page of a table. -/
structure ByteWrite where
  pageNo : UInt32
  offset : Nat
  value : UInt8
  deriving DecidableEq, Repr

/-- Where an edit takes its pages from: the cache, or the store behind it. -/
inductive PageSource where
  | cache
  | store
  deriving DecidableEq, Repr

/-- What a call goes on with once its lock is granted. -/
inductive Task where
  | fetch
  | insert (tuple : Bytes) (heldBefore install : Bool)
  | delete (slot : UInt16) (install : Bool)
  | scan (rest : List PageId) (found : List StoredTuple)
  | edit (source : PageSource) (edited : List Page) (writes : List ByteWrite)
  deriving DecidableEq, Repr

namespace Task

/-- Only an edit can take its page from the store. -/
def source : Task → PageSource
  | edit source _ _ => source
  | _ => .cache

/-- How many pages the task still names. -/
def length : Task → Nat
  | scan rest _ => rest.length
  | edit _ _ writes => writes.length
  | _ => 0

end Task

/-- A call, cut at the lock it needs next. -/
structure Call where
  request : LockRequest
  task : Task
  deriving DecidableEq, Repr

inductive Answer where
  | done
  | page (page : Page)
  | pages (pages : List Page)
  | tuples (tuples : List StoredTuple)
  deriving DecidableEq, Repr

/-- How far a call gets without a further lock. -/
inductive Progress where
  | ended (result : Except Error Answer)
  | needs (call : Call)

def Progress.failed (e : Error) : Progress := ended (.error e)

end PagePool
