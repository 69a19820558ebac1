import PagePool.Id

namespace PagePool

/-- Why a file operation fails; a device that fails on demand refuses single pages. -/
inductive IoCause where
  | notFound
  | alreadyExists
  | unexpectedEof
  | refusedRead (pageNo : UInt32)
  | refusedWrite (pageNo : UInt32)
  | refusedGrowth
  | other (reason : String)
  deriving DecidableEq, Repr

def IoCause.text : IoCause → String
  | notFound => "no such file"
  | alreadyExists => "file already exists"
  | unexpectedEof => "file ends inside the page"
  | refusedRead n => s!"injected read failure on page {n}"
  | refusedWrite n => s!"injected write failure on page {n}"
  | refusedGrowth => "injected allocation failure"
  | other reason => reason

inductive Error where
  | io (cause : IoCause)
  | pageNotFound (page : PageId)
  | pageOutOfRange (pageNo pageCount : UInt32)
  | pageSizeMismatch (expected actual : Nat)
  | tableNotFound (table : TableId)
  | invalidTupleSize (tupleSize pageSize : Nat)
  | tupleSizeMismatch (expected actual : Nat)
  | missingRecordId
  | tupleNotFound (record : RecordId)
  | transactionAborted (tid : TransactionId)
  | storageExhausted (capacity : Nat)
  | logCorrupted (offset : Nat) (reason : String)
  | logForceFailed (reason : String)
  /-- The caller broke a precondition: an index outside its buffer, a zero capacity or page size,
  a page count past 32 bits, a changed page whose exclusive lock is not held. -/
  | misuse
  deriving DecidableEq, Repr

namespace Error

def message : Error → String
  | io cause => s!"I/O error: {cause.text}"
  | pageNotFound p => s!"{p.text} not found"
  | pageOutOfRange n count => s!"page {n} out of range (file has {count} pages)"
  | pageSizeMismatch expected actual =>
    s!"page size mismatch: expected {expected} bytes, got {actual}"
  | tableNotFound t => s!"{t.text} not found in catalog"
  | invalidTupleSize tuple page => s!"invalid tuple size {tuple} for page size {page}"
  | tupleSizeMismatch expected actual =>
    s!"tuple size mismatch: table stores {expected} bytes, got {actual}"
  | missingRecordId => "tuple has no record id"
  | tupleNotFound r => s!"tuple {r.text} not found"
  | transactionAborted t => s!"{t.text} aborted: waiting would deadlock"
  | storageExhausted capacity => s!"buffer pool exhausted: all {capacity} cached pages are dirty"
  | logCorrupted offset reason => s!"log corrupted at offset {offset}: {reason}"
  | logForceFailed reason => s!"log force failed: {reason}"
  | misuse => "precondition violated"

/-- Whether the error asks the caller to abort its transaction. -/
def isTransactionAborted : Error → Bool
  | transactionAborted _ => true
  | _ => false

end Error

end PagePool
