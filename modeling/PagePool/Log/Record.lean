import PagePool.Bytes
import PagePool.Id

namespace PagePool

inductive LogKind where
  | update
  | commit
  | abort
  deriving DecidableEq, Repr

/-- What the log says: a page changed, or a transaction ended. -/
inductive LogRecord where
  | update (tid : TransactionId) (page : PageId) (before after : Bytes)
  | commit (tid : TransactionId)
  | abort (tid : TransactionId)
  deriving DecidableEq, Repr

namespace LogRecord

def tid : LogRecord → TransactionId
  | update t _ _ _ => t
  | commit t => t
  | abort t => t

def kind : LogRecord → LogKind
  | update .. => .update
  | commit _ => .commit
  | abort _ => .abort

end LogRecord

end PagePool
