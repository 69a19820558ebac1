import PagePool.Error
import PagePool.Lock.Table
import PagePool.Schedule

namespace PagePool.LockTable

/-- One pass of a request that blocks until it is granted or refused. -/
def pass (l : LockTable) (r : LockRequest) : Pass LockRequest (Except Error Unit) × LockTable :=
  match l.acquire r with
  | (.granted, l) => (.ended (.ok ()), l)
  | (.deadlock, l) => (.ended (.error (.transactionAborted r.tid)), l)
  | (.waits, l) => (.blocked r, l)

end PagePool.LockTable
