import PagePool.Pool.Tasks
import PagePool.Schedule

namespace PagePool.Pool

/-- Goes through at most `locks` lock requests, until the call ends or has to wait. A call that is
cut short goes on in its next pass. -/
def runCall : (locks : Nat) → Pool → Call → Pass Call (Except Error Answer) × Pool
  | 0, p, c => (.blocked c, p)
  | locks + 1, p, c =>
    match p.locks.acquire c.request with
    | (.waits, table) => (.blocked c, { p with locks := table })
    | (.deadlock, table) =>
      (.ended (.error (.transactionAborted c.request.tid)), { p with locks := table })
    | (.granted, table) =>
      match { p with locks := table }.resume c with
      | (.ended r, p) => (.ended r, p)
      | (.needs c, p) => runCall locks p c

/-- A bound on the locks a call can still ask for: the pages it names, or every page of its table
and one more. -/
def lockBound (p : Pool) (c : Call) : Nat :=
  let pages := match p.catalog.numPages c.request.page.table with
    | .ok n => n.toNat
    | .error _ => 0
  c.task.length + pages + 2

/-- One pass of a call that blocks at its locks. -/
def pass (p : Pool) (c : Call) : Pass Call (Except Error Answer) × Pool :=
  runCall (p.lockBound c) p c

/-- Starts a call in a session: it ends at once, or it joins the blocked calls. -/
def start (s : Session Pool Call) (step : Nat) (begun : Progress × Pool) :
    Option (Except Error Answer) × Session Pool Call :=
  match begun with
  | (.ended r, p) => (some r, { s with state := p })
  | (.needs c, p) => { s with state := p }.submit pass step c

end PagePool.Pool
