import PagePool.Pool.State

namespace PagePool.Pool

/-- Handles each page in turn and reports the first failure; later pages are handled all the
same. -/
def forEachPage (handle : Pool → Page → Except Error Unit × Pool) :
    Pool → List Page → Except Error Unit × Pool
  | p, [] => (.ok (), p)
  | p, page :: pages =>
    let (first, p) := handle p page
    let (later, p) := forEachPage handle p pages
    (first >>= fun _ => later, p)

/-- Makes a page its new clean self in the cache. -/
def settlePage (p : Pool) (page : Page) (evictable : Bool) : Pool :=
  { p with
    pages := p.pages.insert page.id page
    recency := p.recency.setEvictable page.id evictable }

/-- The store has taken the page, so what is stored is what to fall back to. -/
def noteWritten (p : Pool) (page : PageId) (catalog : Catalog) : Pool :=
  { p with
    catalog
    unsynced := p.unsynced.erase page
    stats.pagesWritten := p.stats.pagesWritten + 1 }

/-- Writes a committed page. If the store refuses it, it stays cached until a later write. -/
def writeCommitted (p : Pool) (page : Page) : Except Error Unit × Pool :=
  match p.catalog.writePage page with
  | .ok catalog => (.ok (), (p.noteWritten page.id catalog).settlePage page.committed true)
  | .error e =>
    (.error e, { p with unsynced := p.unsynced.insert page.id }.settlePage page.committed false)

/-- Takes a page back to its before-image, in the store as well if a flush put it there. -/
def rollBack (p : Pool) (page : Page) : Except Error Unit × Pool :=
  if p.unsynced.contains page.id then
    match p.catalog.writePage page.beforeImage with
    | .ok catalog => (.ok (), (p.noteWritten page.id catalog).settlePage page.beforeImage true)
    | .error e => (.error e, p.settlePage page.beforeImage false)
  else (.ok (), p.settlePage page.beforeImage true)

/-- The record of a change from a page's last committed bytes to its present ones. -/
def updateRecord (t : TransactionId) (page : Page) : LogRecord :=
  .update t page.id page.before page.data

/-- What a commit logs: every change, then the commit itself. -/
def commitRecords (p : Pool) (t : TransactionId) : List LogRecord :=
  (p.dirtiedBy t).map (updateRecord t) ++ [.commit t]

/-- Logs and forces; after this the transaction is committed. -/
def logCommit (p : Pool) (t : TransactionId) : Except Error Unit × Pool :=
  match p.journal.appendAll (p.commitRecords t) with
  | (.error e, journal) => (.error e, { p with journal })
  | (.ok (), journal) =>
    match journal.force with
    | .error e => (.error e, { p with journal })
    | .ok journal => (.ok (), { p with journal })

def deactivate (p : Pool) (t : TransactionId) : Pool := { p with active := p.active.erase t }

def releaseAll (p : Pool) (t : TransactionId) : Pool := { p with locks := p.locks.releaseAll t }

/-- Logs every change of the transaction, then writes the changed pages and releases its locks.
A failure to log leaves the transaction as it was. -/
def commit (p : Pool) (t : TransactionId) : Except Error Unit × Pool :=
  let dirty := p.dirtiedBy t
  match p.logCommit t with
  | (.error e, p) => (.error e, p)
  | (.ok (), p) =>
    let (written, p) := forEachPage writeCommitted p dirty
    let p := (p.deactivate t).releaseAll t
    (written, { p with stats.commits := p.stats.commits + 1 })

/-- Rolls back every change of the transaction and releases its locks. A transaction that has
completed only loses the locks it has left. -/
def abort (p : Pool) (t : TransactionId) : Except Error Unit × Pool :=
  if p.isActive t then
    let (restored, p) := forEachPage rollBack p (p.dirtiedBy t)
    let (logged, p) : Except Error Unit × Pool :=
      match p.journal.append (.abort t) with
      | .error e => (.error e, p)
      | .ok journal => (.ok (), { p with journal })
    let p := (p.deactivate t).releaseAll t
    (restored >>= fun _ => logged, { p with stats.aborts := p.stats.aborts + 1 })
  else (.ok (), p.releaseAll t)

def complete (p : Pool) (t : TransactionId) (commit : Bool) : Except Error Unit × Pool :=
  if commit then p.commit t else p.abort t

end PagePool.Pool
