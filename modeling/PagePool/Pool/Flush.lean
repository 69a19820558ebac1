import PagePool.Pool.Completion

namespace PagePool.Pool

/-- Drops a page from the cache without writing it. -/
def discard (p : Pool) (page : PageId) : Pool :=
  if p.isCached page then
    { p with
      pages := p.pages.erase page
      recency := p.recency.remove page
      unsynced := p.unsynced.erase page }
  else p

/-- Logs the change to a page whose owner is active, then forces the log. -/
def logFlush (p : Pool) (owner : TransactionId) (page : Page) : Except Error Unit × Pool :=
  let records := if p.isActive owner then [updateRecord owner page] else []
  match p.journal.appendAll records with
  | (.error e, journal) => (.error e, { p with journal })
  | (.ok (), journal) =>
    match journal.force with
    | .error e => (.error e, { p with journal })
    | .ok journal => (.ok (), { p with journal })

/-- Writes a changed page. While its owner is active it stays changed and owned, so that an abort
can still take it back. -/
def flushDirty (p : Pool) (owner : TransactionId) (page : Page) : Except Error Unit × Pool :=
  match p.logFlush owner page with
  | (.error e, p) => (.error e, p)
  | (.ok (), p) =>
    match p.catalog.writePage page with
    | .error e => (.error e, p)
    | .ok catalog =>
      let p := p.noteWritten page.id catalog
      if p.isActive owner then (.ok (), { p with unsynced := p.unsynced.insert page.id })
      else (.ok (), p.settlePage page.committed true)

/-- Writes a clean page that the store has missed. -/
def flushClean (p : Pool) (page : Page) : Except Error Unit × Pool :=
  if p.unsynced.contains page.id then
    match p.catalog.writePage page with
    | .error e => (.error e, p)
    | .ok catalog => (.ok (), (p.noteWritten page.id catalog).settlePage page true)
  else (.ok (), p)

/-- Writes a cached page to the store if the store does not have its bytes. -/
def flush (p : Pool) (page : PageId) : Except Error Unit × Pool :=
  match p.pages.get? page with
  | none => (.ok (), p)
  | some cached =>
    match cached.dirtiedBy with
    | some owner => p.flushDirty owner cached
    | none => p.flushClean cached

/-- Flushes pages in order, up to the first failure. -/
def flushEach (p : Pool) : List PageId → Except Error Unit × Pool
  | [] => (.ok (), p)
  | page :: pages =>
    match p.flush page with
    | (.error e, p) => (.error e, p)
    | (.ok (), p) => flushEach p pages

def flushAll (p : Pool) : Except Error Unit × Pool := p.flushEach p.pages.keys

/-- Flushes the pages that one transaction has changed. -/
def flushOf (p : Pool) (t : TransactionId) : Except Error Unit × Pool := p.flushEach (p.dirtyPages t)

end PagePool.Pool
