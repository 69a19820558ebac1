import PagePool.Cache.Recency
import PagePool.Cache.Statistics
import PagePool.Lock.Table
import PagePool.Log.Journal
import PagePool.Store.Catalog

namespace PagePool

/-- A bounded cache of pages over a catalog, with page locks and a journal. -/
structure Pool where
  capacity : Nat
  pages : OrdMap PageId Page
  recency : Recency
  /-- Transactions that have begun or fetched, and have not completed. -/
  active : OrdSet TransactionId
  /-- Pages whose stored bytes are not the ones to fall back to: a flush stored uncommitted bytes,
  or a write of committed bytes failed. -/
  unsynced : OrdSet PageId
  locks : LockTable
  catalog : Catalog
  journal : Journal
  stats : Statistics
  nextTid : UInt64

namespace Pool

/-- An empty pool. It must have room for a page. -/
def make (capacity : Nat) (catalog : Catalog) (journal : Journal) : Except Error Pool :=
  if capacity = 0 then .error .misuse
  else .ok
    { capacity, pages := .empty, recency := .empty, active := .empty, unsynced := .empty
      locks := .empty, catalog, journal, stats := .zero, nextTid := 1 }

/-- A new pool over the same files, and a journal that goes on where it was. -/
def reopen (p : Pool) (specs : List TableSpec) (capacity : Nat) :
    Except Error (List TableId × Pool) :=
  match (Catalog.empty p.catalog.pageSize p.catalog.files).openAll specs with
  | .error e => .error e
  | .ok (ids, catalog) => (make capacity catalog p.journal.reopen).map fun p => (ids, p)

def begin (p : Pool) : TransactionId × Pool :=
  let t : TransactionId := ⟨p.nextTid⟩
  (t, { p with nextTid := p.nextTid + 1, active := p.active.insert t })

/-- Drops the least recently used page that may go. -/
def evict (p : Pool) : Except Error Pool :=
  match p.recency.evict with
  | (none, _) => .error (.storageExhausted p.capacity)
  | (some victim, recency) =>
    .ok { p with
      pages := p.pages.erase victim
      recency
      stats.evictions := p.stats.evictions + 1 }

/-- Makes sure that one more page fits. -/
def makeRoom (p : Pool) : Except Error Pool := if p.pages.size < p.capacity then .ok p else p.evict

def hit (p : Pool) (page : PageId) : Pool :=
  { p with recency := p.recency.access page, stats.hits := p.stats.hits + 1 }

/-- Caches a page as it was read from the store. -/
def addClean (p : Pool) (page : Page) : Pool :=
  { p with
    pages := p.pages.insert page.id page
    recency := (p.recency.access page.id).setEvictable page.id true
    stats.pagesRead := p.stats.pagesRead + 1 }

/-- Reads a page that is not cached. The eviction that made room for it stays if this fails. -/
def load (p : Pool) (page : PageId) : Except Error Page × Pool :=
  let p := { p with stats.misses := p.stats.misses + 1 }
  match p.makeRoom with
  | .error e => (.error e, p)
  | .ok p =>
    match p.catalog.readPage page with
    | .error e => (.error e, p)
    | .ok stored => (.ok stored, p.addClean stored)

/-- Hands out a page whose lock the transaction has been granted. -/
def read (p : Pool) (t : TransactionId) (page : PageId) : Except Error Page × Pool :=
  let p := { p with active := p.active.insert t }
  match p.pages.get? page with
  | some cached => (.ok cached, p.hit page)
  | none => p.load page

/-- Makes sure that a page fits; one that is cached already takes its own place. -/
def makeRoomFor (p : Pool) (page : PageId) : Except Error Pool :=
  if p.pages.contains page then .ok p else p.makeRoom

/-- Puts a page into the cache as changed by the transaction. -/
def addDirty (p : Pool) (t : TransactionId) (page : Page) : Pool :=
  { p with
    pages := p.pages.insert page.id (page.markDirty t)
    recency := (p.recency.access page.id).setEvictable page.id false }

/-- Puts a page that the transaction changed into the cache. Only the holder of the page's
exclusive lock may do so. -/
def install (p : Pool) (t : TransactionId) (page : Page) : Except Error Pool :=
  if p.locks.isWriter t page.id then
    (p.makeRoomFor page.id).map fun p => p.addDirty t page
  else .error .misuse

/-- Installs pages in order, up to the first failure. -/
def installAll (p : Pool) (t : TransactionId) : List Page → Except Error Unit × Pool
  | [] => (.ok (), p)
  | page :: pages =>
    match p.install t page with
    | .error e => (.error e, p)
    | .ok p => installAll p t pages

/-- The cached pages that the transaction has changed, in order. -/
def dirtiedBy (p : Pool) (t : TransactionId) : List Page :=
  p.pages.values.filter fun page => page.dirtiedBy == some t

def dirtyPages (p : Pool) (t : TransactionId) : List PageId := (p.dirtiedBy t).map Page.id

def isCached (p : Pool) (page : PageId) : Bool := p.pages.contains page

def isActive (p : Pool) (t : TransactionId) : Bool := p.active.contains t

def tryLock (p : Pool) (r : LockRequest) : Bool × Pool :=
  let (granted, locks) := p.locks.tryAcquire r
  (granted, { p with locks })

/-- Gives up one lock before the transaction completes. -/
def releaseLock (p : Pool) (t : TransactionId) (page : PageId) : Pool :=
  { p with locks := p.locks.release t page }

end Pool

end PagePool
