import PagePool.Lock.Mode
import PagePool.Lock.WaitsFor

namespace PagePool

structure LockRequest where
  tid : TransactionId
  page : PageId
  mode : LockMode
  deriving DecidableEq, Repr

/-- How one pass of a blocking request ends. -/
inductive LockAttempt where
  | granted
  | deadlock
  | waits
  deriving DecidableEq, Repr

/-- Page locks by page and by transaction, with the requests that wait and what they wait on. -/
structure LockTable where
  readers : OrdMap PageId (OrdSet TransactionId)
  writer : OrdMap PageId TransactionId
  owned : OrdMap TransactionId (OrdSet PageId)
  waiting : OrdMap TransactionId (PageId × LockMode)
  waitsFor : WaitsFor
  waits : UInt64
  deadlocks : UInt64

namespace LockTable

def empty : LockTable := ⟨.empty, .empty, .empty, .empty, .empty, 0, 0⟩

def readersOf (l : LockTable) (page : PageId) : OrdSet TransactionId :=
  (l.readers.get? page).getD .empty

def ownedBy (l : LockTable) (t : TransactionId) : OrdSet PageId := (l.owned.get? t).getD .empty

/-- Every lock on a page: its writer, then its readers. -/
def holders (l : LockTable) (page : PageId) : List (TransactionId × LockMode) :=
  (l.writer.get? page).toList.map (·, .exclusive) ++ (l.readersOf page).toList.map (·, .shared)

/-- The other transactions whose locks keep a request from being granted. -/
def conflicting (l : LockTable) (r : LockRequest) : OrdSet TransactionId :=
  .ofList (((l.holders r.page).filter fun h => h.1 != r.tid && !r.mode.isCompatible h.2).map (·.1))

def isWriter (l : LockTable) (t : TransactionId) (page : PageId) : Bool :=
  l.writer.get? page == some t

def isGrantable (l : LockTable) (r : LockRequest) : Bool :=
  l.isWriter r.tid r.page || (l.conflicting r).isEmpty

/-- Records a grantable lock. An exclusive lock covers both modes; an upgrade takes the place of
the shared lock. -/
def grant (l : LockTable) (r : LockRequest) : LockTable :=
  if l.isWriter r.tid r.page then l
  else
    let owned := l.owned.insert r.tid ((l.ownedBy r.tid).insert r.page)
    match r.mode with
    | .shared =>
      { l with readers := l.readers.insert r.page ((l.readersOf r.page).insert r.tid), owned }
    | .exclusive =>
      { l with readers := l.readers.erase r.page, writer := l.writer.insert r.page r.tid, owned }

def stopWaiting (l : LockTable) (t : TransactionId) : LockTable :=
  { l with waiting := l.waiting.erase t, waitsFor := l.waitsFor.clear t }

/-- Records a blocked request and its current holders. Only the first pass counts as a wait. -/
def wait (l : LockTable) (r : LockRequest) : LockTable :=
  { l with
    waiting := l.waiting.insert r.tid (r.page, r.mode)
    waitsFor := l.waitsFor.setWaits r.tid (l.conflicting r)
    waits := if l.waiting.contains r.tid then l.waits else l.waits + 1 }

/-- One attempt that never waits. -/
def tryAcquire (l : LockTable) (r : LockRequest) : Bool × LockTable :=
  if l.isGrantable r then (true, l.grant r) else (false, l)

/-- One pass of a blocking request: grant, refuse a wait that would close a cycle, or wait. -/
def acquire (l : LockTable) (r : LockRequest) : LockAttempt × LockTable :=
  if l.isGrantable r then (.granted, (l.grant r).stopWaiting r.tid)
  else if l.waitsFor.wouldDeadlock r.tid (l.conflicting r) then
    (.deadlock, { l.stopWaiting r.tid with deadlocks := l.deadlocks + 1 })
  else (.waits, l.wait r)

/-- Keeps of a waiter's edges those to transactions that still block it. Holders that are new wait
for the waiter's next pass, which checks for a cycle. -/
def refreshWaiter (l : LockTable) (t : TransactionId) (page : PageId) (mode : LockMode) :
    LockTable :=
  let previous := (l.waitsFor.waitsOn? t).getD .empty
  { l with waitsFor := l.waitsFor.setWaits t ((l.conflicting ⟨t, page, mode⟩).inter previous) }

def refreshWaiters (l : LockTable) (page : PageId) : LockTable :=
  (l.waiting.entries.filter fun w => w.2.1 == page).foldl
    (fun l w => l.refreshWaiter w.1 w.2.1 w.2.2) l

def holds (l : LockTable) (t : TransactionId) (page : PageId) : Bool :=
  (l.ownedBy t).contains page

def modeOf (l : LockTable) (t : TransactionId) (page : PageId) : Option LockMode :=
  if l.isWriter t page then some .exclusive
  else if (l.readersOf page).contains t then some .shared
  else none

/-- The pages a transaction has locked, in order. -/
def pagesLocked (l : LockTable) (t : TransactionId) : List PageId := (l.ownedBy t).toList

def updateReaders (l : LockTable) (page : PageId) (readers : OrdSet TransactionId) :
    OrdMap PageId (OrdSet TransactionId) :=
  if readers.isEmpty then l.readers.erase page else l.readers.insert page readers

def updateOwned (l : LockTable) (t : TransactionId) (pages : OrdSet PageId) :
    OrdMap TransactionId (OrdSet PageId) :=
  if pages.isEmpty then l.owned.erase t else l.owned.insert t pages

/-- Takes a lock out of the three indexes; an index never keeps an empty set. -/
def drop (l : LockTable) (t : TransactionId) (page : PageId) : LockTable :=
  { l with
    readers := l.updateReaders page ((l.readersOf page).erase t)
    writer := if l.isWriter t page then l.writer.erase page else l.writer
    owned := l.updateOwned t ((l.ownedBy t).erase page) }

def release (l : LockTable) (t : TransactionId) (page : PageId) : LockTable :=
  if (l.modeOf t page).isSome then (l.drop t page).refreshWaiters page else l.drop t page

/-- Drops every lock of a transaction, and its wait if it has one. -/
def releaseAll (l : LockTable) (t : TransactionId) : LockTable :=
  let pages := l.pagesLocked t
  let l := pages.foldl (fun l page => l.drop t page) l
  let l := { l with waiting := l.waiting.erase t, waitsFor := l.waitsFor.remove t }
  pages.foldl refreshWaiters l

end LockTable

end PagePool
