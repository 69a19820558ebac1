import PagePool.Id

namespace PagePool

/-- A tracked page, with the tick of its last access. -/
structure Tracked where
  page : PageId
  lastAccess : Nat
  evictable : Bool
  deriving DecidableEq, Repr

/-- Pages in order of last access, the oldest first. -/
structure Recency where
  clock : Nat
  tracked : List Tracked
  deriving DecidableEq, Repr

namespace Recency

def empty : Recency := ⟨0, []⟩

def pages (r : Recency) : List PageId := r.tracked.map Tracked.page

def isTracked (r : Recency) (page : PageId) : Bool := r.tracked.any fun e => e.page == page

def isEvictable (r : Recency) (page : PageId) : Bool :=
  r.tracked.any fun e => e.page == page && e.evictable

def remove (r : Recency) (page : PageId) : Recency :=
  { r with tracked := r.tracked.filter fun e => e.page != page }

/-- Makes a page the most recent one. A page that was not tracked starts out not evictable. -/
def access (r : Recency) (page : PageId) : Recency :=
  { clock := r.clock + 1
    tracked := (r.remove page).tracked ++ [⟨page, r.clock + 1, r.isEvictable page⟩] }

/-- Says whether a tracked page may be evicted. -/
def setEvictable (r : Recency) (page : PageId) (on : Bool) : Recency :=
  { r with
    tracked := r.tracked.map fun e => if e.page = page then { e with evictable := on } else e }

/-- The evictable page that was accessed longest ago. -/
def victim? (r : Recency) : Option PageId := (r.tracked.find? Tracked.evictable).map Tracked.page

/-- Stops tracking the victim, if there is one. -/
def evict (r : Recency) : Option PageId × Recency :=
  match r.victim? with
  | none => (none, r)
  | some page => (some page, r.remove page)

/-- The number of evictable pages. -/
def size (r : Recency) : Nat := r.tracked.countP Tracked.evictable

end Recency

end PagePool
