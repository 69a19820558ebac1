namespace PagePool

/-- The page size of a catalog that is given none, in bytes. -/
def defaultPageSize : Nat := 4096

structure Settings where
  /-- How many pages the cache holds. -/
  capacity : Nat
  /-- How long a blocked request sleeps between two passes, in milliseconds. -/
  lockWait : Nat
  deriving DecidableEq, Repr

def Settings.default : Settings := ⟨50, 50⟩

end PagePool
