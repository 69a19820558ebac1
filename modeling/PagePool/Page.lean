import PagePool.Bytes
import PagePool.Id

namespace PagePool

/-- A page in memory: its bytes, its last committed bytes, and the transaction that changed it. -/
structure Page where
  id : PageId
  data : Bytes
  before : Bytes
  dirtiedBy : Option TransactionId
  deriving DecidableEq, Repr

namespace Page

/-- A page as it is stored. -/
def ofStored (id : PageId) (data : Bytes) : Page := ⟨id, data, data, none⟩

def zeroed (id : PageId) (size : Nat) : Page := ofStored id (Bytes.zeros size)

def size (p : Page) : Nat := p.data.length

def isDirty (p : Page) : Bool := p.dirtiedBy.isSome

/-- The page as it was last committed. -/
def beforeImage (p : Page) : Page := ofStored p.id p.before

/-- The page once its changes are final. -/
def committed (p : Page) : Page := ofStored p.id p.data

def markDirty (p : Page) (t : TransactionId) : Page := { p with dirtiedBy := some t }

/-- Changes one byte of the data, if there is one at the offset. -/
def setByte? (p : Page) (offset : Nat) (value : UInt8) : Option Page :=
  if offset < p.data.length then some { p with data := p.data.set offset value } else none

def fill (p : Page) (value : UInt8) : Page :=
  { p with data := List.replicate p.data.length value }

/-- The page's bookkeeping in one line; the bytes are left out. -/
def description (p : Page) : String :=
  let owner := match p.dirtiedBy with
    | none => "None"
    | some t => "Some(" ++ t.description ++ ")"
  "Page \x7b id: " ++ p.id.description ++ ", size: " ++ toString p.size ++
    ", dirtied_by: " ++ owner ++ " \x7d"

end Page

end PagePool
