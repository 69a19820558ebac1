import PagePool.Heap.Layout
import PagePool.Page
import PagePool.Store.PageFile

namespace PagePool

/-- The pages of a table whose reads and writes the device refuses, and whether it refuses to add
a page. -/
structure DeviceFaults where
  reads : List UInt32
  writes : List UInt32
  growth : Bool
  deriving DecidableEq, Repr

def DeviceFaults.none : DeviceFaults := ⟨[], [], false⟩

/-- A tuple with the place it is stored in. -/
abbrev StoredTuple := RecordId × Bytes

/-- An unordered table of fixed-width tuples in one page file. -/
structure HeapTable where
  id : TableId
  layout : Layout
  file : PageFile
  faults : DeviceFaults
  deriving DecidableEq, Repr

namespace HeapTable

def create (fs : Files) (id : TableId) (name : String) (pageSize tupleSize : Nat) :
    Except Error (HeapTable × Files) :=
  match Layout.forPage pageSize tupleSize with
  | .error e => .error e
  | .ok layout =>
    (PageFile.create fs name pageSize).map fun (file, fs) => (⟨id, layout, file, .none⟩, fs)

def openExisting (fs : Files) (id : TableId) (name : String) (pageSize tupleSize : Nat) :
    Except Error HeapTable :=
  match Layout.forPage pageSize tupleSize with
  | .error e => .error e
  | .ok layout =>
    (PageFile.openExisting fs name pageSize).map fun file => ⟨id, layout, file, .none⟩

def numPages (t : HeapTable) : UInt32 := t.file.pageCount

/-- Every page of the table, in order. -/
def pageIds (t : HeapTable) : List PageId :=
  (List.range t.numPages.toNat).map fun n => ⟨t.id, UInt32.ofNat n⟩

def checkPage (t : HeapTable) (page : PageId) : Except Error Unit :=
  if page.table = t.id then .ok () else .error (.pageNotFound page)

def readPage (fs : Files) (t : HeapTable) (page : PageId) : Except Error Page :=
  if t.faults.reads.contains page.pageNo then .error (.io (.refusedRead page.pageNo))
  else
    match t.checkPage page with
    | .error e => .error e
    | .ok () => (t.file.read fs page.pageNo).map (Page.ofStored page)

def writePage (fs : Files) (t : HeapTable) (page : Page) : Except Error Files :=
  if t.faults.writes.contains page.id.pageNo then .error (.io (.refusedWrite page.id.pageNo))
  else
    match t.checkPage page.id with
    | .error e => .error e
    | .ok () => t.file.write fs page.id.pageNo page.data

/-- Adds one zero page. -/
def grow (fs : Files) (t : HeapTable) : Except Error (UInt32 × HeapTable) × Files :=
  if t.faults.growth then (.error (.io .refusedGrowth), fs)
  else
    match t.file.allocate fs with
    | (.error e, fs) => (.error e, fs)
    | (.ok (pageNo, file), fs) => (.ok (pageNo, { t with file }), fs)

/-- The page with the tuple in its first free slot, if it has one. -/
def place? (t : HeapTable) (page : Page) (tuple : Bytes) : Option Page :=
  (t.layout.freeSlot page.data).map fun slot =>
    { page with data := t.layout.write page.data slot tuple }

/-- The page without the tuple in a slot, if the slot is used. -/
def remove? (t : HeapTable) (page : Page) (slot : UInt16) : Option Page :=
  if t.layout.isUsed page.data slot.toNat then
    some { page with data := t.layout.clear page.data slot.toNat }
  else none

/-- The tuples on a page, in slot order. -/
def tuplesOn (t : HeapTable) (page : Page) : List StoredTuple :=
  (t.layout.usedSlots page.data).map fun slot =>
    (⟨page.id, UInt16.ofNat slot⟩, t.layout.read page.data slot)

end HeapTable

end PagePool
