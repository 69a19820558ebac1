import PagePool.Heap.Table

namespace PagePool

/-- How to open one table: under an id of its own, or under the next free one. -/
structure TableSpec where
  file : String
  tupleSize : Nat
  id? : Option TableId
  deriving DecidableEq, Repr

/-- The open tables by id, over the files that hold them. -/
structure Catalog where
  tables : OrdMap TableId HeapTable
  nextId : UInt32
  pageSize : Nat
  files : Files

namespace Catalog

def empty (pageSize : Nat) (files : Files) : Catalog := ⟨.empty, 1, pageSize, files⟩

def takeId (c : Catalog) : TableId × Catalog :=
  (⟨c.nextId⟩, { c with nextId := c.nextId + 1 })

/-- Registers a table; ids handed out later stay clear of its id. -/
def add (c : Catalog) (t : HeapTable) : Catalog :=
  { c with
    tables := c.tables.insert t.id t
    nextId := max c.nextId (t.id.number + 1) }

/-- Creates a table file and registers it. A failure still uses up the id. -/
def createTable (c : Catalog) (name : String) (tupleSize : Nat) :
    Except Error TableId × Catalog :=
  let (id, c) := c.takeId
  match HeapTable.create c.files id name c.pageSize tupleSize with
  | .error e => (.error e, c)
  | .ok (t, files) => (.ok id, { c with files }.add t)

/-- Opens a table file and registers it. A failure still uses up the id. -/
def openTable (c : Catalog) (name : String) (tupleSize : Nat) : Except Error TableId × Catalog :=
  let (id, c) := c.takeId
  match HeapTable.openExisting c.files id name c.pageSize tupleSize with
  | .error e => (.error e, c)
  | .ok t => (.ok id, c.add t)

/-- Opens a table file under an id that the caller chose. -/
def openTableAs (c : Catalog) (id : TableId) (name : String) (tupleSize : Nat) :
    Except Error Catalog :=
  (HeapTable.openExisting c.files id name c.pageSize tupleSize).map c.add

def openSpec (c : Catalog) (s : TableSpec) : Except Error TableId × Catalog :=
  match s.id? with
  | none => c.openTable s.file s.tupleSize
  | some id =>
    match c.openTableAs id s.file s.tupleSize with
    | .error e => (.error e, c)
    | .ok c => (.ok id, c)

/-- Opens tables in order, up to the first failure, and lists their ids. -/
def openAll (c : Catalog) : List TableSpec → Except Error (List TableId × Catalog)
  | [] => .ok ([], c)
  | s :: specs =>
    match c.openSpec s with
    | (.error e, _) => .error e
    | (.ok id, c) => (openAll c specs).map fun (ids, c) => (id :: ids, c)

def table (c : Catalog) (id : TableId) : Except Error HeapTable :=
  match c.tables.get? id with
  | none => .error (.tableNotFound id)
  | some t => .ok t

def tableIds (c : Catalog) : List TableId := c.tables.keys

def numPages (c : Catalog) (id : TableId) : Except Error UInt32 :=
  (c.table id).map HeapTable.numPages

def readPage (c : Catalog) (page : PageId) : Except Error Page :=
  match c.table page.table with
  | .error e => .error e
  | .ok t => t.readPage c.files page

def writePage (c : Catalog) (page : Page) : Except Error Catalog :=
  match c.table page.id.table with
  | .error e => .error e
  | .ok t => (t.writePage c.files page).map fun files => { c with files }

/-- Adds one zero page to a table; the number of pages grows with it. -/
def growTable (c : Catalog) (t : HeapTable) : Except Error UInt32 × Catalog :=
  match t.grow c.files with
  | (.error e, files) => (.error e, { c with files })
  | (.ok (pageNo, t), files) => (.ok pageNo, { c with tables := c.tables.insert t.id t, files })

/-- The page with this number if the table has it, else a new one. -/
def pageOrGrow (c : Catalog) (t : HeapTable) (pageNo : UInt32) : Except Error UInt32 × Catalog :=
  if pageNo < t.numPages then (.ok pageNo, c) else c.growTable t

/-- Has the device refuse these pages of a table from now on. -/
def setFaults (c : Catalog) (id : TableId) (faults : DeviceFaults) : Except Error Catalog :=
  (c.table id).map fun t => { c with tables := c.tables.insert id { t with faults } }

/-- Every page of every open table, in order. -/
def pageIds (c : Catalog) : List PageId := c.tables.values.flatMap HeapTable.pageIds

end Catalog

end PagePool
