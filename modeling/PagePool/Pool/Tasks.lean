import PagePool.Pool.Call
import PagePool.Pool.State

namespace PagePool

namespace Pool

/-- Installs the pages that a call changed, or hands them to a caller that asked for them. -/
def deliver (p : Pool) (t : TransactionId) (install : Bool) (pages : List Page) :
    Progress × Pool :=
  if install then
    let (r, p) := p.installAll t pages
    (.ended (r.map fun _ => .done), p)
  else (.ended (.ok (.pages pages)), p)

/-- Looks for room from page `pageNo` on; past the last page the table grows by one. -/
def seekRoom (p : Pool) (t : TransactionId) (table : TableId) (pageNo : UInt32) (tuple : Bytes)
    (install : Bool) : Progress × Pool :=
  match p.catalog.table table with
  | .error e => (.failed e, p)
  | .ok heap =>
    match p.catalog.pageOrGrow heap pageNo with
    | (.error e, catalog) => (.failed e, { p with catalog })
    | (.ok pageNo, catalog) =>
      let page : PageId := ⟨table, pageNo⟩
      let heldBefore := p.locks.holds t page
      (.needs ⟨⟨t, page, .exclusive⟩, .insert tuple heldBefore install⟩, { p with catalog })

def startFetch (p : Pool) (t : TransactionId) (page : PageId) (access : Access) :
    Progress × Pool :=
  (.needs ⟨⟨t, page, access.lockMode⟩, .fetch⟩, p)

def startInsert (p : Pool) (t : TransactionId) (table : TableId) (tuple : Bytes)
    (install : Bool) : Progress × Pool :=
  match p.catalog.table table with
  | .error e => (.failed e, p)
  | .ok heap =>
    if tuple.length = heap.layout.tupleSize then p.seekRoom t table 0 tuple install
    else (.failed (.tupleSizeMismatch heap.layout.tupleSize tuple.length), p)

/-- Deletes a tuple from `table`. A tuple that was never stored has no record id. -/
def startDeleteFrom (p : Pool) (t : TransactionId) (table : TableId) (record? : Option RecordId)
    (install : Bool) : Progress × Pool :=
  match p.catalog.table table with
  | .error e => (.failed e, p)
  | .ok heap =>
    match record? with
    | none => (.failed .missingRecordId, p)
    | some record =>
      if record.page.table = heap.id ∧ record.page.pageNo < heap.numPages then
        (.needs ⟨⟨t, record.page, .exclusive⟩, .delete record.slot install⟩, p)
      else (.failed (.pageNotFound record.page), p)

/-- Deletes a tuple from the table that its record id names. -/
def startDelete (p : Pool) (t : TransactionId) (record? : Option RecordId) : Progress × Pool :=
  match record? with
  | none => (.failed .missingRecordId, p)
  | some record => p.startDeleteFrom t record.page.table record? true

/-- Goes on to the next page of a scan, if there is one. -/
def scanNext (p : Pool) (t : TransactionId) (pages : List PageId) (found : List StoredTuple) :
    Progress × Pool :=
  match pages with
  | [] => (.ended (.ok (.tuples found)), p)
  | page :: rest => (.needs ⟨⟨t, page, .shared⟩, .scan rest found⟩, p)

/-- Scans the pages that the table has at the start. -/
def startScan (p : Pool) (t : TransactionId) (table : TableId) : Progress × Pool :=
  match p.catalog.table table with
  | .error e => (.failed e, p)
  | .ok heap => p.scanNext t heap.pageIds []

/-- Changes a byte in the copy of its page, if the page is long enough. -/
def applyWrite (edited : List Page) (page : PageId) (w : ByteWrite) : Option (List Page) :=
  edited.mapM fun copy => if copy.id = page then copy.setByte? w.offset w.value else some copy

/-- Goes through the writes up to the first page that has no copy yet; at the end the copies are
installed. -/
def editNext (p : Pool) (t : TransactionId) (table : TableId) (source : PageSource)
    (edited : List Page) : List ByteWrite → Progress × Pool
  | [] => p.deliver t true edited
  | w :: writes =>
    let page : PageId := ⟨table, w.pageNo⟩
    if edited.any fun copy => copy.id == page then
      match applyWrite edited page w with
      | none => (.failed .misuse, p)
      | some edited => editNext p t table source edited writes
    else (.needs ⟨⟨t, page, .exclusive⟩, .edit source edited (w :: writes)⟩, p)

/-- Changes single bytes of a table's pages. -/
def startEdit (p : Pool) (t : TransactionId) (table : TableId) (source : PageSource)
    (writes : List ByteWrite) : Progress × Pool :=
  match p.catalog.table table with
  | .error e => (.failed e, p)
  | .ok _ => p.editNext t table source [] writes

/-- The page that a call has just locked. -/
def obtain (p : Pool) (r : LockRequest) : PageSource → Except Error Page × Pool
  | .cache => p.read r.tid r.page
  | .store => (p.catalog.readPage r.page, p)

/-- Goes on with a task on the page it has obtained. -/
def continueOn (p : Pool) (r : LockRequest) (heap : HeapTable) (page : Page) :
    Task → Progress × Pool
  | .fetch => (.ended (.ok (.page page)), p)
  | .insert tuple heldBefore install =>
    match heap.place? page tuple with
    | some page => p.deliver r.tid install [page]
    | none =>
      let p := if heldBefore then p else p.releaseLock r.tid r.page
      p.seekRoom r.tid r.page.table (r.page.pageNo + 1) tuple install
  | .delete slot install =>
    match heap.remove? page slot with
    | some page => p.deliver r.tid install [page]
    | none => (.failed (.tupleNotFound ⟨r.page, slot⟩), p)
  | .scan rest found => p.scanNext r.tid rest (found ++ heap.tuplesOn page)
  | .edit source edited writes =>
    p.editNext r.tid r.page.table source (edited ++ [page]) writes

/-- Goes on with a call whose lock has been granted, in one step up to its next lock request. -/
def resume (p : Pool) (c : Call) : Progress × Pool :=
  match p.obtain c.request c.task.source with
  | (.error e, p) => (.failed e, p)
  | (.ok page, p) =>
    match p.catalog.table c.request.page.table with
    | .error e => (.failed e, p)
    | .ok heap => p.continueOn c.request heap page c.task

end Pool

end PagePool
