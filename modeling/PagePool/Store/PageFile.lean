import PagePool.Error
import PagePool.Store.Files

namespace PagePool

/-- An open file of fixed-size pages. The page count is read when the file is opened. -/
structure PageFile where
  name : String
  pageSize : Nat
  pageCount : UInt32
  deriving DecidableEq, Repr

namespace PageFile

def create (fs : Files) (name : String) (pageSize : Nat) : Except Error (PageFile × Files) :=
  match fs.get? name with
  | some _ => .error (.io .alreadyExists)
  | none => .ok (⟨name, pageSize, 0⟩, fs.put name [])

/-- Opens a file; a part of a page at its end does not count. -/
def openExisting (fs : Files) (name : String) (pageSize : Nat) : Except Error PageFile :=
  match fs.get? name with
  | none => .error (.io .notFound)
  | some bytes =>
    if pageSize = 0 then .error .misuse
    else .ok ⟨name, pageSize, UInt32.ofNat (bytes.length / pageSize)⟩

def openOrCreate (fs : Files) (name : String) (pageSize : Nat) : Except Error (PageFile × Files) :=
  match fs.get? name with
  | none => create fs name pageSize
  | some _ => (openExisting fs name pageSize).map fun f => (f, fs)

def offset (f : PageFile) (pageNo : UInt32) : Nat := pageNo.toNat * f.pageSize

def size (f : PageFile) : Nat := f.offset f.pageCount

def checkRange (f : PageFile) (pageNo : UInt32) : Except Error Unit :=
  if pageNo < f.pageCount then .ok () else .error (.pageOutOfRange pageNo f.pageCount)

/-- The bytes of a page. The file may have become shorter than its page count says. -/
def read (fs : Files) (f : PageFile) (pageNo : UInt32) : Except Error Bytes :=
  match f.checkRange pageNo with
  | .error e => .error e
  | .ok () =>
    let data := ((fs.bytes f.name).drop (f.offset pageNo)).take f.pageSize
    if data.length = f.pageSize then .ok data else .error (.io .unexpectedEof)

def write (fs : Files) (f : PageFile) (pageNo : UInt32) (data : Bytes) : Except Error Files :=
  match f.checkRange pageNo with
  | .error e => .error e
  | .ok () =>
    if data.length = f.pageSize then
      .ok (fs.put f.name (Bytes.overwrite (fs.bytes f.name) (f.offset pageNo) data))
    else .error (.pageSizeMismatch f.pageSize data.length)

/-- The files once a zero page stands after the counted pages, over whatever partial page the file
ends with. -/
def appendZeros (fs : Files) (f : PageFile) : Files :=
  fs.put f.name
    (Bytes.overwrite (fs.bytes f.name) (f.offset f.pageCount) (Bytes.zeros f.pageSize))

/-- Adds a zero page. A page count has 32 bits; the page that would take it past them is written
but not counted. -/
def allocate (fs : Files) (f : PageFile) : Except Error (UInt32 × PageFile) × Files :=
  if f.pageCount.toNat + 1 < UInt32.size then
    (.ok (f.pageCount, { f with pageCount := f.pageCount + 1 }), appendZeros fs f)
  else (.error .misuse, appendZeros fs f)

/-- Adds several zero pages. -/
def extend (fs : Files) (f : PageFile) : Nat → Except Error Files
  | 0 => .ok fs
  | n + 1 =>
    match allocate fs f with
    | (.error e, _) => .error e
    | (.ok (_, f), fs) => extend fs f n

/-- Creates a file of zero pages. -/
def createZeroed (fs : Files) (name : String) (pageSize pages : Nat) : Except Error Files :=
  create fs name pageSize >>= fun (f, fs) => extend fs f pages

end PageFile

end PagePool
