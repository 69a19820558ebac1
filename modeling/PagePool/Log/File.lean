import PagePool.Log.Encoding
import PagePool.Page

namespace PagePool

/-- Records that an open log file has taken since it was opened. -/
structure LogWriter where
  buffered : Bytes
  appended : Nat
  deriving DecidableEq, Repr

/-- A log file: its bytes if it exists, and its writer while it is open. -/
structure LogFile where
  stored : Option Bytes
  writer : Option LogWriter
  deriving DecidableEq, Repr

namespace LogFile

def absent : LogFile := ⟨none, none⟩

def contents (f : LogFile) : Bytes := f.stored.getD []

/-- Writes the buffered records to the end of the file. -/
def force (f : LogFile) : LogFile :=
  match f.writer with
  | none => f
  | some w =>
    { stored := some (f.contents ++ w.buffered), writer := some { w with buffered := [] } }

def close (f : LogFile) : LogFile := { f.force with writer := none }

/-- Opens the file for appending, and creates it if it is not there. -/
def openForAppend (f : LogFile) : LogFile :=
  let f := f.close
  { f with stored := some f.contents, writer := some ⟨[], 0⟩ }

/-- Buffers a record; a closed log takes none. -/
def append (f : LogFile) (r : LogRecord) : LogFile :=
  match f.writer with
  | none => f
  | some w =>
    let bytes := r.encode
    { f with writer := some ⟨w.buffered ++ bytes, w.appended + bytes.length⟩ }

/-- Records that a page has changed. The record names the page as it is after the change. -/
def logWrite (f : LogFile) (t : TransactionId) (before after : Page) : LogFile :=
  f.append (.update t after.id before.data after.data)

def logCommit (f : LogFile) (t : TransactionId) : LogFile := f.append (.commit t)

def logAbort (f : LogFile) (t : TransactionId) : LogFile := f.append (.abort t)

/-- Bytes appended since the file was opened. -/
def appendedBytes (f : LogFile) : Nat := (f.writer.map LogWriter.appended).getD 0

/-- The records in the file; what is still buffered is not in it. -/
def readRecords (f : LogFile) : Except Error (List LogRecord) :=
  match f.stored with
  | none => .error (.io .notFound)
  | some bytes => LogRecord.decodeAll 0 bytes

end LogFile

end PagePool
