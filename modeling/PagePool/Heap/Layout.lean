import PagePool.Error
import PagePool.Heap.Bitmap

namespace PagePool

/-- Fixed-width tuples on a page: a bitmap of used slots, then the slots. -/
structure Layout where
  tupleSize : Nat
  slots : Nat
  deriving DecidableEq, Repr

namespace Layout

/-- Each slot takes one bitmap bit besides its bytes; a slot number has sixteen bits. -/
def forPage (pageSize tupleSize : Nat) : Except Error Layout :=
  let slots := pageSize * 8 / (tupleSize * 8 + 1)
  if tupleSize = 0 ∨ slots = 0 ∨ slots > 65535 then .error (.invalidTupleSize tupleSize pageSize)
  else .ok ⟨tupleSize, slots⟩

def bitmapSize (l : Layout) : Nat := (l.slots + 7) / 8

def offset (l : Layout) (slot : Nat) : Nat := l.bitmapSize + slot * l.tupleSize

def isUsed (l : Layout) (data : Bytes) (slot : Nat) : Bool :=
  decide (slot < l.slots) && Bitmap.get data slot

def freeSlot (l : Layout) (data : Bytes) : Option Nat :=
  (List.range l.slots).find? fun slot => !l.isUsed data slot

def usedSlots (l : Layout) (data : Bytes) : List Nat :=
  (List.range l.slots).filter fun slot => l.isUsed data slot

def freeSlotCount (l : Layout) (data : Bytes) : Nat :=
  (List.range l.slots).countP fun slot => !l.isUsed data slot

def read (l : Layout) (data : Bytes) (slot : Nat) : Bytes :=
  (data.drop (l.offset slot)).take l.tupleSize

def write (l : Layout) (data : Bytes) (slot : Nat) (tuple : Bytes) : Bytes :=
  Bitmap.set (Bytes.overwrite data (l.offset slot) tuple) slot true

def clear (l : Layout) (data : Bytes) (slot : Nat) : Bytes :=
  Bitmap.set (Bytes.overwrite data (l.offset slot) (Bytes.zeros l.tupleSize)) slot false

/-- The slot's bytes lie in the buffer. Its bitmap byte stands before them. -/
def covers (l : Layout) (data : Bytes) (slot : Nat) : Bool :=
  decide (l.offset slot + l.tupleSize ≤ data.length)

/-- The buffer holds the bitmap bit of the slot. -/
def hasBit (data : Bytes) (slot : Nat) : Bool := decide (slot / 8 < data.length)

/-! On buffers of any length: none when the operation would leave the buffer. -/

def isUsed? (l : Layout) (data : Bytes) (slot : Nat) : Option Bool :=
  if slot < l.slots ∧ hasBit data slot = false then none else some (l.isUsed data slot)

def freeSlot? (l : Layout) (data : Bytes) : Option (Option Nat) :=
  match l.freeSlot data with
  | some slot => if hasBit data slot then some (some slot) else none
  | none => some none

def usedSlots? (l : Layout) (data : Bytes) : Option (List Nat) :=
  if l.bitmapSize ≤ data.length then some (l.usedSlots data) else none

def freeSlotCount? (l : Layout) (data : Bytes) : Option Nat :=
  if l.bitmapSize ≤ data.length then some (l.freeSlotCount data) else none

def read? (l : Layout) (data : Bytes) (slot : Nat) : Option Bytes :=
  if l.covers data slot then some (l.read data slot) else none

def write? (l : Layout) (data : Bytes) (slot : Nat) (tuple : Bytes) : Option Bytes :=
  if l.covers data slot ∧ tuple.length = l.tupleSize then some (l.write data slot tuple) else none

def clear? (l : Layout) (data : Bytes) (slot : Nat) : Option Bytes :=
  if l.covers data slot then some (l.clear data slot) else none

/-- Writes a tuple into the first free slot, and says which. -/
def fill? (l : Layout) (data : Bytes) (tuple : Bytes) : Option (Option Nat × Bytes) :=
  match l.freeSlot? data with
  | none => none
  | some none => some (none, data)
  | some (some slot) => (l.write? data slot tuple).map fun data => (some slot, data)

end Layout

end PagePool
