import Mathlib.Data.List.Nodup
import Mathlib.Data.List.Perm.Basic
import PagePool.Proofs.Bytes
import PagePool.Proofs.Heap.Slots

namespace PagePool

namespace Bitmap

variable {bs bs' : Bytes} {i : Nat}

theorem get_congr (h : bs'[i / 8]? = bs[i / 8]?) : get bs' i = get bs i := by
  simp only [get, List.getD_eq_getElem?_getD, h]

theorem get_zeros (n i : Nat) : get (Bytes.zeros n) i = false := by
  have hzero : (Bytes.zeros n).getD (i / 8) 0 = 0 := by
    simp only [Bytes.zeros, List.getD_eq_getElem?_getD, List.getElem?_replicate]
    split <;> rfl
  rw [get, hzero]
  exact Nat.zero_testBit _

end Bitmap

namespace Layout

variable {l : Layout} {size slot j : Nat} {data tuple : Bytes} {q : PageId}

/-- The tuples in the used slots of a page, in slot order. -/
def tuples (l : Layout) (q : PageId) (data : Bytes) : List StoredTuple :=
  (l.usedSlots data).map fun slot => (⟨q, UInt16.ofNat slot⟩, l.read data slot)

/-- A slot number fits into a record id. -/
theorem toNat_ofNat_slot (h : forPage size l.tupleSize = .ok l) (hslot : slot < l.slots) :
    (UInt16.ofNat slot).toNat = slot := by
  obtain ⟨-, -, hle⟩ := bounds_of_forPage h
  rw [UInt16.toNat_ofNat']
  exact Nat.mod_eq_of_lt (by omega)

theorem mem_usedSlots : slot ∈ l.usedSlots data ↔ l.isUsed data slot = true := by
  rw [usedSlots, List.mem_filter, List.mem_range]
  exact ⟨And.right, fun h => ⟨lt_slots_of_isUsed h, h⟩⟩

theorem nodup_usedSlots (l : Layout) (data : Bytes) : (l.usedSlots data).Nodup :=
  List.nodup_range.filter _

theorem mem_tuples {x : StoredTuple} (hx : x ∈ l.tuples q data) :
    ∃ slot, l.isUsed data slot = true ∧ x = (⟨q, UInt16.ofNat slot⟩, l.read data slot) := by
  obtain ⟨slot, hslot, rfl⟩ := List.mem_map.1 hx
  exact ⟨slot, mem_usedSlots.1 hslot, rfl⟩

theorem isUsed_of_freeSlot (h : l.freeSlot data = some slot) : l.isUsed data slot = false := by
  simpa using List.find?_some h

/-- The bitmap ends where the slots begin. -/
theorem div_lt_offset (hj : j < l.slots) (slot : Nat) : j / 8 < l.offset slot := by
  have hbits : j / 8 < l.bitmapSize := by
    rw [bitmapSize]
    omega
  exact Nat.lt_of_lt_of_le hbits (Nat.le_add_right _ _)

theorem offset_add_le_offset (l : Layout) (h : j < slot) :
    l.offset j + l.tupleSize ≤ l.offset slot := by
  have hslots : j * l.tupleSize + l.tupleSize ≤ slot * l.tupleSize := by
    rw [← Nat.succ_mul]
    exact Nat.mul_le_mul_right l.tupleSize h
  simp only [offset]
  omega

theorem offset_disjoint (l : Layout) (h : j ≠ slot) :
    l.offset j + l.tupleSize ≤ l.offset slot ∨ l.offset slot + l.tupleSize ≤ l.offset j :=
  (Nat.lt_or_gt_of_ne h).imp l.offset_add_le_offset l.offset_add_le_offset

theorem isUsed_zeros (l : Layout) (n slot : Nat) : l.isUsed (Bytes.zeros n) slot = false := by
  rw [isUsed, Bitmap.get_zeros, Bool.and_false]

/-- A page of zeros is empty. -/
theorem tuples_zeros (l : Layout) (q : PageId) (n : Nat) : l.tuples q (Bytes.zeros n) = [] := by
  have hnone : l.usedSlots (Bytes.zeros n) = [] := by
    rw [List.eq_nil_iff_forall_not_mem]
    intro slot hslot
    have hused := mem_usedSlots.1 hslot
    rw [isUsed_zeros] at hused
    contradiction
  rw [tuples, hnone]
  rfl

/-- The tuple in a slot, if the slot is used. -/
def tuple? (l : Layout) (data : Bytes) (slot : Nat) : Option Bytes :=
  if l.isUsed data slot then some (l.read data slot) else none

theorem tuple?_eq_some : l.tuple? data slot = some tuple ↔
    l.isUsed data slot = true ∧ l.read data slot = tuple := by
  simp [tuple?]

theorem tuple?_eq_none : l.tuple? data slot = none ↔ l.isUsed data slot = false := by
  simp [tuple?]

theorem freeSlot_eq_none : l.freeSlot data = none ↔ ∀ j < l.slots, l.isUsed data j = true := by
  simp [freeSlot]

/-- The first free slot comes after used ones only. -/
theorem isUsed_of_lt_freeSlot (h : l.freeSlot data = some slot) (hj : j < slot) :
    l.isUsed data j = true := by
  have hbefore := (List.find?_range_eq_some.1 h).2.2 j hj
  simpa using hbefore

/-- Every layout has a slot, and on a page of zeros it is free. -/
theorem freeSlot_zeros (h : forPage size l.tupleSize = .ok l) (n : Nat) :
    l.freeSlot (Bytes.zeros n) = some 0 := by
  obtain ⟨-, hpos, -⟩ := bounds_of_forPage h
  refine List.find?_range_eq_some.2 ⟨?_, List.mem_range.2 hpos, fun _ hj => absurd hj (Nat.not_lt_zero _)⟩
  rw [isUsed_zeros]
  rfl

section Overwrite

variable (h : forPage data.length l.tupleSize = .ok l) (hslot : slot < l.slots)
  (htuple : tuple.length = l.tupleSize)

include h hslot htuple

/-- Of the bitmap, what is put into a slot changes the bit of this slot. -/
theorem get_set_overwrite (on : Bool) (hj : j / 8 < l.bitmapSize) :
    Bitmap.get (Bitmap.set (Bytes.overwrite data (l.offset slot) tuple) slot on) j =
      if j = slot then on else Bitmap.get data j := by
  have hend := offset_add_le h hslot
  have hstart : l.bitmapSize ≤ l.offset slot := Nat.le_add_right _ _
  have hbit := div_lt_offset hslot slot
  have hlength : (Bytes.overwrite data (l.offset slot) tuple).length = data.length := by
    rw [Bytes.length_overwrite]
    rw [htuple]
    exact hend
  have hsame : Bitmap.get (Bytes.overwrite data (l.offset slot) tuple) j = Bitmap.get data j := by
    apply Bitmap.get_congr
    rw [Bytes.getElem?_overwrite (by omega), if_neg (by omega)]
  rw [Bitmap.get_set (by omega), hsame]

/-- What is put into a slot says for this slot alone whether it is used. -/
theorem isUsed_set_overwrite (on : Bool) (j : Nat) :
    l.isUsed (Bitmap.set (Bytes.overwrite data (l.offset slot) tuple) slot on) j =
      if j = slot then on else l.isUsed data j := by
  by_cases hj : j < l.slots
  · have hbit : j / 8 < l.bitmapSize := by
      rw [bitmapSize]
      omega
    simp only [isUsed, get_set_overwrite h hslot htuple on hbit, hj, decide_true, Bool.true_and]
  · have hne : j ≠ slot := by omega
    simp [isUsed, hj, hne]

theorem read_set_overwrite_self (on : Bool) :
    l.read (Bitmap.set (Bytes.overwrite data (l.offset slot) tuple) slot on) slot = tuple := by
  have hstart : l.offset slot ≤ data.length := by
    have hend := offset_add_le h hslot
    omega
  have hself := Bytes.slice_overwrite_self tuple hstart
  rw [Bytes.slice, htuple] at hself
  rw [read, Bitmap.set, List.drop_set_of_lt (div_lt_offset hslot slot)]
  exact hself

theorem read_set_overwrite_of_ne (on : Bool) (hne : j ≠ slot) :
    l.read (Bitmap.set (Bytes.overwrite data (l.offset slot) tuple) slot on) j =
      l.read data j := by
  have hstart : l.offset slot ≤ data.length := by
    have hend := offset_add_le h hslot
    omega
  have hdisjoint := l.offset_disjoint hne
  rw [← htuple] at hdisjoint
  have hother := Bytes.slice_overwrite_of_disjoint hstart hdisjoint
  rw [Bytes.slice, Bytes.slice, htuple] at hother
  rw [read, Bitmap.set, List.drop_set_of_lt (div_lt_offset hslot j)]
  exact hother

theorem tuple?_set_overwrite (on : Bool) (j : Nat) :
    l.tuple? (Bitmap.set (Bytes.overwrite data (l.offset slot) tuple) slot on) j =
      if j = slot then (if on then some tuple else none) else l.tuple? data j := by
  rw [tuple?, isUsed_set_overwrite h hslot htuple]
  by_cases hj : j = slot
  · rw [if_pos hj, if_pos hj, hj, read_set_overwrite_self h hslot htuple]
  · rw [if_neg hj, if_neg hj, read_set_overwrite_of_ne h hslot htuple on hj]
    rfl

/-- A write uses its slot and no other. -/
theorem isUsed_write (j : Nat) :
    l.isUsed (l.write data slot tuple) j = (decide (j = slot) || l.isUsed data j) := by
  rw [write, isUsed_set_overwrite h hslot htuple]
  by_cases he : j = slot <;> simp [he]

theorem read_write_self : l.read (l.write data slot tuple) slot = tuple :=
  read_set_overwrite_self h hslot htuple true

theorem read_write_of_ne (hne : j ≠ slot) :
    l.read (l.write data slot tuple) j = l.read data j :=
  read_set_overwrite_of_ne h hslot htuple true hne

theorem tuple?_write (j : Nat) : l.tuple? (l.write data slot tuple) j =
    if j = slot then some tuple else l.tuple? data j :=
  tuple?_set_overwrite h hslot htuple true j

/-- A write into a free slot adds its tuple and keeps the others where they are. -/
theorem tuples_write (hfree : l.isUsed data slot = false) (q : PageId) :
    (l.tuples q (l.write data slot tuple)).Perm
      ((⟨q, UInt16.ofNat slot⟩, tuple) :: l.tuples q data) := by
  have hslots : (l.usedSlots (l.write data slot tuple)).Perm (slot :: l.usedSlots data) := by
    have hnew : slot ∉ l.usedSlots data := by
      rw [mem_usedSlots, hfree]
      nofun
    refine (List.perm_ext_iff_of_nodup (nodup_usedSlots _ _)
      (List.nodup_cons.2 ⟨hnew, nodup_usedSlots _ _⟩)).2 fun j => ?_
    rw [List.mem_cons, mem_usedSlots, mem_usedSlots, isUsed_write h hslot htuple,
      Bool.or_eq_true, decide_eq_true_eq]
  have hothers : (l.usedSlots data).map (fun j => ((⟨q, UInt16.ofNat j⟩ : RecordId),
      l.read (l.write data slot tuple) j)) = l.tuples q data := by
    refine List.map_congr_left fun j hj => ?_
    have hne : j ≠ slot := by
      rintro rfl
      rw [mem_usedSlots, hfree] at hj
      contradiction
    rw [read_write_of_ne h hslot htuple hne]
  have hmapped := hslots.map fun j => ((⟨q, UInt16.ofNat j⟩ : RecordId),
    l.read (l.write data slot tuple) j)
  rwa [List.map_cons, read_write_self h hslot htuple, hothers] at hmapped

end Overwrite

theorem tuple?_clear (h : forPage data.length l.tupleSize = .ok l) (hslot : slot < l.slots) (j : Nat) :
    l.tuple? (l.clear data slot) j = if j = slot then none else l.tuple? data j :=
  tuple?_set_overwrite h hslot (Bytes.length_zeros _) false j

/-- No two tuples of a page have the same record id. -/
theorem nodup_tuples (h : forPage size l.tupleSize = .ok l) (q : PageId) (data : Bytes) :
    ((l.tuples q data).map Prod.fst).Nodup := by
  rw [tuples, List.map_map]
  refine List.Nodup.map_on ?_ (nodup_usedSlots l data)
  intro i hi j hj hij
  have hslots : UInt16.ofNat i = UInt16.ofNat j := congrArg RecordId.slot hij
  rw [← toNat_ofNat_slot h (lt_slots_of_isUsed (mem_usedSlots.1 hi)), hslots,
    toNat_ofNat_slot h (lt_slots_of_isUsed (mem_usedSlots.1 hj))]

end Layout

end PagePool
