import PagePool.Heap.Table

namespace PagePool

namespace Layout

variable {l : Layout} {size width slot : Nat} {data tuple : Bytes}

theorem forPage_eq_ok (h : forPage size width = .ok l) : l.tupleSize = width ∧ size ≠ 0 := by
  simp only [forPage] at h
  split at h
  · contradiction
  · rename_i hfits
    rw [← Except.ok.inj h]
    refine ⟨rfl, ?_⟩
    rintro rfl
    exact hfits (.inr (.inl (by rw [Nat.zero_mul, Nat.zero_div])))

theorem slots_eq_of_forPage (h : forPage size l.tupleSize = .ok l) :
    l.slots = size * 8 / (l.tupleSize * 8 + 1) := by
  simp only [forPage] at h
  split at h
  · contradiction
  · exact (congrArg slots (Except.ok.inj h)).symm

/-- Tuples have some width, and there is a slot for one but no more slots than numbers for them. -/
theorem bounds_of_forPage (h : forPage size l.tupleSize = .ok l) :
    0 < l.tupleSize ∧ 0 < l.slots ∧ l.slots ≤ 65535 := by
  have hslots := slots_eq_of_forPage h
  simp only [forPage] at h
  split at h
  · contradiction
  · omega

/-- The bitmap and every slot lie within the pages that the layout is for. -/
theorem offset_add_le (h : forPage size l.tupleSize = .ok l) (hslot : slot < l.slots) :
    l.offset slot + l.tupleSize ≤ size := by
  have hbits : l.slots * (l.tupleSize * 8 + 1) ≤ size * 8 := by
    rw [slots_eq_of_forPage h]
    exact Nat.div_mul_le_self _ _
  have hbytes : l.slots * (l.tupleSize * 8 + 1) = l.slots * l.tupleSize * 8 + l.slots := by
    rw [Nat.mul_add, Nat.mul_one, Nat.mul_assoc]
  have hend : slot * l.tupleSize + l.tupleSize ≤ l.slots * l.tupleSize := by
    rw [← Nat.succ_mul]
    exact Nat.mul_le_mul_right l.tupleSize hslot
  simp only [offset, bitmapSize]
  omega

theorem length_set_overwrite (h : forPage data.length l.tupleSize = .ok l) (hslot : slot < l.slots)
    (htuple : tuple.length = l.tupleSize) (on : Bool) :
    (Bitmap.set (Bytes.overwrite data (l.offset slot) tuple) slot on).length = data.length := by
  rw [Bitmap.length_set, Bytes.length_overwrite]
  rw [htuple]
  exact offset_add_le h hslot

theorem length_write (h : forPage data.length l.tupleSize = .ok l) (hslot : slot < l.slots)
    (htuple : tuple.length = l.tupleSize) : (l.write data slot tuple).length = data.length :=
  length_set_overwrite h hslot htuple true

theorem length_clear (h : forPage data.length l.tupleSize = .ok l) (hslot : slot < l.slots) :
    (l.clear data slot).length = data.length :=
  length_set_overwrite h hslot (Bytes.length_zeros _) false

theorem lt_slots_of_freeSlot (h : l.freeSlot data = some slot) : slot < l.slots :=
  List.mem_range.1 (List.mem_of_find?_eq_some h)

theorem lt_slots_of_isUsed (h : l.isUsed data slot = true) : slot < l.slots := by
  rw [isUsed, Bool.and_eq_true, decide_eq_true_eq] at h
  exact h.1

end Layout

namespace HeapTable

variable {t : HeapTable} {page edited : Page} {tuple : Bytes} {slot : UInt16}

/-- Edits keep the size of a page that the layout is for, if the tuple has the table's width. -/
theorem place?_eq_some (h : t.place? page tuple = some edited) :
    ∃ data, edited = { page with data } ∧
      (Layout.forPage page.data.length t.layout.tupleSize = .ok t.layout →
        tuple.length = t.layout.tupleSize → data.length = page.data.length) := by
  obtain ⟨slot, hslot, rfl⟩ := Option.map_eq_some_iff.1 h
  exact ⟨_, rfl, fun hlayout htuple =>
    Layout.length_write hlayout (Layout.lt_slots_of_freeSlot hslot) htuple⟩

theorem remove?_eq_some (h : t.remove? page slot = some edited) :
    ∃ data, edited = { page with data } ∧
      (Layout.forPage page.data.length t.layout.tupleSize = .ok t.layout →
        data.length = page.data.length) := by
  unfold remove? at h
  split at h
  · rename_i hused
    exact ⟨_, (Option.some.inj h).symm, fun hlayout =>
      Layout.length_clear hlayout (Layout.lt_slots_of_isUsed hused)⟩
  · contradiction

end HeapTable

end PagePool
