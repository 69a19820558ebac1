import PagePool.Proofs.Heap.Contents

namespace PagePool

namespace Bitmap

variable {bs bs' : Bytes} {i : Nat}

/-- A byte is made of its eight bits. -/
theorem getElem?_eq_of_get (hlength : bs.length = bs'.length)
    (h : ∀ j < 8, get bs (8 * i + j) = get bs' (8 * i + j)) : bs[i]? = bs'[i]? := by
  have hbits : (bs.getD i 0).toNat = (bs'.getD i 0).toNat := by
    apply Nat.eq_of_testBit_eq
    intro j
    by_cases hj : j < 8
    · have hbyte : (8 * i + j) / 8 = i := by omega
      have hbit : (8 * i + j) % 8 = j := by omega
      simpa only [get, hbyte, hbit] using h j hj
    · have hhigh (b : UInt8) : b.toNat.testBit j = false := by
        apply Nat.testBit_lt_two_pow
        exact Nat.lt_of_lt_of_le b.toNat_lt (Nat.pow_le_pow_right (by omega) (by omega))
      rw [hhigh, hhigh]
  have hbytes : bs.getD i 0 = bs'.getD i 0 := UInt8.toNat_inj.1 hbits
  by_cases hi : i < bs.length
  · have hi' : i < bs'.length := hlength ▸ hi
    simpa [List.getD_eq_getElem?_getD, hi, hi'] using hbytes
  · rw [List.getElem?_eq_none (by omega), List.getElem?_eq_none (by omega)]

end Bitmap

namespace Layout

variable {l : Layout} {size width slot i j : Nat} {data data' tuple : Bytes}

/-- Pages that writes and clears make of a page of zeros. -/
inductive Built (l : Layout) (size : Nat) : Bytes → Prop where
  | zeros : Built l size (Bytes.zeros size)
  | write {data data' tuple : Bytes} {slot : Nat} : Built l size data → slot < l.slots →
      l.write? data slot tuple = some data' → Built l size data'
  | clear {data data' : Bytes} {slot : Nat} : Built l size data → slot < l.slots →
      l.clear? data slot = some data' → Built l size data'

/-- A page with zeros wherever no tuple and no used slot's bit stands. -/
structure Tidy (l : Layout) (data : Bytes) : Prop where
  unused : ∀ slot < l.slots, l.isUsed data slot = false → l.read data slot = Bytes.zeros l.tupleSize
  spare_bits : ∀ i, l.slots ≤ i → i / 8 < l.bitmapSize → Bitmap.get data i = false
  padding : ∀ i, l.offset l.slots ≤ i → i < data.length → data[i]? = some 0

/-! Buffers that a layout is for hold everything that it reaches. -/

section Reach

variable (h : forPage data.length l.tupleSize = .ok l)

include h

theorem covers_eq_true (hslot : slot < l.slots) : l.covers data slot = true :=
  decide_eq_true (offset_add_le h hslot)

theorem bitmapSize_le : l.bitmapSize ≤ data.length := by
  obtain ⟨-, hpos, -⟩ := bounds_of_forPage h
  have hfirst := offset_add_le h hpos
  simp only [offset] at hfirst
  omega

theorem isUsed?_eq (slot : Nat) : l.isUsed? data slot = some (l.isUsed data slot) := by
  rw [isUsed?, if_neg]
  rintro ⟨hslot, hbit⟩
  have hlt := div_lt_offset hslot slot
  have hend := offset_add_le h hslot
  simp only [hasBit, decide_eq_false_iff_not] at hbit
  omega

theorem freeSlot?_eq : l.freeSlot? data = some (l.freeSlot data) := by
  have hbit : ∀ slot, l.freeSlot data = some slot → hasBit data slot = true := by
    intro slot hfree
    have hslot := lt_slots_of_freeSlot hfree
    have hlt := div_lt_offset hslot slot
    have hend := offset_add_le h hslot
    rw [hasBit, decide_eq_true_eq]
    omega
  rw [freeSlot?]
  cases hfree : l.freeSlot data with
  | none => rfl
  | some slot => exact if_pos (hbit slot hfree)

theorem usedSlots?_eq : l.usedSlots? data = some (l.usedSlots data) := if_pos (bitmapSize_le h)

theorem freeSlotCount?_eq : l.freeSlotCount? data = some (l.freeSlotCount data) :=
  if_pos (bitmapSize_le h)

theorem read?_eq (hslot : slot < l.slots) : l.read? data slot = some (l.read data slot) :=
  if_pos (covers_eq_true h hslot)

theorem write?_eq (hslot : slot < l.slots) (htuple : tuple.length = l.tupleSize) :
    l.write? data slot tuple = some (l.write data slot tuple) :=
  if_pos ⟨covers_eq_true h hslot, htuple⟩

theorem clear?_eq (hslot : slot < l.slots) : l.clear? data slot = some (l.clear data slot) :=
  if_pos (covers_eq_true h hslot)

theorem length_read (hslot : slot < l.slots) : (l.read data slot).length = l.tupleSize :=
  Bytes.length_slice (offset_add_le h hslot)

end Reach

/-! One slot at a time. -/

/-- An edit of one slot: the page keeps its size and every other slot its use and its bytes. -/
structure Edits (l : Layout) (data data' : Bytes) (slot : Nat) : Prop where
  length_eq : data'.length = data.length
  isUsed_eq : ∀ j, j ≠ slot → l.isUsed? data' j = l.isUsed? data j
  read_eq : ∀ j < l.slots, j ≠ slot → l.read? data' j = l.read? data j

/-- What a buffer does with a slot: it is read, written and cleared within the buffer, a tuple
written is the one read back, and a slot cleared is unused. -/
structure Keeps (l : Layout) (data : Bytes) (slot : Nat) : Prop where
  isUsed : ∃ used, l.isUsed? data slot = some used
  read : ∃ tuple, l.read? data slot = some tuple ∧ tuple.length = l.tupleSize
  write : ∀ tuple : Bytes, tuple.length = l.tupleSize → ∃ data',
    l.write? data slot tuple = some data' ∧ l.Edits data data' slot ∧
      l.isUsed? data' slot = some true ∧ l.read? data' slot = some tuple
  clear : ∃ data', l.clear? data slot = some data' ∧ l.Edits data data' slot ∧
    l.isUsed? data' slot = some false

section Overwrite

variable (h : forPage data.length l.tupleSize = .ok l) (hslot : slot < l.slots)
  (htuple : tuple.length = l.tupleSize)

include h hslot htuple

theorem edits_set_overwrite (on : Bool) :
    l.Edits data (Bitmap.set (Bytes.overwrite data (l.offset slot) tuple) slot on) slot := by
  have hlength := length_set_overwrite h hslot htuple on
  have h' := hlength.symm ▸ h
  refine ⟨hlength, fun j hne => ?_, fun j hj hne => ?_⟩
  · rw [isUsed?_eq h', isUsed?_eq h, isUsed_set_overwrite h hslot htuple, if_neg hne]
  · rw [read?_eq h' hj, read?_eq h hj, read_set_overwrite_of_ne h hslot htuple on hne]

/-- Pages stay tidy if a slot that is given up is filled with zeros. -/
theorem Tidy.set_overwrite (ht : l.Tidy data) {on : Bool}
    (hoff : on = false → tuple = Bytes.zeros l.tupleSize) :
    l.Tidy (Bitmap.set (Bytes.overwrite data (l.offset slot) tuple) slot on) := by
  have hend := offset_add_le h hslot
  constructor
  · intro j hj hunused
    rw [isUsed_set_overwrite h hslot htuple] at hunused
    by_cases he : j = slot
    · subst he
      rw [if_pos rfl] at hunused
      rw [read_set_overwrite_self h hslot htuple, hoff hunused]
    · rw [if_neg he] at hunused
      rw [read_set_overwrite_of_ne h hslot htuple on he]
      exact ht.unused j hj hunused
  · intro i hi hbits
    rw [get_set_overwrite h hslot htuple on hbits, if_neg (by omega)]
    exact ht.spare_bits i hi hbits
  · intro i hi hlength
    rw [length_set_overwrite h hslot htuple] at hlength
    -- the slot ends where the next one begins or the padding
    have hslots := l.offset_add_le_offset hslot
    have hbit := div_lt_offset hslot slot
    rw [Bitmap.set, List.getElem?_set_ne (by omega), Bytes.getElem?_overwrite (by omega),
      if_neg (by omega)]
    exact ht.padding i hi hlength

end Overwrite

theorem keeps_of_forPage (h : forPage data.length l.tupleSize = .ok l) (hslot : slot < l.slots) :
    l.Keeps data slot := by
  have hzeros : (Bytes.zeros l.tupleSize).length = l.tupleSize := Bytes.length_zeros _
  refine ⟨⟨_, isUsed?_eq h slot⟩, ⟨_, read?_eq h hslot, length_read h hslot⟩, ?_, ?_⟩
  · intro tuple htuple
    have hedits : l.Edits data (l.write data slot tuple) slot :=
      edits_set_overwrite h hslot htuple true
    have h' := hedits.length_eq.symm ▸ h
    refine ⟨_, write?_eq h hslot htuple, hedits, ?_, ?_⟩
    · rw [isUsed?_eq h', isUsed_write h hslot htuple, decide_eq_true rfl, Bool.true_or]
    · rw [read?_eq h' hslot, read_write_self h hslot htuple]
  · have hedits : l.Edits data (l.clear data slot) slot :=
      edits_set_overwrite h hslot hzeros false
    have h' := hedits.length_eq.symm ▸ h
    refine ⟨_, clear?_eq h hslot, hedits, ?_⟩
    rw [isUsed?_eq h', clear, isUsed_set_overwrite h hslot hzeros, if_pos rfl]

/-! All slots together. -/

/-- What a buffer says of its slots: which is the first free one, which are used, and how many are
free. -/
structure Lists (l : Layout) (data : Bytes) : Prop where
  free : ∃ free, l.freeSlot? data = some free ∧
    (free = none ↔ ∀ slot < l.slots, l.isUsed? data slot = some true) ∧
    ∀ slot, free = some slot ↔ slot < l.slots ∧ l.isUsed? data slot = some false ∧
      ∀ j < slot, l.isUsed? data j = some true
  used : ∃ used count, l.usedSlots? data = some used ∧ l.freeSlotCount? data = some count ∧
    used.Pairwise (· < ·) ∧
    (∀ slot, slot ∈ used ↔ slot < l.slots ∧ l.isUsed? data slot = some true) ∧
    used.length + count = l.slots

/-- The first free slot is unused, and those before it are used. -/
theorem freeSlot_eq_some : l.freeSlot data = some slot ↔
    slot < l.slots ∧ l.isUsed data slot = false ∧ ∀ j < slot, l.isUsed data j = true := by
  rw [freeSlot, List.find?_range_eq_some, List.mem_range]
  simp only [Bool.not_not, Bool.not_eq_true']
  tauto

theorem length_usedSlots_add (l : Layout) (data : Bytes) :
    (l.usedSlots data).length + l.freeSlotCount data = l.slots := by
  have hcount := (List.range l.slots).length_eq_countP_add_countP fun slot => l.isUsed data slot
  rw [List.length_range] at hcount
  simp only [Bool.not_eq_true, Bool.decide_eq_false] at hcount
  rw [usedSlots, ← List.countP_eq_length_filter, freeSlotCount, ← hcount]

theorem lists_of_forPage (h : forPage data.length l.tupleSize = .ok l) : l.Lists data := by
  constructor
  · refine ⟨_, freeSlot?_eq h, ?_, fun slot => ?_⟩
    · simp only [isUsed?_eq h, Option.some.injEq]
      exact freeSlot_eq_none
    · simp only [isUsed?_eq h, Option.some.injEq]
      exact freeSlot_eq_some
  · refine ⟨_, _, usedSlots?_eq h, freeSlotCount?_eq h, List.pairwise_lt_range.filter _,
      fun slot => ?_, length_usedSlots_add l data⟩
    simp only [isUsed?_eq h, Option.some.injEq, mem_usedSlots]
    exact ⟨fun hused => ⟨lt_slots_of_isUsed hused, hused⟩, And.right⟩

/-! Tidy pages are made of their tuples. -/

theorem tidy_zeros (h : forPage size l.tupleSize = .ok l) : l.Tidy (Bytes.zeros size) := by
  refine ⟨fun slot hslot _ => ?_, fun i _ _ => Bitmap.get_zeros size i, fun i _ hi => ?_⟩
  · have hend := offset_add_le h hslot
    rw [read, Bytes.zeros, List.drop_replicate, List.take_replicate, Bytes.zeros]
    congr 1
    omega
  · rw [Bytes.length_zeros] at hi
    simp [Bytes.zeros, hi]

theorem write?_eq_some (hw : l.write? data slot tuple = some data') :
    tuple.length = l.tupleSize ∧ data' = l.write data slot tuple := by
  unfold write? at hw
  split at hw
  · rename_i hc
    exact ⟨hc.2, (Option.some.inj hw).symm⟩
  · contradiction

theorem clear?_eq_some (hc : l.clear? data slot = some data') : data' = l.clear data slot := by
  unfold clear? at hc
  split at hc
  · exact (Option.some.inj hc).symm
  · contradiction

theorem Built.tidy (h : forPage size l.tupleSize = .ok l) (hb : l.Built size data) :
    data.length = size ∧ l.Tidy data := by
  induction hb with
  | zeros => exact ⟨Bytes.length_zeros size, tidy_zeros h⟩
  | write _ hslot hw ih =>
    obtain ⟨rfl, ht⟩ := ih
    obtain ⟨htuple, rfl⟩ := write?_eq_some hw
    exact ⟨length_write h hslot htuple,
      ht.set_overwrite h hslot htuple fun h => nomatch h⟩
  | clear _ hslot hc ih =>
    obtain ⟨rfl, ht⟩ := ih
    obtain rfl := clear?_eq_some hc
    have hzeros : (Bytes.zeros l.tupleSize).length = l.tupleSize := Bytes.length_zeros _
    exact ⟨length_clear h hslot,
      ht.set_overwrite h hslot hzeros fun _ => rfl⟩

/-- A byte behind the bitmap stands in a slot or behind all of them. -/
theorem slot_of_place (l : Layout) (hwidth : 0 < l.tupleSize) (hi : l.bitmapSize ≤ i) :
    (∃ slot < l.slots, ∃ k < l.tupleSize, i = l.offset slot + k) ∨ l.offset l.slots ≤ i := by
  by_cases hend : l.offset l.slots ≤ i
  · exact .inr hend
  · left
    refine ⟨(i - l.bitmapSize) / l.tupleSize, ?_, (i - l.bitmapSize) % l.tupleSize,
      Nat.mod_lt _ hwidth, ?_⟩
    · rw [Nat.div_lt_iff_lt_mul hwidth]
      simp only [offset] at hend
      omega
    · have hsplit := Nat.div_add_mod' (i - l.bitmapSize) l.tupleSize
      simp only [offset]
      omega

theorem getElem?_read (hj : j < l.tupleSize) :
    (l.read data slot)[j]? = data[l.offset slot + j]? := by
  rw [read, List.getElem?_take_of_lt hj, List.getElem?_drop]

theorem Tidy.eq_of_tuple? (h : forPage data.length l.tupleSize = .ok l) (ht : l.Tidy data)
    (ht' : l.Tidy data') (hlength : data'.length = data.length)
    (hsame : ∀ slot < l.slots, l.tuple? data slot = l.tuple? data' slot) : data = data' := by
  obtain ⟨hwidth, -, -⟩ := bounds_of_forPage h
  have hused (slot : Nat) (hslot : slot < l.slots) : l.isUsed data slot = l.isUsed data' slot := by
    have htuple := hsame slot hslot
    cases hu : l.isUsed data' slot with
    | false => exact tuple?_eq_none.1 (htuple.trans (tuple?_eq_none.2 hu))
    | true => exact (tuple?_eq_some.1 (htuple.trans (tuple?_eq_some.2 ⟨hu, rfl⟩))).1
  have hread (slot : Nat) (hslot : slot < l.slots) : l.read data slot = l.read data' slot := by
    cases hu : l.isUsed data' slot with
    | false => rw [ht.unused slot hslot ((hused slot hslot).trans hu), ht'.unused slot hslot hu]
    | true => exact (tuple?_eq_some.1 ((hsame slot hslot).trans (tuple?_eq_some.2 ⟨hu, rfl⟩))).2
  have hbit (i : Nat) (hi : i / 8 < l.bitmapSize) : Bitmap.get data i = Bitmap.get data' i := by
    by_cases hslot : i < l.slots
    · simpa only [isUsed, hslot, decide_true, Bool.true_and] using hused i hslot
    · rw [ht.spare_bits i (by omega) hi, ht'.spare_bits i (by omega) hi]
  apply List.ext_getElem?
  intro i
  by_cases hmap : i < l.bitmapSize
  · exact Bitmap.getElem?_eq_of_get hlength.symm fun j hj => hbit _ (by omega)
  · rcases slot_of_place l hwidth (Nat.le_of_not_lt hmap) with ⟨slot, hslot, k, hk, rfl⟩ | hpad
    · rw [← getElem?_read hk, ← getElem?_read hk, hread slot hslot]
    · by_cases hi : i < data.length
      · rw [ht.padding i hpad hi, ht'.padding i hpad (by omega)]
      · rw [List.getElem?_eq_none (by omega), List.getElem?_eq_none (by omega)]

/-- Pages built by writes and clears are equal if their tuples are. -/
theorem Built.eq_of_tuple? (h : forPage size l.tupleSize = .ok l) (hb : l.Built size data)
    (hb' : l.Built size data') (hsame : ∀ slot < l.slots, l.tuple? data slot = l.tuple? data' slot) :
    data = data' := by
  obtain ⟨rfl, ht⟩ := hb.tidy h
  obtain ⟨hlength, ht'⟩ := hb'.tidy h
  exact ht.eq_of_tuple? h ht' hlength hsame

/-- A tuple that comes into a free slot and goes again leaves no trace. -/
theorem Built.clear_write (h : forPage size l.tupleSize = .ok l) (hb : l.Built size data)
    (hslot : slot < l.slots) (hfree : l.isUsed data slot = false)
    (htuple : tuple.length = l.tupleSize) :
    (l.write? data slot tuple).bind (fun data => l.clear? data slot) = some data := by
  obtain ⟨rfl, -⟩ := hb.tidy h
  have hwrite := write?_eq h hslot htuple
  have h' := (length_write h hslot htuple).symm ▸ h
  have hclear := clear?_eq h' hslot
  have hb' := (hb.write hslot hwrite).clear hslot hclear
  rw [hwrite, Option.bind_some, hclear]
  refine congrArg some (hb'.eq_of_tuple? h hb fun j hj => ?_)
  rw [tuple?_clear h' hslot, tuple?_write h hslot htuple]
  split
  · rename_i he
    rw [he, tuple?_eq_none.2 hfree]
  · rfl

/-- A page is a map from slots to tuples. Whatever bytes it has, each slot keeps what is put into it
and lets go of what is cleared, no other slot is touched, and the lists of free and of used slots say
what the bitmap says; nothing reaches over the end of the page. The bytes of a page that is built by
writes and clears are those of its map alone. -/
theorem page_is_map (h : forPage size width = .ok l) :
    (∀ data : Bytes, data.length = size →
      (∀ slot < l.slots, l.Keeps data slot) ∧ l.Lists data) ∧
    (∀ data data' : Bytes, l.Built size data → l.Built size data' →
      (∀ slot < l.slots, l.tuple? data slot = l.tuple? data' slot) → data = data') ∧
    ∀ (data tuple : Bytes) (slot : Nat), l.Built size data → slot < l.slots →
      l.isUsed? data slot = some false → tuple.length = width →
      (l.write? data slot tuple).bind (fun data => l.clear? data slot) = some data := by
  obtain ⟨rfl, -⟩ := forPage_eq_ok h
  refine ⟨?_, fun _ _ hb hb' hsame => hb.eq_of_tuple? h hb' hsame, ?_⟩
  · rintro data rfl
    exact ⟨fun slot hslot => keeps_of_forPage h hslot, lists_of_forPage h⟩
  · intro data tuple slot hb hslot hfree htuple
    refine hb.clear_write h hslot ?_ htuple
    obtain ⟨rfl, -⟩ := hb.tidy h
    rwa [isUsed?_eq h, Option.some.injEq] at hfree

/-- Pages of eight bytes with two slots of three bytes, one with all bits set and one with a tuple in
its second slot. -/
theorem two_slots_are_map : forPage 8 3 = .ok ⟨3, 2⟩ ∧
    (∀ slot < 2, Keeps ⟨3, 2⟩ (List.replicate 8 255) slot) ∧ Lists ⟨3, 2⟩ (List.replicate 8 255) ∧
    Built ⟨3, 2⟩ 8 [2, 0, 0, 0, 7, 8, 9, 0] ∧
    isUsed? ⟨3, 2⟩ [2, 0, 0, 0, 7, 8, 9, 0] 0 = some false ∧
    (write? ⟨3, 2⟩ [2, 0, 0, 0, 7, 8, 9, 0] 0 [4, 5, 6]).bind (fun data => clear? ⟨3, 2⟩ data 0) =
      some [2, 0, 0, 0, 7, 8, 9, 0] := by
  have h : forPage 8 3 = .ok ⟨3, 2⟩ := rfl
  have hb : Built ⟨3, 2⟩ 8 [2, 0, 0, 0, 7, 8, 9, 0] :=
    Built.zeros.write (by decide : 1 < 2) (rfl : write? ⟨3, 2⟩ (Bytes.zeros 8) 1 [7, 8, 9] = _)
  have hfree : isUsed? ⟨3, 2⟩ [2, 0, 0, 0, 7, 8, 9, 0] 0 = some false := by decide
  obtain ⟨hany, -, hundo⟩ := page_is_map h
  obtain ⟨hkeeps, hlists⟩ := hany (List.replicate 8 255) rfl
  exact ⟨h, hkeeps, hlists, hb, hfree, hundo _ [4, 5, 6] 0 hb (by decide) hfree rfl⟩

end Layout

end PagePool
